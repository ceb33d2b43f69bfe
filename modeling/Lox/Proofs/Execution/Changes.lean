import Lox.Proofs.Execution.Calls
import Lox.Proofs.Execution.Frames

/-!
# What a run does to the machine

A run changes the store by a few kinds of change and by no other (`Change`), prints, and puts the
current frame and the call depth back however it ends (`Leads`). The changes are those of the code
that is run: `Code` is any set of trees that holds the parts of its trees, and a run of its code
writes only names of the code and makes functions only of its declarations. Every invariant of the
store is then a matter of one change at a time.
-/

namespace Lox

/-! ## Code -/

/-- The parameters and the body of a function are among the given names and statements. -/
def FunDecl.MadeOf (name : String → Prop) (stmt : Stmt ν → Prop) (f : FunDecl (Stmt ν)) : Prop :=
  (∀ p ∈ f.params, name p.lexeme) ∧ ∀ t ∈ f.body, stmt t

/-- A set of trees that holds the parts of its trees, and the names that they write. -/
structure Code (ν : Type) where
  name : String → Prop
  expr : Expr ν → Prop
  stmt : Stmt ν → Prop
  assign : ∀ {k x e}, expr (.assign k x e) → name x.lexeme ∧ expr e
  binary : ∀ {l op r}, expr (.binary l op r) → expr l ∧ expr r
  call : ∀ {f paren args}, expr (.call f paren args) → expr f ∧ ∀ e ∈ args, expr e
  get : ∀ {o x}, expr (.get o x) → expr o
  grouping : ∀ {e}, expr (.grouping e) → expr e
  logical : ∀ {l op r}, expr (.logical l op r) → expr l ∧ expr r
  set : ∀ {o x e}, expr (.set o x e) → expr o ∧ expr e
  unary : ∀ {op e}, expr (.unary op e) → expr e
  block : ∀ {body}, stmt (.block body) → ∀ t ∈ body, stmt t
  classDecl : ∀ {x parent methods}, stmt (.classDecl x parent methods) →
    name x.lexeme ∧ (∀ e ∈ parent, expr e) ∧ ∀ f ∈ methods, f.MadeOf name stmt
  expression : ∀ {e}, stmt (.expression e) → expr e
  function : ∀ {f}, stmt (.function f) → name f.name.lexeme ∧ f.MadeOf name stmt
  conditional : ∀ {c s t}, stmt (.conditional c s t) → expr c ∧ stmt s ∧ ∀ u ∈ t, stmt u
  print : ∀ {kw e}, stmt (.print kw e) → expr e
  returning : ∀ {kw e}, stmt (.returning kw e) → ∀ u ∈ e, expr u
  varDecl : ∀ {x e}, stmt (.varDecl x e) → name x.lexeme ∧ ∀ u ∈ e, expr u
  loop : ∀ {c s}, stmt (.loop c s) → expr c ∧ stmt s

namespace Code

/-- All trees. -/
def all (ν : Type) : Code ν where
  name _ := True
  expr _ := True
  stmt _ := True
  assign _ := ⟨trivial, trivial⟩
  binary _ := ⟨trivial, trivial⟩
  call _ := ⟨trivial, fun _ _ => trivial⟩
  get _ := trivial
  grouping _ := trivial
  logical _ := ⟨trivial, trivial⟩
  set _ := ⟨trivial, trivial⟩
  unary _ := trivial
  block _ _ _ := trivial
  classDecl _ := ⟨trivial, fun _ _ => trivial, fun _ _ => ⟨fun _ _ => trivial, fun _ _ => trivial⟩⟩
  expression _ := trivial
  function _ := ⟨trivial, fun _ _ => trivial, fun _ _ => trivial⟩
  conditional _ := ⟨trivial, trivial, fun _ _ => trivial⟩
  print _ := trivial
  returning _ _ _ := trivial
  varDecl _ := ⟨trivial, fun _ _ => trivial⟩
  loop _ := ⟨trivial, trivial⟩

/-- What lies in some statements: the least code that holds them. -/
def of (T : Stmt ν → Prop) : Code ν where
  name x := ∀ C : Code ν, (∀ t, T t → C.stmt t) → C.name x
  expr e := ∀ C : Code ν, (∀ t, T t → C.stmt t) → C.expr e
  stmt s := ∀ C : Code ν, (∀ t, T t → C.stmt t) → C.stmt s
  assign h := ⟨fun C hC => (C.assign (h C hC)).1, fun C hC => (C.assign (h C hC)).2⟩
  binary h := ⟨fun C hC => (C.binary (h C hC)).1, fun C hC => (C.binary (h C hC)).2⟩
  call h := ⟨fun C hC => (C.call (h C hC)).1, fun e he C hC => (C.call (h C hC)).2 e he⟩
  get h := fun C hC => C.get (h C hC)
  grouping h := fun C hC => C.grouping (h C hC)
  logical h := ⟨fun C hC => (C.logical (h C hC)).1, fun C hC => (C.logical (h C hC)).2⟩
  set h := ⟨fun C hC => (C.set (h C hC)).1, fun C hC => (C.set (h C hC)).2⟩
  unary h := fun C hC => C.unary (h C hC)
  block h := fun t ht C hC => C.block (h C hC) t ht
  classDecl h := ⟨fun C hC => (C.classDecl (h C hC)).1, fun e he C hC => (C.classDecl (h C hC)).2.1 e he,
    fun f hf => ⟨fun p hp C hC => ((C.classDecl (h C hC)).2.2 f hf).1 p hp,
      fun t ht C hC => ((C.classDecl (h C hC)).2.2 f hf).2 t ht⟩⟩
  expression h := fun C hC => C.expression (h C hC)
  function h := ⟨fun C hC => (C.function (h C hC)).1, fun p hp C hC => (C.function (h C hC)).2.1 p hp,
    fun t ht C hC => (C.function (h C hC)).2.2 t ht⟩
  conditional h := ⟨fun C hC => (C.conditional (h C hC)).1, fun C hC => (C.conditional (h C hC)).2.1,
    fun u hu C hC => (C.conditional (h C hC)).2.2 u hu⟩
  print h := fun C hC => C.print (h C hC)
  returning h := fun u hu C hC => C.returning (h C hC) u hu
  varDecl h := ⟨fun C hC => (C.varDecl (h C hC)).1, fun u hu C hC => (C.varDecl (h C hC)).2 u hu⟩
  loop h := ⟨fun C hC => (C.loop (h C hC)).1, fun C hC => (C.loop (h C hC)).2⟩

variable (C : Code ν)

/-- A declaration of the code. -/
def decl (f : FunDecl (Stmt ν)) : Prop := f.MadeOf C.name C.stmt

/-- A callable made of a declaration of the code. -/
def callable : Callable ν → Prop
  | .native _ => True
  | .function f => C.decl f.decl
  | .constructor _ initializer => ∀ f ∈ initializer, C.decl f.decl

/-- A task that runs the code. -/
def task : Task ν → Prop
  | .eval e => C.expr e
  | .evalAll es => ∀ e ∈ es, C.expr e
  | .invoke _ _ _ => True
  | .apply f _ => C.callable f
  | .applyFunction f _ => C.decl f.decl
  | .exec t => C.stmt t
  | .execAll ts => ∀ t ∈ ts, C.stmt t

/-- A task of any kind runs some code. -/
theorem task_all (T : Task ν) : (all ν).task T := by
  have hdecl : ∀ f : FunDecl (Stmt ν), (all ν).decl f := fun _ => ⟨fun _ _ => trivial, fun _ _ => trivial⟩
  cases T with
  | apply f args =>
    cases f with
    | native f => trivial
    | function f => exact hdecl f.decl
    | constructor i f => exact fun g _ => hdecl g.decl
  | applyFunction f args => exact hdecl f.decl
  | eval e => trivial
  | evalAll es => exact fun _ _ => trivial
  | invoke paren callee args => trivial
  | exec t => trivial
  | execAll ts => exact fun _ _ => trivial

end Code

/-! ## Changes of the store -/

section
variable (C : Code ν)

/-- One change that running the code makes to the store. -/
inductive Change : Store ν → Store ν → Prop
  /-- A name of a frame is written. -/
  | write (f : FrameId) {x : String} (v : Value) : C.name x →
      Change s { s with frames := s.frames.define f x v }
  /-- A frame is made for a block or a call. -/
  | frame (e : FrameId) {names : Table Value} : (∀ x, names.contains x = true → C.name x) →
      Change s (s.addFrame ⟨names, some e⟩).2
  /-- A frame is made for `super`. -/
  | parent (e : FrameId) (p : ClassId) :
      Change s (s.addFrame ⟨Table.empty.insert "super" (.classRef p), some e⟩).2
  /-- A frame is made for `this`. -/
  | receiver (f : Function ν) (this : ObjectId) : Change s (s.bindMethod f this).2
  | function {f : Function ν} : C.decl f.decl → Change s (s.addFunction f).2
  | newClass {c : Class ν} : (∀ p ∈ c.methods.entries, C.decl p.2.decl) → Change s (s.addClass c).2
  | object (o : Object) : Change s (s.addObject o).2
  | field (i : ObjectId) (x : String) (v : Value) : Change s (s.setField i x v)

/-- One change after another. -/
abbrev Changes : Store ν → Store ν → Prop := Relation.ReflTransGen (Change C)

/-- All functions and methods of the store are made of the code. -/
structure Store.Holds (s : Store ν) : Prop where
  functions : ∀ (i : Nat) f, s.functions[i]? = some f → C.decl f.decl
  methods : ∀ (i : Nat) c, s.classes[i]? = some c → ∀ p ∈ c.methods.entries, C.decl p.2.decl

end

section
variable {C : Code ν} {s s' : Store ν}

theorem Store.holds_all (s : Store ν) : s.Holds (Code.all ν) :=
  ⟨fun _ f _ => Code.task_all (.applyFunction f []), fun _ _ _ p _ => Code.task_all (.applyFunction p.2 [])⟩

/-- A frame is made for a block. -/
theorem Change.block (e : FrameId) : Change C s (s.addFrame ⟨{}, some e⟩).2 := .frame e fun _ hx => nomatch hx

theorem Change.holds (hc : Change C s s') (h : s.Holds C) : s'.Holds C := by
  cases hc with
  | write => exact ⟨h.functions, h.methods⟩
  | frame => exact ⟨h.functions, h.methods⟩
  | parent => exact ⟨h.functions, h.methods⟩
  | receiver => exact ⟨h.functions, h.methods⟩
  | @function g hg =>
    refine ⟨?_, h.methods⟩
    intro i f hf
    simp only [Store.addFunction, Array.getElem?_push] at hf
    split at hf
    · cases hf
      exact hg
    · exact h.functions i f hf
  | @newClass c' hc' =>
    refine ⟨h.functions, ?_⟩
    intro i c hc
    simp only [Store.addClass, Array.getElem?_push] at hc
    split at hc
    · cases hc
      exact hc'
    · exact h.methods i c hc
  | object => exact ⟨h.functions, h.methods⟩
  | field => exact ⟨h.functions, h.methods⟩

theorem Changes.holds (hc : Changes C s s') (h : s.Holds C) : s'.Holds C := by
  induction hc with
  | refl => exact h
  | tail _ hstep ih => exact hstep.holds ih

/-- Nothing is taken away. -/
structure Store.Grows (s s' : Store ν) : Prop where
  frames : s.frames.cells.size ≤ s'.frames.cells.size
  functions : s.functions.size ≤ s'.functions.size
  classes : s.classes.size ≤ s'.classes.size
  objects : s.objects.size ≤ s'.objects.size

theorem Change.grows (hc : Change C s s') : s.Grows s' := by
  cases hc <;> constructor <;> simp [Store.addFrame, Store.addFunction, Store.addClass, Store.addObject,
    Store.setField, Store.bindMethod]

theorem Changes.grows (hc : Changes C s s') : s.Grows s' := by
  induction hc with
  | refl => exact ⟨Nat.le_refl _, Nat.le_refl _, Nat.le_refl _, Nat.le_refl _⟩
  | tail _ hstep ih =>
    have h := hstep.grows
    exact ⟨Nat.le_trans ih.frames h.frames, Nat.le_trans ih.functions h.functions,
      Nat.le_trans ih.classes h.classes, Nat.le_trans ih.objects h.objects⟩

theorem Table.mem_of_get? {t : Table α} {x : String} {a : α} (h : t.get? x = some a) :
    (x, a) ∈ t.entries := by
  obtain ⟨l₁, l₂, he, _⟩ := List.lookup_eq_some_iff.1 h
  rw [he]
  simp

/-- A method that is found is a method of some class. -/
theorem Store.mem_of_methodWithin? {x : String} {fuel : Nat} {i : ClassId} {f : Function ν}
    (hf : s.methodWithin? x fuel i = some f) :
    ∃ (j : Nat) (c : Class ν), s.classes[j]? = some c ∧ (x, f) ∈ c.methods.entries := by
  induction fuel generalizing i with
  | zero => cases hf
  | succ n ih =>
    simp only [Store.methodWithin?, Option.bind_eq_some_iff] at hf
    obtain ⟨c, hc, hf⟩ := hf
    cases hm : c.methods.get? x with
    | some g =>
      simp only [hm, Option.some.injEq] at hf
      subst hf
      exact ⟨i, c, hc, Table.mem_of_get? hm⟩
    | none =>
      simp only [hm, Option.bind_eq_some_iff] at hf
      obtain ⟨j, _, hj⟩ := hf
      exact ih hj

/-- A property that is a method was found in the class of the object. -/
theorem Store.method?_of_property {i : ObjectId} {x : String} {f : Function ν}
    (hf : s.property i x = .method f) : ∃ j, s.method? j x = some f := by
  unfold Store.property at hf
  split at hf
  · cases hf
  · split at hf
    · cases hf
    · split at hf
      · rename_i hm
        cases hf
        exact ⟨_, hm⟩
      · cases hf

theorem Store.Holds.method (h : s.Holds C) {i : ClassId} {x : String} {f : Function ν}
    (hf : s.method? i x = some f) : C.decl f.decl := by
  obtain ⟨j, c, hc, hmem⟩ := Store.mem_of_methodWithin? hf
  exact h.methods j c hc _ hmem

theorem Store.Holds.callable (h : s.Holds C) {v : Value} {f : Callable ν}
    (hf : Callable.of? s v = some f) : C.callable f := by
  cases v with
  | native g =>
    cases hf
    trivial
  | functionRef i =>
    obtain ⟨g, hg, rfl⟩ := Option.map_eq_some_iff.1 hf
    exact h.functions i g hg
  | classRef i =>
    cases hf
    exact fun g hg => h.method hg
  | _ => cases hf

end

/-! ## Where a step leads -/

/-- The machine that a step leaves behind, if it ends. -/
def Result.machine? : Result ν α → Option (Machine ν)
  | .done _ m => some m
  | .failed _ m => some m
  | .outOfFuel => none

namespace Exec

section
variable {x : Exec ν α} {f : α → Exec ν β} {m m' : Machine ν}

/-- Of two steps, one after the other, either the first or the second leaves the machine behind. -/
theorem machine?_bind (h : ((x >>= f) m).machine? = some m') :
    (x m).machine? = some m' ∨ ∃ a m₁, x m = .done a m₁ ∧ (f a m₁).machine? = some m' := by
  rw [bind_apply] at h
  cases hr : x m with
  | done a m₁ =>
    rw [hr] at h
    exact .inr ⟨a, m₁, rfl, h⟩
  | failed e m₁ =>
    rw [hr] at h
    exact .inl h
  | outOfFuel =>
    rw [hr] at h
    cases h

theorem machine?_inFrame {frame : FrameId} (h : (inFrame frame x m).machine? = some m') :
    ∃ m₁, (x { m with env := frame }).machine? = some m₁ ∧ m' = { m₁ with env := m.env } := by
  simp only [inFrame] at h
  cases hr : x { m with env := frame } <;> rw [hr] at h <;> cases h <;> exact ⟨_, rfl, rfl⟩

theorem machine?_deeper (h : (deeper x m).machine? = some m') :
    ∃ m₁, (x { m with depth := m.depth + 1 }).machine? = some m₁ ∧ m' = { m₁ with depth := m₁.depth - 1 } := by
  simp only [deeper] at h
  cases hr : x { m with depth := m.depth + 1 } <;> rw [hr] at h <;> cases h <;> exact ⟨_, rfl, rfl⟩

end

end Exec

/-- The machine that a task leaves behind, however it ends. -/
def Task.leaves (d : Distances ν) (n : Nat) : Task ν → Machine ν → Option (Machine ν)
  | .eval e, m => (Exec.eval d n e m).machine?
  | .evalAll es, m => (Exec.evalAll d n es m).machine?
  | .invoke paren callee args, m => (Exec.invoke d n paren callee args m).machine?
  | .apply f args, m => (Exec.apply d n f args m).machine?
  | .applyFunction f args, m => (Exec.applyFunction d n f args m).machine?
  | .exec t, m => (Exec.exec d n t m).machine?
  | .execAll ts, m => (Exec.execAll d n ts m).machine?

theorem Task.leaves_eq {d : Distances ν} {n : Nat} (T : Task ν) {m : Machine ν} :
    T.leaves d n m = (T.run d n m).machine? := by
  cases T <;> rfl

/-- From one machine to a later one that stands where the first did. -/
structure Leads (C : Code ν) (m m' : Machine ν) : Prop where
  env : m'.env = m.env
  depth : m'.depth = m.depth
  store : Changes C m.store m'.store
  output : ∃ bytes, m'.output.written = m.output.written ++ bytes

namespace Leads

variable {C : Code ν} {m m' m'' : Machine ν}

theorem refl : Leads C m m := ⟨rfl, rfl, .refl, .empty, by simp⟩

theorem trans (h : Leads C m m') (h' : Leads C m' m'') : Leads C m m'' := by
  obtain ⟨bytes, hb⟩ := h.output
  obtain ⟨bytes', hb'⟩ := h'.output
  exact ⟨h'.env.trans h.env, h'.depth.trans h.depth, h.store.trans h'.store, bytes ++ bytes',
    by rw [hb', hb, ByteArray.append_assoc]⟩

theorem changed {s : Store ν} (h : Change C m.store s) : Leads C m { m with store := s } :=
  ⟨rfl, rfl, .single h, .empty, by simp⟩

end Leads

namespace Exec

/-- On a store of the code, a step leads to where it leaves the machine. -/
def Keeps (C : Code ν) (x : Exec ν α) (m : Machine ν) : Prop :=
  m.store.Holds C → ∀ m', (x m).machine? = some m' → Leads C m m'

namespace Keeps

variable {C : Code ν} {x : Exec ν α} {f : α → Exec ν β} {m : Machine ν}

theorem done {a : α} {m' : Machine ν} (h : Keeps C x m) (hs : m.store.Holds C) (hx : x m = .done a m') :
    Leads C m m' :=
  h hs m' (by rw [hx]; rfl)

theorem failed {e : RuntimeError} {m' : Machine ν} (h : Keeps C x m) (hs : m.store.Holds C)
    (hx : x m = .failed e m') : Leads C m m' :=
  h hs m' (by rw [hx]; rfl)

theorem of_eq {r : Result ν α} (hx : x m = r) (h : ∀ m', r.machine? = some m' → Leads C m m') :
    Keeps C x m := by
  intro _ m' hm
  rw [hx] at hm
  exact h m' hm

theorem of_leads {m₁ : Machine ν} {a : α} (hx : x m = .done a m₁) (h : Leads C m m₁) : Keeps C x m := by
  refine of_eq hx fun m' hm => ?_
  cases hm
  exact h

theorem pure (a : α) : Keeps C (Pure.pure a) m := of_leads rfl .refl

theorem read (f : Machine ν → α) : Keeps C (Exec.read f) m := of_leads rfl .refl

theorem throwAt (t : Token) (cause : RuntimeFault) : Keeps C (Exec.throwAt t cause : Exec ν α) m := by
  refine of_eq rfl fun m' hm => ?_
  cases hm
  exact .refl

theorem liftAt (t : Token) (r : Except RuntimeFault α) : Keeps C (Exec.liftAt t r) m := by
  cases r with
  | ok a => exact pure a
  | error cause => exact throwAt t cause

theorem updateStore (f : Store ν → α × Store ν) (h : Change C m.store (f m.store).2) :
    Keeps C (Exec.updateStore f) m :=
  of_leads rfl (.changed h)

theorem define {x : String} (v : Value) (hx : C.name x) : Keeps C (Exec.define x v) m :=
  of_leads rfl (.changed (.write m.env v hx))

theorem assignIn (t : Token) (locate : Frames → Except RuntimeFault FrameId) (v : Value)
    (ht : C.name t.lexeme) : Keeps C (Exec.assignIn t locate v) m := by
  cases hl : locate m.store.frames with
  | ok f =>
    have hx : Exec.assignIn t locate v m =
        .done () { m with store := { m.store with frames := m.store.frames.define f t.lexeme v } } := by
      simp only [Exec.assignIn, hl]
    exact of_leads hx (.changed (.write f v ht))
  | error cause =>
    have hx : Exec.assignIn t locate v m = .failed ⟨t, cause⟩ m := by
      simp only [Exec.assignIn, hl]
    refine of_eq hx fun m' hm => ?_
    cases hm
    exact .refl

theorem printLine (kw : Token) (text : String) : Keeps C (Exec.printLine kw text) m := by
  have hout : Leads C m { m with output := (m.output.write (text ++ "\n").toUTF8).2 } :=
    ⟨rfl, rfl, .refl, _, rfl⟩
  unfold Keeps Exec.printLine
  intro _ m' hm
  simp only at hm
  split at hm
  · cases hm
    exact hout
  · cases hm
    exact hout

theorem bind (hx : Keeps C x m) (hf : ∀ a m', x m = .done a m' → Keeps C (f a) m') :
    Keeps C (x >>= f) m := by
  intro hs m' hm
  rcases machine?_bind hm with hm | ⟨a, m₁, hr, hm⟩
  · exact hx hs m' hm
  · have hfirst : Leads C m m₁ := hx.done hs hr
    exact hfirst.trans (hf a m₁ hr (hfirst.store.holds hs) m' hm)

/-- A step in another frame comes back to the frame it started in. -/
theorem inFrame {frame : FrameId} (hx : Keeps C x { m with env := frame }) :
    Keeps C (Exec.inFrame frame x) m := by
  intro hs m' hm
  obtain ⟨m₁, h₁, rfl⟩ := machine?_inFrame hm
  have h := hx hs m₁ h₁
  exact ⟨rfl, h.depth, h.store, h.output⟩

/-- A call that is over is no longer counted. -/
theorem deeper (hx : Keeps C x { m with depth := m.depth + 1 }) : Keeps C (Exec.deeper x) m := by
  intro hs m' hm
  obtain ⟨m₁, h₁, rfl⟩ := machine?_deeper hm
  have h := hx hs m₁ h₁
  exact ⟨h.env, by simp [h.depth], h.store, h.output⟩

end Keeps

/-! ## Names, properties and classes -/

section
variable {C : Code ν} {m : Machine ν}

theorem keeps_readName (distance : Option Nat) (x : Token) :
    Keeps C (readName distance x : Exec ν Value) m := by
  refine .bind (.read _) fun frames m₁ _ => ?_
  cases distance with
  | some j => exact .bind (.read _) fun _ _ _ => .liftAt _ _
  | none => exact .liftAt _ _

theorem keeps_assignName (distance : Option Nat) {x : Token} (v : Value) (hx : C.name x.lexeme) :
    Keeps C (assignName distance x v : Exec ν Unit) m := by
  refine .bind (.read _) fun env m₁ _ => ?_
  cases distance with
  | some j => exact .assignIn x _ v hx
  | none => exact .assignIn x _ v hx

/-- A method of the store, bound to an object, as a value. -/
theorem keeps_boundMethod {f : Lox.Function ν} (hf : C.decl f.decl) (object : ObjectId) :
    Keeps C (bindMethod f object >>= newFunction) m := by
  refine .bind (.updateStore _ (.receiver f object)) fun bound m₁ hb => ?_
  cases hb
  exact .updateStore _ (.function hf)

theorem keeps_getProperty (i : ObjectId) (x : Token) : Keeps C (getProperty i x : Exec ν Value) m := by
  intro hs
  refine Keeps.bind (.read _) (fun property m₁ hp => ?_) hs
  obtain ⟨hprop, rfl⟩ := read_eq_done.1 hp
  cases property with
  | field v => exact .pure v
  | method f =>
    obtain ⟨j, hm⟩ := Store.method?_of_property hprop
    exact keeps_boundMethod (hs.method hm) i
  | missing => exact .throwAt _ _

theorem keeps_superMethod (distance : Option Nat) (kw x : Token) :
    Keeps C (superMethod distance kw x : Exec ν Value) m := by
  cases distance with
  | none => exact .throwAt _ _
  | some j =>
    refine .bind (.read _) fun env m₁ _ => .bind (.read _) fun frames m₂ _ => ?_
    refine .bind (.liftAt _ _) fun v m₃ _ => ?_
    cases v with
    | classRef p =>
      refine .bind (.liftAt _ _) fun u m₄ _ => ?_
      cases u with
      | objectRef object =>
        intro hs
        refine Keeps.bind (.read _) (fun found m₅ hf => ?_) hs
        obtain ⟨hm, rfl⟩ := read_eq_done.1 hf
        cases found with
        | some f => exact keeps_boundMethod (hs.method hm) object
        | none => exact .throwAt _ _
      | _ => exact .throwAt _ _
    | _ => exact .throwAt _ _

theorem eq_or_mem_of_insertEntry {x : String} {a : α} {l : List (String × α)} {p : String × α}
    (h : p ∈ Table.insertEntry x a l) : p = (x, a) ∨ p ∈ l := by
  induction l with
  | nil => exact .inl (List.mem_singleton.1 h)
  | cons q rest ih =>
    simp only [Table.insertEntry] at h
    split at h
    · rename_i hx
      rcases List.mem_cons.1 h with rfl | h
      · exact .inl (by rw [beq_iff_eq.1 hx])
      · exact .inr (List.mem_cons_of_mem _ h)
    · rcases List.mem_cons.1 h with rfl | h
      · exact .inr (by simp)
      · exact (ih h).imp_right (List.mem_cons_of_mem _)

theorem mem_insertAll {pairs : List (String × α)} {t : Table α} {p : String × α}
    (h : p ∈ (t.insertAll pairs).entries) : p ∈ pairs ∨ p ∈ t.entries := by
  induction pairs generalizing t with
  | nil => exact .inr h
  | cons q rest ih =>
    rcases ih h with hp | hp
    · exact .inl (List.mem_cons_of_mem _ hp)
    · exact (eq_or_mem_of_insertEntry hp).imp_left fun h => by simp [h]

/-- The entries of a method table are its declarations, all with one closure. -/
theorem methodTable_mem {closure : FrameId} {methods : List (FunDecl (Stmt ν))}
    {p : String × Lox.Function ν} (h : p ∈ (methodTable closure methods).entries) :
    p.2.decl ∈ methods ∧ p.2.closure = closure := by
  rcases mem_insertAll h with h | h
  · obtain ⟨m, hm, rfl⟩ := List.mem_map.1 h
    exact ⟨hm, rfl⟩
  · cases h

/-- A class is made and written under its name. -/
theorem keeps_addClass {x : Token} (superclass : Option ClassId) {methods : List (FunDecl (Stmt ν))}
    (env closure : FrameId) (hx : C.name x.lexeme) (hm : ∀ f ∈ methods, C.decl f) :
    Keeps C (do
      let id ← updateStore (·.addClass ⟨x.lexeme, superclass, methodTable closure methods⟩)
      assignIn x (·.locate env x.lexeme) (.classRef id)) m :=
  .bind (.updateStore _ (.newClass fun p hp => hm p.2.decl (methodTable_mem hp).1)) fun _ _ _ =>
    .assignIn x _ _ hx

theorem keeps_declareClass {x : Token} (superclass : Option ClassId)
    {methods : List (FunDecl (Stmt ν))} (hx : C.name x.lexeme) (hm : ∀ f ∈ methods, C.decl f) :
    Keeps C (declareClass x superclass methods) m := by
  refine .bind (.define _ hx) fun _ _ _ => .bind (.read _) fun env m₂ _ => ?_
  cases superclass with
  | some p => exact .bind (.updateStore _ (.parent env p)) fun closure _ _ => keeps_addClass _ env closure hx hm
  | none => exact .bind (.pure env) fun closure _ _ => keeps_addClass _ env closure hx hm

/-- A class declaration whose superclass is known. -/
theorem keeps_declaring {x : Token} (superclass : Option ClassId) {methods : List (FunDecl (Stmt ν))}
    (hx : C.name x.lexeme) (hm : ∀ f ∈ methods, C.decl f) :
    Keeps C (do declareClass x superclass methods; return Flow.normal) m :=
  .bind (keeps_declareClass superclass hx hm) fun _ _ _ => .pure _

end

/-! ## Runs -/

/-- What the evaluator does with some fuel, whatever code it is asked to run. -/
structure KeptRuns (C : Code ν) (d : Distances ν) (n : Nat) : Prop where
  eval : ∀ e m, C.expr e → Keeps C (Exec.eval d n e) m
  evalAll : ∀ es m, (∀ e ∈ es, C.expr e) → Keeps C (Exec.evalAll d n es) m
  invoke : ∀ paren callee args m, Keeps C (Exec.invoke d n paren callee args) m
  apply : ∀ f args m, C.callable f → Keeps C (Exec.apply d n f args) m
  applyFunction : ∀ f args m, C.decl f.decl → Keeps C (Exec.applyFunction d n f args) m
  exec : ∀ t m, C.stmt t → Keeps C (Exec.exec d n t) m
  execAll : ∀ ts m, (∀ t ∈ ts, C.stmt t) → Keeps C (Exec.execAll d n ts) m

section
variable {C : Code ν} {d : Distances ν} {n : Nat}

theorem kept_eval (ih : KeptRuns C d n) (e : Expr ν) (m : Machine ν) (he : C.expr e) :
    Keeps C (eval d (n + 1) e) m := by
  cases e with
  | assign k x e =>
    rw [eval]
    obtain ⟨hx, he⟩ := C.assign he
    refine .bind (ih.eval e m he) fun v m₁ _ => ?_
    exact .bind (keeps_assignName _ v hx) fun _ _ _ => .pure v
  | binary l op r =>
    rw [eval]
    obtain ⟨hl, hr⟩ := C.binary he
    exact .bind (ih.eval l m hl) fun _ m₁ _ => .bind (ih.eval r m₁ hr) fun _ _ _ => .liftAt _ _
  | call f paren args =>
    rw [eval]
    obtain ⟨hf, hargs⟩ := C.call he
    exact .bind (ih.eval f m hf) fun v m₁ _ => .bind (ih.evalAll args m₁ hargs) fun vs m₂ _ =>
      ih.invoke paren v vs m₂
  | get o x =>
    rw [eval]
    refine .bind (ih.eval o m (C.get he)) fun v m₁ _ => ?_
    cases v with
    | objectRef i => exact keeps_getProperty i x
    | _ => exact .throwAt _ _
  | grouping e =>
    rw [eval]
    exact ih.eval e m (C.grouping he)
  | literal v =>
    rw [eval]
    exact .pure _
  | logical l op r =>
    rw [eval]
    obtain ⟨hl, hr⟩ := C.logical he
    refine .bind (ih.eval l m hl) fun a m₁ _ => ?_
    by_cases ha : a.truthy = op.is .orKw
    · rw [if_pos ha]
      exact .pure a
    · rw [if_neg ha]
      exact ih.eval r m₁ hr
  | set o x e =>
    rw [eval]
    obtain ⟨ho, hv⟩ := C.set he
    refine .bind (ih.eval o m ho) fun v m₁ _ => ?_
    cases v with
    | objectRef i =>
      exact .bind (ih.eval e m₁ hv) fun v _ _ =>
        .bind (.updateStore _ (.field i x.lexeme v)) fun _ _ _ => .pure v
    | _ => exact .throwAt _ _
  | superRef k kw x =>
    rw [eval]
    exact keeps_superMethod _ kw x
  | thisRef k kw =>
    rw [eval]
    exact keeps_readName _ kw
  | unary op e =>
    rw [eval]
    exact .bind (ih.eval e m (C.unary he)) fun _ _ _ => .liftAt _ _
  | «variable» k x =>
    rw [eval]
    exact keeps_readName _ x

theorem kept_evalAll (ih : KeptRuns C d n) (es : List (Expr ν)) (m : Machine ν)
    (hes : ∀ e ∈ es, C.expr e) : Keeps C (evalAll d (n + 1) es) m := by
  cases es with
  | nil =>
    rw [evalAll]
    exact .pure []
  | cons e es =>
    rw [evalAll]
    refine .bind (ih.eval e m (hes e (by simp))) fun v m₁ _ => ?_
    exact .bind (ih.evalAll es m₁ fun e he => hes e (List.mem_cons_of_mem _ he)) fun _ _ _ => .pure _

theorem kept_invoke (ih : KeptRuns C d n) (paren : Token) (callee : Value) (args : List Value)
    (m : Machine ν) : Keeps C (invoke d (n + 1) paren callee args) m := by
  rw [invoke]
  intro hs
  refine Keeps.bind (.read _) (fun found m₁ hread => ?_) hs
  obtain ⟨hf, rfl⟩ := read_eq_done.1 hread
  cases found with
  | none => exact .throwAt _ _
  | some f =>
    simp only
    split
    · exact .throwAt _ _
    · refine .bind (.read _) fun depth m₁ hd => ?_
      cases hd
      split
      · exact .throwAt _ _
      · exact .deeper (ih.apply f args _ (hs.callable hf))

theorem kept_apply (ih : KeptRuns C d n) (f : Callable ν) (args : List Value) (m : Machine ν)
    (hf : C.callable f) : Keeps C (apply d (n + 1) f args) m := by
  cases f with
  | native f =>
    cases f
    rw [apply]
    exact .of_leads rfl ⟨rfl, rfl, .refl, .empty, by simp⟩
  | function f =>
    rw [apply]
    exact ih.applyFunction f args m hf
  | constructor i init =>
    cases init with
    | none =>
      rw [apply]
      exact .bind (.updateStore _ (.object _)) fun _ _ _ => .bind (.pure ()) fun _ _ _ => .pure _
    | some f =>
      rw [apply]
      refine .bind (.updateStore _ (.object _)) fun object m₁ _ => ?_
      refine .bind (.updateStore _ (.receiver f object)) fun bound m₂ hb => ?_
      cases hb
      exact .bind (ih.applyFunction _ args _ (hf f rfl)) fun _ _ _ => .pure _

theorem contains_insertAll {pairs : List (String × Value)} {t : Table Value} {x : String}
    (h : (t.insertAll pairs).contains x = true) : t.contains x = true ∨ x ∈ pairs.map Prod.fst := by
  induction pairs generalizing t with
  | nil => exact .inl h
  | cons p rest ih =>
    rcases ih h with ht | hx
    · by_cases hxp : x = p.1
      · exact .inr (by simp [hxp])
      · left
        simpa [Table.contains, hxp] using ht
    · exact .inr (List.mem_cons_of_mem _ hx)

/-- The frame of a call holds parameters only. -/
theorem name_of_locals {f : Lox.Function ν} {args : List Value} (hf : C.decl f.decl) (x : String)
    (hx : (f.locals args).contains x = true) : C.name x := by
  rcases contains_insertAll hx with h | h
  · cases h
  · obtain ⟨p, hp, rfl⟩ := List.mem_map.1 h
    obtain ⟨q, hq, he⟩ := List.mem_map.1 (List.of_mem_zip hp).1
    rw [← he]
    exact hf.1 q hq

theorem kept_applyFunction (ih : KeptRuns C d n) (f : Lox.Function ν) (args : List Value)
    (m : Machine ν) (hf : C.decl f.decl) : Keeps C (applyFunction d (n + 1) f args) m := by
  rw [applyFunction]
  refine .bind (.updateStore _ (.frame f.closure (name_of_locals hf))) fun frame m₁ _ => ?_
  refine .bind (.inFrame (ih.execAll f.decl.body _ hf.2)) fun flow m₂ _ => ?_
  split
  · exact .bind (.read _) fun _ _ _ => .liftAt _ _
  · exact .pure _

theorem kept_classDecl (ih : KeptRuns C d n) (x : Token) (parent : Option (Expr ν))
    (methods : List (FunDecl (Stmt ν))) (m : Machine ν) (ht : C.stmt (.classDecl x parent methods)) :
    Keeps C (exec d (n + 1) (.classDecl x parent methods)) m := by
  obtain ⟨hx, hparent, hmethods⟩ := C.classDecl ht
  cases parent with
  | none =>
    rw [exec]
    exact .bind (.pure none) fun superclass _ _ => keeps_declaring superclass hx hmethods
  | some e =>
    rw [exec]
    refine .bind (ih.eval e m (hparent e rfl)) fun v m₁ _ => ?_
    cases v with
    | classRef p => exact .bind (.pure (some p)) fun superclass _ _ => keeps_declaring superclass hx hmethods
    | _ => exact .bind (.throwAt _ _) fun superclass _ _ => keeps_declaring superclass hx hmethods

theorem kept_exec (ih : KeptRuns C d n) (t : Stmt ν) (m : Machine ν) (ht : C.stmt t) :
    Keeps C (exec d (n + 1) t) m := by
  cases t with
  | block body =>
    rw [exec]
    refine .bind (.read _) fun env m₁ _ => ?_
    refine .bind (.updateStore _ (.block env)) fun frame m₂ _ => ?_
    exact .inFrame (ih.execAll body _ (C.block ht))
  | classDecl x parent methods => exact kept_classDecl ih x parent methods m ht
  | expression e =>
    rw [exec]
    exact .bind (ih.eval e m (C.expression ht)) fun _ _ _ => .pure _
  | function f =>
    rw [exec]
    obtain ⟨hx, hf⟩ := C.function ht
    exact .bind (.read _) fun env m₁ _ => .bind (.updateStore _ (.function hf)) fun v _ _ =>
      .bind (.define v hx) fun _ _ _ => .pure _
  | conditional c s t =>
    obtain ⟨hc, hs, ht⟩ := C.conditional ht
    cases t with
    | none =>
      rw [exec]
      refine .bind (ih.eval c m hc) fun v m₁ _ => ?_
      split
      · exact ih.exec s m₁ hs
      · exact .pure _
    | some t =>
      rw [exec]
      refine .bind (ih.eval c m hc) fun v m₁ _ => ?_
      split
      · exact ih.exec s m₁ hs
      · exact ih.exec t m₁ (ht t rfl)
  | print kw e =>
    rw [exec]
    exact .bind (ih.eval e m (C.print ht)) fun v _ _ => .bind (.read _) fun _ _ _ =>
      .bind (.printLine kw _) fun _ _ _ => .pure _
  | returning kw e =>
    cases e with
    | none =>
      rw [exec]
      exact .pure _
    | some e =>
      rw [exec]
      exact .bind (ih.eval e m (C.returning ht e rfl)) fun _ _ _ => .pure _
  | varDecl x e =>
    obtain ⟨hx, he⟩ := C.varDecl ht
    cases e with
    | none =>
      rw [exec]
      exact .bind (.define _ hx) fun _ _ _ => .pure _
    | some e =>
      rw [exec]
      exact .bind (ih.eval e m (he e rfl)) fun v _ _ => .bind (.define v hx) fun _ _ _ => .pure _
  | loop c s =>
    obtain ⟨hc, hs⟩ := C.loop ht
    rw [exec]
    refine .bind (ih.eval c m hc) fun v m₁ _ => ?_
    split
    · refine .bind (ih.exec s m₁ hs) fun flow m₂ _ => ?_
      cases flow with
      | normal => exact ih.exec (.loop c s) m₂ ht
      | returned v => exact .pure _
    · exact .pure _

theorem kept_execAll (ih : KeptRuns C d n) (ts : List (Stmt ν)) (m : Machine ν)
    (hts : ∀ t ∈ ts, C.stmt t) : Keeps C (execAll d (n + 1) ts) m := by
  cases ts with
  | nil =>
    rw [execAll]
    exact .pure _
  | cons t ts =>
    rw [execAll]
    refine .bind (ih.exec t m (hts t (by simp))) fun flow m₁ _ => ?_
    cases flow with
    | normal => exact ih.execAll ts m₁ fun t ht => hts t (List.mem_cons_of_mem _ ht)
    | returned v => exact .pure _

end

theorem keptRuns (C : Code ν) (d : Distances ν) (n : Nat) : KeptRuns C d n := by
  induction n with
  | zero =>
    constructor <;> intros <;> intro _ m' h <;> cases h
  | succ n ih =>
    exact ⟨kept_eval ih, kept_evalAll ih, kept_invoke ih, kept_apply ih, kept_applyFunction ih,
      kept_exec ih, kept_execAll ih⟩

/-- A program leads the machine from one statement to the next. -/
theorem keeps_interpret (C : Code ν) (d : Distances ν) (n : Nat) {tree : List (Stmt ν)}
    (ht : ∀ t ∈ tree, C.stmt t) (m : Machine ν) : Keeps C (interpret d n tree) m := by
  induction tree generalizing m with
  | nil => exact .pure ()
  | cons t ts ih =>
    rw [interpret]
    refine .bind ((keptRuns C d n).exec t m (ht t (by simp))) fun _ m₁ _ => ?_
    exact ih (fun t ht' => ht t (List.mem_cons_of_mem _ ht')) m₁

end Exec

/-! ## Moments -/

section
variable {C : Code ν} {d : Distances ν} {n : Nat} {T : Task ν} {m m' : Machine ν}

/-- A task leads to where it leaves the machine. -/
theorem leads_of_leaves (hT : C.task T) (hs : m.store.Holds C) (h : T.leaves d n m = some m') :
    Leads C m m' := by
  have hk := Exec.keptRuns C d n
  cases T with
  | eval e => exact hk.eval e m hT hs m' h
  | evalAll es => exact hk.evalAll es m hT hs m' h
  | invoke paren callee args => exact hk.invoke paren callee args m hs m' h
  | apply f args => exact hk.apply f args m hT hs m' h
  | applyFunction f args => exact hk.applyFunction f args m hT hs m' h
  | exec t => exact hk.exec t m hT hs m' h
  | execAll ts => exact hk.execAll ts m hT hs m' h

end

end Lox
