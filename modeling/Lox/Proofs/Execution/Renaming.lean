import Lox.Proofs.Execution.Changes
import Lox.Proofs.Tree.Renaming

/-!
# Running renamed trees

A run looks at a mark only to find its distance, and at a line only to blame a token. So running a
renamed tree on a renamed machine gives the renamed result: `renamedRuns`, one lemma for each function
of the evaluator, each by the lemmas of its steps (`Commutes`).
-/

namespace Lox

/-- The values of a table under a function. -/
def Table.map (h : α → β) (t : Table α) : Table β := ⟨t.entries.map fun p => (p.1, h p.2)⟩

section
variable (ρ : Renaming ν ν')

def Function.rename (f : Function ν) : Function ν' :=
  ⟨Stmt.renameFun ρ f.decl, f.closure, f.isInitializer⟩

def Class.rename (c : Class ν) : Class ν' := ⟨c.name, c.superclass, c.methods.map (·.rename ρ)⟩

def Store.rename (s : Store ν) : Store ν' :=
  ⟨s.frames, s.functions.map (·.rename ρ), s.classes.map (·.rename ρ), s.objects⟩

def Machine.rename (m : Machine ν) : Machine ν' :=
  { store := m.store.rename ρ, env := m.env, depth := m.depth, output := m.output, clock := m.clock }

def Callable.rename : Callable ν → Callable ν'
  | .native f => .native f
  | .function f => .function (f.rename ρ)
  | .constructor i initializer => .constructor i (initializer.map (·.rename ρ))

def RuntimeError.moved (g : Nat → Nat) (e : RuntimeError) : RuntimeError := ⟨e.blamed.moved g, e.cause⟩

def Result.rename (h : α → β) : Result ν α → Result ν' β
  | .done a m => .done (h a) (m.rename ρ)
  | .failed e m => .failed (e.moved ρ.line) (m.rename ρ)
  | .outOfFuel => .outOfFuel

end

/-! ## Tables -/

namespace Table

variable (h : α → β)

theorem lookup_map (l : List (String × α)) (x : String) :
    (l.map fun p => (p.1, h p.2)).lookup x = (l.lookup x).map h := by
  induction l with
  | nil => rfl
  | cons p rest ih =>
    obtain ⟨y, a⟩ := p
    simp only [List.map_cons, List.lookup_cons, ih]
    split <;> rfl

theorem get?_map (t : Table α) (x : String) : (t.map h).get? x = (t.get? x).map h :=
  lookup_map h t.entries x

theorem insertEntry_map (x : String) (a : α) (l : List (String × α)) :
    insertEntry x (h a) (l.map fun p => (p.1, h p.2)) =
      (insertEntry x a l).map fun p => (p.1, h p.2) := by
  induction l with
  | nil => rfl
  | cons p rest ih =>
    simp only [List.map_cons, insertEntry, ih]
    split <;> rfl

theorem insertAll_map (t : Table α) (pairs : List (String × α)) :
    (t.map h).insertAll (pairs.map fun p => (p.1, h p.2)) = (t.insertAll pairs).map h := by
  induction pairs generalizing t with
  | nil => rfl
  | cons p rest ih =>
    have hone : (t.map h).insert p.1 (h p.2) = (t.insert p.1 p.2).map h :=
      congrArg Table.mk (insertEntry_map h p.1 p.2 t.entries)
    simp only [insertAll, List.map_cons, List.foldl_cons, hone]
    exact ih (t.insert p.1 p.2)

end Table

/-! ## The store -/

section
variable (ρ : Renaming ν ν') (s : Store ν)

theorem renameFun_params (f : FunDecl (Stmt ν)) :
    (Stmt.renameFun ρ f).params.map Token.lexeme = f.params.map Token.lexeme := by
  obtain ⟨x, params, body⟩ := f
  simp [Stmt.renameFun, Function.comp_def]

theorem renameFun_name (f : FunDecl (Stmt ν)) : (Stmt.renameFun ρ f).name = f.name.moved ρ.line := by
  cases f
  rfl

theorem renameFun_body (f : FunDecl (Stmt ν)) : (Stmt.renameFun ρ f).body = Stmt.renameAll ρ f.body := by
  cases f
  rfl

@[simp] theorem Function.rename_arity (f : Function ν) : (f.rename ρ).arity = f.arity := by
  have h := congrArg List.length (renameFun_params ρ f.decl)
  simpa [Function.arity, Function.rename] using h

@[simp] theorem Callable.rename_arity (f : Callable ν) : (f.rename ρ).arity = f.arity := by
  cases f with
  | native f => rfl
  | function f => exact f.rename_arity ρ
  | constructor i initializer => cases initializer <;> simp [Callable.rename, Callable.arity]

theorem Store.methodWithin?_rename (x : String) (fuel : Nat) (i : ClassId) :
    (s.rename ρ).methodWithin? x fuel i = (s.methodWithin? x fuel i).map (·.rename ρ) := by
  induction fuel generalizing i with
  | zero => rfl
  | succ n ih =>
    simp only [methodWithin?, Store.rename, Array.getElem?_map]
    cases hc : s.classes[i]? with
    | none => rfl
    | some c =>
      simp only [Option.map_some, Option.bind_some, Class.rename, Table.get?_map]
      cases c.methods.get? x with
      | some f => rfl
      | none =>
        cases c.superclass with
        | none => rfl
        | some j => exact ih j

theorem Store.method?_rename (i : ClassId) (x : String) :
    (s.rename ρ).method? i x = (s.method? i x).map (·.rename ρ) := by
  have hsize : (s.rename ρ).classes.size = s.classes.size := by simp [Store.rename]
  rw [method?, hsize]
  exact s.methodWithin?_rename ρ x _ i

theorem Callable.of?_rename (v : Value) :
    Callable.of? (s.rename ρ) v = (Callable.of? s v).map (·.rename ρ) := by
  cases v with
  | functionRef i =>
    simp only [Callable.of?, Store.rename, Array.getElem?_map]
    cases s.functions[i]? <;> rfl
  | classRef i => simp [Callable.of?, s.method?_rename ρ, Callable.rename]
  | _ => rfl

theorem Store.className_rename (i : ClassId) : (s.rename ρ).className i = s.className i := by
  simp only [className, Store.rename, Array.getElem?_map]
  cases s.classes[i]? <;> rfl

theorem Store.text_rename (v : Value) : (s.rename ρ).text v = s.text v := by
  cases v with
  | functionRef i =>
    simp only [text, Store.rename, Array.getElem?_map]
    cases s.functions[i]? with
    | none => rfl
    | some f => simp [Function.name, Function.rename, renameFun_name]
  | classRef i => exact s.className_rename ρ i
  | objectRef i =>
    simp only [text, Store.className_rename]
    rfl
  | _ => rfl

/-- A property under a renaming. -/
def Store.Property.rename : Store.Property ν → Store.Property ν'
  | .field v => .field v
  | .method f => .method (f.rename ρ)
  | .missing => .missing

theorem Store.property_rename (i : ObjectId) (x : String) :
    (s.rename ρ).property i x = (s.property i x).rename ρ := by
  have hobjects : (s.rename ρ).objects = s.objects := rfl
  unfold property
  rw [hobjects]
  cases s.objects[i]? with
  | none => rfl
  | some o =>
    simp only
    cases o.fields.get? x with
    | some v => rfl
    | none =>
      simp only [s.method?_rename ρ]
      cases s.method? o.classId x <;> rfl

end

/-! ## The marks of a store -/

/-- Trees all of whose marks are among some. -/
def Code.marked (P : ν → Prop) : Code ν where
  name _ := True
  expr e := ∀ k ∈ e.marks, P k
  stmt t := ∀ k ∈ t.marks, P k
  assign h := ⟨trivial, (List.forall_mem_append.1 h).1⟩
  binary h := List.forall_mem_append.1 h
  call h := by
    obtain ⟨hf, hargs⟩ := List.forall_mem_append.1 h
    exact ⟨hf, fun e he k hk => hargs k (Expr.mem_marksAll.2 ⟨e, he, hk⟩)⟩
  get h := h
  grouping h := h
  logical h := List.forall_mem_append.1 h
  set h := List.forall_mem_append.1 h
  unary h := h
  block h t ht k hk := h k (Stmt.mem_marksAll.2 ⟨t, ht, hk⟩)
  classDecl h := by
    obtain ⟨hparent, hmethods⟩ := List.forall_mem_append.1 h
    refine ⟨trivial, ?_, fun f hf => ⟨fun _ _ => trivial, fun t ht k hk => ?_⟩⟩
    · rintro e ⟨⟩
      exact hparent
    · exact hmethods k (Stmt.mem_marksMethods.2 ⟨f, hf, Stmt.mem_marksFun.2 ⟨t, ht, hk⟩⟩)
  expression h := h
  function h := ⟨trivial, fun _ _ => trivial, fun t ht k hk => h k (Stmt.mem_marksFun.2 ⟨t, ht, hk⟩)⟩
  conditional h := by
    obtain ⟨hcs, ht⟩ := List.forall_mem_append.1 h
    obtain ⟨hc, hs⟩ := List.forall_mem_append.1 hcs
    refine ⟨hc, hs, ?_⟩
    rintro u ⟨⟩
    exact ht
  print h := h
  returning h := by
    rintro u ⟨⟩
    exact h
  varDecl h := by
    refine ⟨trivial, ?_⟩
    rintro u ⟨⟩
    exact h
  loop h := List.forall_mem_append.1 h

section
variable {P : ν → Prop}

theorem Code.decl_marked {f : FunDecl (Stmt ν)} (h : (Code.marked P).decl f) : ∀ k ∈ Stmt.marksFun f, P k := by
  intro k hk
  obtain ⟨t, ht, hk⟩ := Stmt.mem_marksFun.1 hk
  exact h.2 t ht k hk

theorem Store.Holds.weaken {Q : ν → Prop} {s : Store ν} (h : s.Holds (.marked P)) (hq : ∀ k, P k → Q k) :
    s.Holds (.marked Q) := by
  have hdecl : ∀ f, (Code.marked P).decl f → (Code.marked Q).decl f :=
    fun f hf => ⟨fun _ _ => trivial, fun t ht k hk => hq k (hf.2 t ht k hk)⟩
  exact ⟨fun i f hf => hdecl _ (h.functions i f hf), fun i c hc p hp => hdecl _ (h.methods i c hc p hp)⟩

/-- A renaming shows on a store only at the marks that are there. -/
theorem Store.rename_congr {f f' : ν → ν'} (g : Nat → Nat) {s : Store ν} (h : s.Holds (.marked P))
    (hf : ∀ k, P k → f k = f' k) : s.rename ⟨f, g⟩ = s.rename ⟨f', g⟩ := by
  have hfun : ∀ a : Function ν, (Code.marked P).decl a.decl → a.rename ⟨f, g⟩ = a.rename ⟨f', g⟩ := by
    intro a ha
    rw [Function.rename, Stmt.renameFun_congr g a.decl fun k hk => hf k (Code.decl_marked ha k hk)]
    rfl
  have hfunctions : s.functions.map (·.rename ⟨f, g⟩) = s.functions.map (·.rename ⟨f', g⟩) := by
    refine Array.map_congr_left fun a ha => ?_
    obtain ⟨i, hi⟩ := Array.getElem?_of_mem ha
    exact hfun a (h.functions i a hi)
  have hclasses : s.classes.map (·.rename ⟨f, g⟩) = s.classes.map (·.rename ⟨f', g⟩) := by
    refine Array.map_congr_left fun c hc => ?_
    obtain ⟨i, hi⟩ := Array.getElem?_of_mem hc
    have hentries : c.methods.map (·.rename ⟨f, g⟩) = c.methods.map (·.rename ⟨f', g⟩) := by
      refine congrArg Table.mk (List.map_congr_left fun p hp => ?_)
      exact congrArg (Prod.mk p.1) (hfun p.2 (h.methods i c hi p hp))
    rw [Class.rename, hentries]
    rfl
  rw [Store.rename, hfunctions, hclasses]
  rfl

end

/-! ## Steps -/

namespace Exec

/-- On renamed machines the second step does what the first one does. -/
def Commutes (ρ : Renaming ν ν') (h : α → β) (x : Exec ν α) (y : Exec ν' β) : Prop :=
  ∀ m, y (m.rename ρ) = (x m).rename ρ h

namespace Commutes

variable {ρ : Renaming ν ν'} {h : α → β} {h' : γ → δ}

theorem pure (a : α) : Commutes ρ h (Pure.pure a) (Pure.pure (h a)) := fun _ => rfl

theorem bind {x : Exec ν α} {y : Exec ν' β} {f : α → Exec ν γ} {k : β → Exec ν' δ}
    (hx : Commutes ρ h x y) (hf : ∀ a, Commutes ρ h' (f a) (k (h a))) :
    Commutes ρ h' (x >>= f) (y >>= k) := by
  intro m
  rw [bind_apply, bind_apply, hx m]
  cases x m with
  | done a m₁ => exact hf a m₁
  | failed e m₁ => rfl
  | outOfFuel => rfl

theorem ite {c : Prop} [Decidable c] {x x' : Exec ν α} {y y' : Exec ν' β} (hx : Commutes ρ h x y)
    (hx' : Commutes ρ h x' y') : Commutes ρ h (if c then x else x') (if c then y else y') := by
  split
  · exact hx
  · exact hx'

theorem throwAt (t : Token) (cause : RuntimeFault) :
    Commutes ρ h (Exec.throwAt t cause) (Exec.throwAt (t.moved ρ.line) cause) := fun _ => rfl

theorem liftAt (t : Token) (r : Except RuntimeFault α) :
    Commutes ρ id (Exec.liftAt t r) (Exec.liftAt (t.moved ρ.line) r) := by
  cases r with
  | ok a => exact pure a
  | error cause => exact throwAt t cause

theorem read {f : Machine ν → α} {k : Machine ν' → β} (hf : ∀ m, k (m.rename ρ) = h (f m)) :
    Commutes ρ h (Exec.read f) (Exec.read k) := by
  intro m
  simp [Exec.read, Result.rename, hf]

theorem updateStore {f : Store ν → α × Store ν} {k : Store ν' → β × Store ν'}
    (hf : ∀ s, k (s.rename ρ) = (h (f s).1, (f s).2.rename ρ)) :
    Commutes ρ h (Exec.updateStore f) (Exec.updateStore k) := by
  intro m
  simp only [Exec.updateStore, Machine.rename, hf]
  rfl

theorem assignIn (t : Token) (locate : Frames → Except RuntimeFault FrameId) (v : Value) :
    Commutes ρ id (Exec.assignIn t locate v) (Exec.assignIn (t.moved ρ.line) locate v) := by
  intro m
  have hframes : (m.rename ρ).store.frames = m.store.frames := rfl
  simp only [Exec.assignIn, hframes]
  cases locate m.store.frames <;> rfl

theorem define (x : String) (v : Value) : Commutes ρ id (Exec.define x v) (Exec.define x v) :=
  fun _ => rfl

theorem newFrame (e : FrameId) (names : Table Value) :
    Commutes ρ id (Exec.newFrame e names) (Exec.newFrame e names) := fun _ => rfl

theorem newFunction (f : Lox.Function ν) :
    Commutes ρ id (Exec.newFunction f) (Exec.newFunction (f.rename ρ)) :=
  .updateStore fun s => by simp [Store.addFunction, Store.rename]

theorem bindMethod (f : Lox.Function ν) (this : ObjectId) :
    Commutes ρ (·.rename ρ) (Exec.bindMethod f this) (Exec.bindMethod (f.rename ρ) this) :=
  fun _ => rfl

theorem printLine (kw : Token) (text : String) :
    Commutes ρ id (Exec.printLine kw text) (Exec.printLine (kw.moved ρ.line) text) := by
  intro m
  have houtput : (m.rename ρ).output = m.output := rfl
  simp only [Exec.printLine, houtput]
  split <;> rfl

theorem inFrame {x : Exec ν α} {y : Exec ν' β} (frame : FrameId) (hx : Commutes ρ h x y) :
    Commutes ρ h (Exec.inFrame frame x) (Exec.inFrame frame y) := by
  intro m
  have hm := hx { m with env := frame }
  simp only [Exec.inFrame]
  have henv : { m.rename ρ with env := frame } = ({ m with env := frame } : Machine ν).rename ρ := rfl
  rw [henv, hm]
  cases x { m with env := frame } <;> rfl

theorem deeper {x : Exec ν α} {y : Exec ν' β} (hx : Commutes ρ h x y) :
    Commutes ρ h (Exec.deeper x) (Exec.deeper y) := by
  intro m
  have hm := hx { m with depth := m.depth + 1 }
  simp only [Exec.deeper]
  have hdepth : { m.rename ρ with depth := (m.rename ρ).depth + 1 } =
      ({ m with depth := m.depth + 1 } : Machine ν).rename ρ := rfl
  rw [hdepth, hm]
  cases x { m with depth := m.depth + 1 } <;> rfl

end Commutes

/-! ## Names, properties and classes -/

section
variable {ρ : Renaming ν ν'}

theorem readName_renamed (distance : Option Nat) (x : Token) :
    Commutes ρ id (readName distance x) (readName distance (x.moved ρ.line)) := by
  refine .bind (h := id) (.read fun _ => rfl) fun frames => ?_
  cases distance with
  | some j => exact .bind (h := id) (.read fun _ => rfl) fun env => .liftAt x _
  | none => exact .liftAt x _

theorem assignName_renamed (distance : Option Nat) (x : Token) (v : Value) :
    Commutes ρ id (assignName distance x v) (assignName distance (x.moved ρ.line) v) := by
  refine .bind (h := id) (.read fun _ => rfl) fun env => ?_
  cases distance with
  | some j => exact .assignIn x _ v
  | none => exact .assignIn x _ v

theorem getProperty_renamed (i : ObjectId) (x : Token) :
    Commutes ρ id (getProperty i x) (getProperty i (x.moved ρ.line)) := by
  refine .bind (.read fun m => m.store.property_rename ρ i x.lexeme) fun property => ?_
  cases property with
  | field v => exact .pure v
  | method f => exact .bind (.bindMethod f i) fun bound => .newFunction bound
  | missing => exact .throwAt x _

theorem superMethod_renamed (distance : Option Nat) (kw x : Token) :
    Commutes ρ id (superMethod distance kw x)
      (superMethod distance (kw.moved ρ.line) (x.moved ρ.line)) := by
  cases distance with
  | none => exact .throwAt kw _
  | some j =>
    refine .bind (h := id) (.read fun _ => rfl) fun env => .bind (h := id) (.read fun _ => rfl) fun frames => ?_
    refine .bind (.liftAt kw _) fun v => ?_
    cases v with
    | classRef p =>
      refine .bind (.liftAt (.ident "this" kw.line) _) fun u => ?_
      cases u with
      | objectRef object =>
        refine .bind (.read fun m => m.store.method?_rename ρ p x.lexeme) fun found => ?_
        cases found with
        | some f => exact .bind (.bindMethod f object) fun bound => .newFunction bound
        | none => exact .throwAt x _
      | _ => exact .throwAt kw _
    | _ => exact .throwAt kw _

theorem methodTable_renamed (closure : FrameId) (methods : List (FunDecl (Stmt ν))) :
    methodTable closure (Stmt.renameMethods ρ methods) =
      (methodTable closure methods).map (·.rename ρ) := by
  rw [methodTable, methodTable, ← Table.insertAll_map, Stmt.renameMethods_eq]
  simp only [List.map_map, Function.comp_def, renameFun_name, Token.moved_lexeme]
  rfl

theorem declareClass_renamed (x : Token) (superclass : Option ClassId)
    (methods : List (FunDecl (Stmt ν))) :
    Commutes ρ id (declareClass x superclass methods)
      (declareClass (x.moved ρ.line) superclass (Stmt.renameMethods ρ methods)) := by
  have hclass : ∀ env closure, Commutes ρ id (do
      let id ← updateStore (·.addClass ⟨x.lexeme, superclass, methodTable closure methods⟩)
      assignIn x (·.locate env x.lexeme) (.classRef id)) (do
      let id ← updateStore (·.addClass ⟨x.lexeme, superclass,
        methodTable closure (Stmt.renameMethods ρ methods)⟩)
      assignIn (x.moved ρ.line) (·.locate env x.lexeme) (.classRef id)) := by
    intro env closure
    refine .bind (h := id) (.updateStore fun s => ?_) fun i => .assignIn x _ _
    simp [Store.addClass, Store.rename, Class.rename, methodTable_renamed]
  refine .bind (.define _ _) fun _ => .bind (h := id) (.read fun _ => rfl) fun env => ?_
  cases superclass with
  | some p => exact .bind (.newFrame env _) fun closure => hclass env closure
  | none => exact .bind (h := id) (.pure env) fun closure => hclass env closure

theorem superclassToken_renamed (x : Token) (e : Expr ν) :
    superclassToken (x.moved ρ.line) (e.rename ρ) = (superclassToken x e).moved ρ.line := by
  cases e <;> rfl

end

/-! ## Runs -/

/-- What the evaluator does with some fuel, whatever it is asked to run. -/
structure RenamedRuns (ρ : Renaming ν ν') (d : Distances ν) (d' : Distances ν') (n : Nat) : Prop where
  eval : ∀ e, Commutes ρ id (Exec.eval d n e) (Exec.eval d' n (e.rename ρ))
  evalAll : ∀ es, Commutes ρ id (Exec.evalAll d n es) (Exec.evalAll d' n (Expr.renameAll ρ es))
  invoke : ∀ paren callee args, Commutes ρ id (Exec.invoke d n paren callee args)
    (Exec.invoke d' n (paren.moved ρ.line) callee args)
  apply : ∀ f args, Commutes ρ id (Exec.apply d n f args) (Exec.apply d' n (f.rename ρ) args)
  applyFunction : ∀ f args,
    Commutes ρ id (Exec.applyFunction d n f args) (Exec.applyFunction d' n (f.rename ρ) args)
  exec : ∀ t, Commutes ρ id (Exec.exec d n t) (Exec.exec d' n (t.rename ρ))
  execAll : ∀ ts, Commutes ρ id (Exec.execAll d n ts) (Exec.execAll d' n (Stmt.renameAll ρ ts))

section
variable {ρ : Renaming ν ν'} {d : Distances ν} {d' : Distances ν'} {n : Nat}

theorem eval_renamed (hd : ∀ k, d' (ρ.mark k) = d k) (ih : RenamedRuns ρ d d' n) (e : Expr ν) :
    Commutes ρ id (eval d (n + 1) e) (eval d' (n + 1) (e.rename ρ)) := by
  cases e with
  | assign k x e =>
    rw [Expr.rename, eval, eval, hd]
    exact .bind (ih.eval e) fun v => .bind (assignName_renamed _ x v) fun _ => .pure v
  | binary l op r =>
    rw [Expr.rename, eval, eval]
    exact .bind (ih.eval l) fun a => .bind (ih.eval r) fun b => .liftAt op _
  | call f paren args =>
    rw [Expr.rename, eval, eval]
    exact .bind (ih.eval f) fun v => .bind (ih.evalAll args) fun vs => ih.invoke paren v vs
  | get o x =>
    rw [Expr.rename, eval, eval]
    refine .bind (ih.eval o) fun v => ?_
    cases v with
    | objectRef i => exact getProperty_renamed i x
    | _ => exact .throwAt x _
  | grouping e =>
    rw [Expr.rename, eval, eval]
    exact ih.eval e
  | literal v =>
    rw [Expr.rename, eval, eval]
    exact .pure _
  | logical l op r =>
    rw [Expr.rename, eval, eval]
    exact .bind (ih.eval l) fun a => .ite (.pure a) (ih.eval r)
  | set o x e =>
    rw [Expr.rename, eval, eval]
    refine .bind (ih.eval o) fun v => ?_
    cases v with
    | objectRef i =>
      refine .bind (ih.eval e) fun v => ?_
      exact .bind (h := id) (.updateStore fun s => rfl) fun _ => .pure v
    | _ => exact .throwAt x _
  | superRef k kw x =>
    rw [Expr.rename, eval, eval, hd]
    exact superMethod_renamed _ kw x
  | thisRef k kw =>
    rw [Expr.rename, eval, eval, hd]
    exact readName_renamed _ kw
  | unary op e =>
    rw [Expr.rename, eval, eval]
    exact .bind (ih.eval e) fun a => .liftAt op _
  | «variable» k x =>
    rw [Expr.rename, eval, eval, hd]
    exact readName_renamed _ x

theorem evalAll_renamed (ih : RenamedRuns ρ d d' n) (es : List (Expr ν)) :
    Commutes ρ id (evalAll d (n + 1) es) (evalAll d' (n + 1) (Expr.renameAll ρ es)) := by
  cases es with
  | nil =>
    rw [Expr.renameAll, evalAll, evalAll]
    exact .pure _
  | cons e es =>
    rw [Expr.renameAll, evalAll, evalAll]
    exact .bind (ih.eval e) fun v => .bind (ih.evalAll es) fun vs => .pure _

theorem invoke_renamed (ih : RenamedRuns ρ d d' n) (paren : Token) (callee : Value) (args : List Value) :
    Commutes ρ id (invoke d (n + 1) paren callee args)
      (invoke d' (n + 1) (paren.moved ρ.line) callee args) := by
  rw [invoke, invoke]
  refine .bind (.read fun m => Callable.of?_rename ρ m.store callee) fun found => ?_
  cases found with
  | none => exact .throwAt paren _
  | some f =>
    simp only [Option.map_some, Callable.rename_arity]
    refine .ite (.throwAt paren _) (.bind (h := id) (.read fun _ => rfl) fun depth => ?_)
    exact .ite (.throwAt paren _) (.deeper (ih.apply f args))

theorem apply_renamed (ih : RenamedRuns ρ d d' n) (f : Callable ν) (args : List Value) :
    Commutes ρ id (apply d (n + 1) f args) (apply d' (n + 1) (f.rename ρ) args) := by
  cases f with
  | native f =>
    cases f
    rw [Callable.rename, apply, apply]
    exact fun _ => rfl
  | function f =>
    rw [Callable.rename, apply, apply]
    exact ih.applyFunction f args
  | constructor i initializer =>
    rw [Callable.rename, apply, apply]
    refine .bind (h := id) (.updateStore fun s => rfl) fun object => ?_
    cases initializer with
    | none => exact .pure _
    | some f =>
      exact .bind (.bindMethod f object) fun bound => .bind (ih.applyFunction bound args) fun _ => .pure _

theorem applyFunction_renamed (ih : RenamedRuns ρ d d' n) (f : Lox.Function ν) (args : List Value) :
    Commutes ρ id (applyFunction d (n + 1) f args) (applyFunction d' (n + 1) (f.rename ρ) args) := by
  rw [applyFunction, applyFunction]
  simp only [Function.rename, renameFun_params, renameFun_body, renameFun_name]
  refine .bind (.newFrame f.closure _) fun frame => ?_
  refine .bind (.inFrame frame (ih.execAll f.decl.body)) fun flow => ?_
  refine .ite (.bind (h := id) (.read fun _ => rfl) fun frames => ?_) (.pure _)
  exact .liftAt (.ident "this" f.decl.name.line) _

theorem exec_renamed (ih : RenamedRuns ρ d d' n) (t : Stmt ν) :
    Commutes ρ id (exec d (n + 1) t) (exec d' (n + 1) (t.rename ρ)) := by
  cases t with
  | block body =>
    rw [Stmt.rename, exec, exec]
    refine .bind (h := id) (.read fun _ => rfl) fun env => ?_
    exact .bind (.newFrame env _) fun frame => .inFrame frame (ih.execAll body)
  | classDecl x parent methods =>
    have hclass : ∀ superclass, Commutes ρ id (do declareClass x superclass methods; return Flow.normal)
        (do declareClass (x.moved ρ.line) superclass (Stmt.renameMethods ρ methods); return Flow.normal) :=
      fun superclass => .bind (declareClass_renamed x superclass methods) fun _ => .pure _
    cases parent with
    | none =>
      rw [Stmt.rename, Expr.renameOpt, exec, exec]
      exact .bind (h := id) (.pure none) hclass
    | some e =>
      rw [Stmt.rename, Expr.renameOpt, exec, exec]
      refine .bind (ih.eval e) fun v => ?_
      cases v with
      | classRef p => exact .bind (h := id) (.pure (some p)) hclass
      | _ =>
        refine .bind (h := id) ?_ hclass
        rw [superclassToken_renamed]
        exact .throwAt _ _
  | expression e =>
    rw [Stmt.rename, exec, exec]
    exact .bind (ih.eval e) fun _ => .pure _
  | function f =>
    rw [Stmt.rename, exec, exec]
    refine .bind (h := id) (.read fun _ => rfl) fun env => ?_
    refine .bind (.newFunction ⟨f, env, false⟩) fun v => ?_
    rw [renameFun_name]
    exact .bind (.define _ v) fun _ => .pure _
  | conditional c s t =>
    cases t with
    | none =>
      rw [Stmt.rename, Stmt.renameOpt, exec, exec]
      exact .bind (ih.eval c) fun v => .ite (ih.exec s) (.pure _)
    | some t =>
      rw [Stmt.rename, Stmt.renameOpt, exec, exec]
      exact .bind (ih.eval c) fun v => .ite (ih.exec s) (ih.exec t)
  | print kw e =>
    rw [Stmt.rename, exec, exec]
    refine .bind (ih.eval e) fun v => ?_
    refine .bind (h := id) (.read fun m => m.store.text_rename ρ v) fun text => ?_
    exact .bind (.printLine kw text) fun _ => .pure _
  | returning kw e =>
    cases e with
    | none =>
      rw [Stmt.rename, Expr.renameOpt, exec, exec]
      exact .pure _
    | some e =>
      rw [Stmt.rename, Expr.renameOpt, exec, exec]
      exact .bind (ih.eval e) fun v => .pure _
  | varDecl x e =>
    cases e with
    | none =>
      rw [Stmt.rename, Expr.renameOpt, exec, exec]
      exact .bind (.define _ _) fun _ => .pure _
    | some e =>
      rw [Stmt.rename, Expr.renameOpt, exec, exec]
      exact .bind (ih.eval e) fun v => .bind (.define _ v) fun _ => .pure _
  | loop c s =>
    rw [Stmt.rename, exec, exec]
    refine .bind (ih.eval c) fun v => .ite (.bind (ih.exec s) fun flow => ?_) (.pure _)
    cases flow with
    | normal => exact ih.exec (.loop c s)
    | returned v => exact .pure _

theorem execAll_renamed (ih : RenamedRuns ρ d d' n) (ts : List (Stmt ν)) :
    Commutes ρ id (execAll d (n + 1) ts) (execAll d' (n + 1) (Stmt.renameAll ρ ts)) := by
  cases ts with
  | nil =>
    rw [Stmt.renameAll, execAll, execAll]
    exact .pure _
  | cons t ts =>
    rw [Stmt.renameAll, execAll, execAll]
    refine .bind (ih.exec t) fun flow => ?_
    cases flow with
    | normal => exact ih.execAll ts
    | returned v => exact .pure _

end

/-- Distances that agree through the renaming make for the same run. -/
theorem renamedRuns {ρ : Renaming ν ν'} {d : Distances ν} {d' : Distances ν'}
    (hd : ∀ k, d' (ρ.mark k) = d k) (n : Nat) : RenamedRuns ρ d d' n := by
  induction n with
  | zero =>
    constructor <;> intros <;> intro m
    · rw [Exec.eval, Exec.eval]; rfl
    · rw [Exec.evalAll, Exec.evalAll]; rfl
    · rw [Exec.invoke, Exec.invoke]; rfl
    · rw [Exec.apply, Exec.apply]; rfl
    · rw [Exec.applyFunction, Exec.applyFunction]; rfl
    · rw [Exec.exec, Exec.exec]; rfl
    · rw [Exec.execAll, Exec.execAll]; rfl
  | succ n ih =>
    exact ⟨eval_renamed hd ih, evalAll_renamed ih, invoke_renamed ih, apply_renamed ih,
      applyFunction_renamed ih, exec_renamed ih, execAll_renamed ih⟩

theorem interpret_renamed {ρ : Renaming ν ν'} {d : Distances ν} {d' : Distances ν'}
    (hd : ∀ k, d' (ρ.mark k) = d k) (n : Nat) (tree : List (Stmt ν)) :
    Commutes ρ id (interpret d n tree) (interpret d' n (Stmt.renameAll ρ tree)) := by
  induction tree with
  | nil => exact .pure ()
  | cons t ts ih => exact .bind ((renamedRuns hd n).exec t) fun _ => ih

/-- A program with distances for marks runs as the marked one does with these distances. -/
theorem interpret_distances (d : Distances ν) (g : Nat → Nat) (n : Nat) (tree : List (Stmt ν)) (m : Machine ν) :
    interpret id n (Stmt.renameAll ⟨d, g⟩ tree) (m.rename ⟨d, g⟩) =
      (interpret d n tree m).rename ⟨d, g⟩ id :=
  interpret_renamed (fun _ => rfl) n tree m

end Exec

end Lox
