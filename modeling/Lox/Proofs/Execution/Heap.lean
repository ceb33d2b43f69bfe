import Lox.Proofs.Execution.Activations
import Lox.Proofs.Execution.References

/-!
# The store in the course of a run

A run takes a sound store through sound stores only, one change at a time, however it ends. What carries
the induction is that a step gives out only what the store has: values that refer to something, functions
whose frame is there. `Delivers` says this of one step, `DeliveringRuns` of the evaluator with some fuel, and
`Visits.follows` of all the moments of a run.
-/

namespace Lox

/-- One change, to a sound store. -/
def Store.Step (s s' : Store ν) : Prop := Change (Code.all ν) s s' ∧ s'.Sound

/-- One change after another, through sound stores. -/
abbrev Store.Evolves : Store ν → Store ν → Prop := Relation.ReflTransGen Store.Step

namespace Store.Evolves

variable {s s' : Store ν} {v : Value}

theorem sound (h : s.Evolves s') (hs : s.Sound) : s'.Sound := by
  cases h with
  | refl => exact hs
  | tail _ hstep => exact hstep.2

theorem changes (h : s.Evolves s') : Changes (Code.all ν) s s' :=
  Relation.ReflTransGen.mono (fun _ _ hstep => hstep.1) _ _ h

theorem grows (h : s.Evolves s') : s.Grows s' := h.changes.grows

theorem keeps (h : s.Evolves s') : s.Keeps s' := h.changes.keeps

end Store.Evolves

/-- A sound store, and a current frame that is there. -/
structure Machine.Sound (m : Machine ν) : Prop where
  store : m.store.Sound
  env : m.env < m.store.frames.cells.size

/-- From one machine to a later one in the same frame. -/
structure Advances (m m' : Machine ν) : Prop where
  env : m'.env = m.env
  store : m.store.Evolves m'.store

namespace Advances

variable {m m' m'' : Machine ν} {v : Value}

theorem refl : Advances m m := ⟨rfl, .refl⟩

theorem trans (h : Advances m m') (h' : Advances m' m'') : Advances m m'' :=
  ⟨h'.env.trans h.env, h.store.trans h'.store⟩

theorem sound (h : Advances m m') (hm : m.Sound) : m'.Sound where
  store := h.store.sound hm.store
  env := by
    rw [h.env]
    exact Nat.lt_of_lt_of_le hm.env h.store.grows.frames

theorem has (h : Advances m m') (hv : m.store.Has v) : m'.store.Has v := hv.mono h.store.grows

theorem frame (h : Advances m m') {f : FrameId} (hf : f < m.store.frames.cells.size) :
    f < m'.store.frames.cells.size :=
  Nat.lt_of_lt_of_le hf h.store.grows.frames

end Advances

/-! ## Steps -/

/-- How a step on the machine may end: the machine has advanced, and the result is as it should be. -/
def Result.Delivers (P : Store ν → α → Prop) (m : Machine ν) : Result ν α → Prop
  | .done a m' => Advances m m' ∧ P m'.store a
  | .failed _ m' => Advances m m'
  | .outOfFuel => True

theorem Result.Delivers.machine {P : Store ν → α → Prop} {m m' : Machine ν} {r : Result ν α}
    (h : r.Delivers P m) (hm : r.machine? = some m') : Advances m m' := by
  cases r with
  | done a m₁ =>
    cases hm
    exact h.1
  | failed e m₁ =>
    cases hm
    exact h
  | outOfFuel => cases hm

namespace Exec

/-- On a sound machine, a step advances and delivers. -/
def Delivers (P : Store ν → α → Prop) (x : Exec ν α) (m : Machine ν) : Prop :=
  m.Sound → (x m).Delivers P m

namespace Delivers

variable {P : Store ν → α → Prop} {Q : Store ν → β → Prop} {x : Exec ν α} {f : α → Exec ν β}
  {m m' : Machine ν} {v : Value}

theorem done {a : α} (h : Delivers P x m) (hm : m.Sound) (hx : x m = .done a m') :
    Advances m m' ∧ P m'.store a := by
  have hr := h hm
  rw [hx] at hr
  exact hr

theorem pure {a : α} (ha : P m.store a) : Delivers P (Pure.pure a) m := fun _ => ⟨.refl, ha⟩

theorem reading {g : Machine ν → α} (h : Delivers Q (f (g m)) m) : Delivers Q (Exec.read g >>= f) m := h

theorem throwAt (t : Token) (cause : RuntimeFault) : Delivers P (Exec.throwAt t cause) m := fun _ => .refl

theorem liftAt (t : Token) {r : Except RuntimeFault α} (h : ∀ a, r = .ok a → P m.store a) :
    Delivers P (Exec.liftAt t r) m := by
  cases r with
  | ok a => exact pure (h a rfl)
  | error cause => exact throwAt t cause

theorem of_step {a : α} {s : Store ν} (hx : x m = .done a { m with store := s })
    (hc : Change (Code.all ν) m.store s) (hs : m.store.Sound → s.Sound) (ha : P s a) : Delivers P x m := by
  intro hm
  rw [hx]
  exact ⟨⟨rfl, .single ⟨hc, hs hm.store⟩⟩, ha⟩

theorem updateStore (f : Store ν → α × Store ν) (hc : Change (Code.all ν) m.store (f m.store).2)
    (hs : m.store.Sound → (f m.store).2.Sound) (ha : P (f m.store).2 (f m.store).1) :
    Delivers P (Exec.updateStore f) m :=
  of_step rfl hc hs ha

theorem define (x : String) (hv : m.store.Has v) : Delivers (fun _ _ => True) (Exec.define x v) m :=
  of_step rfl (.write m.env v trivial) (fun hs => hs.write m.env x hv) trivial

theorem assignIn (t : Token) (locate : Frames → Except RuntimeFault FrameId) (hv : m.store.Has v) :
    Delivers (fun _ _ => True) (Exec.assignIn t locate v) m := by
  cases hl : locate m.store.frames with
  | ok f =>
    refine of_step (a := ()) ?_ (.write f v trivial) (fun hs => hs.write f t.lexeme hv) trivial
    simp only [Exec.assignIn, hl]
  | error cause =>
    intro hm
    have hx : Exec.assignIn t locate v m = .failed ⟨t, cause⟩ m := by simp only [Exec.assignIn, hl]
    rw [hx]
    exact .refl

theorem printLine (kw : Token) (text : String) :
    Delivers (fun _ _ => True) (Exec.printLine kw text) m := by
  intro _
  unfold Exec.printLine
  simp only
  split
  · exact ⟨⟨rfl, .refl⟩, trivial⟩
  · exact ⟨rfl, .refl⟩

theorem readClock : Delivers Store.Has Exec.readClock m := fun _ => ⟨⟨rfl, .refl⟩, trivial⟩

/-- A new frame is there. -/
theorem newFrame {e : FrameId} {names : Table Value} (he : e < m.store.frames.cells.size)
    (hn : m.store.HasAll names) :
    Delivers (fun s f => f < s.frames.cells.size) (Exec.newFrame e names) m := by
  refine updateStore _ (.frame e fun _ _ => trivial) (fun hs => hs.addFrame he hn) ?_
  simp [Store.addFrame]

theorem newFunction {f : Lox.Function ν} (hf : f.closure < m.store.frames.cells.size) :
    Delivers Store.Has (Exec.newFunction f) m := by
  refine updateStore _ (.function (Code.task_all (.applyFunction f []))) (fun hs => hs.addFunction hf) ?_
  simp [Store.Has, Store.addFunction]

theorem bindMethod {f : Lox.Function ν} (hf : f.closure < m.store.frames.cells.size) {this : ObjectId}
    (hthis : this < m.store.objects.size) :
    Delivers (fun s g => g.closure < s.frames.cells.size) (Exec.bindMethod f this) m := by
  refine updateStore _ (.receiver f this) (fun hs => hs.bindMethod hf hthis) ?_
  simp [Store.bindMethod, Store.addFrame]

theorem bind (hx : Delivers P x m)
    (hf : ∀ a m', Advances m m' → P m'.store a → Delivers Q (f a) m') : Delivers Q (x >>= f) m := by
  intro hm
  have hr := hx hm
  rw [bind_apply]
  cases hxm : x m with
  | done a m₁ =>
    rw [hxm] at hr
    have hnext := hf a m₁ hr.1 hr.2 (hr.1.sound hm)
    simp only
    cases hfm : f a m₁ with
    | done b m₂ =>
      rw [hfm] at hnext
      exact ⟨hr.1.trans hnext.1, hnext.2⟩
    | failed e m₂ =>
      rw [hfm] at hnext
      exact hr.1.trans hnext
    | outOfFuel => trivial
  | failed e m₁ =>
    rw [hxm] at hr
    exact hr
  | outOfFuel => trivial

/-- A step in a frame that is there. -/
theorem inFrame {frame : FrameId} (hframe : frame < m.store.frames.cells.size)
    (hx : Delivers P x { m with env := frame }) : Delivers P (Exec.inFrame frame x) m := by
  intro hm
  have hr := hx ⟨hm.store, hframe⟩
  unfold Exec.inFrame
  simp only
  cases hxm : x { m with env := frame } with
  | done a m₁ =>
    rw [hxm] at hr
    exact ⟨⟨rfl, hr.1.store⟩, hr.2⟩
  | failed e m₁ =>
    rw [hxm] at hr
    exact ⟨rfl, hr.store⟩
  | outOfFuel => trivial

theorem deeper (hx : Delivers P x { m with depth := m.depth + 1 }) : Delivers P (Exec.deeper x) m := by
  intro hm
  have hr := hx ⟨hm.store, hm.env⟩
  unfold Exec.deeper
  cases hxm : x { m with depth := m.depth + 1 } with
  | done a m₁ =>
    rw [hxm] at hr
    exact ⟨⟨hr.1.env, hr.1.store⟩, hr.2⟩
  | failed e m₁ =>
    rw [hxm] at hr
    exact ⟨hr.env, hr.store⟩
  | outOfFuel => trivial

end Delivers

/-! ## Names, properties and classes -/

section
variable {m : Machine ν} {v : Value}

theorem delivers_readName (distance : Option Nat) (x : Token) :
    Delivers Store.Has (readName distance x : Exec ν Value) m := by
  intro hm
  refine Delivers.reading ?_ hm
  cases distance with
  | some j => exact .reading (.liftAt x fun v hv => hm.store.found hv)
  | none => exact .liftAt x fun v hv => hm.store.found hv

theorem delivers_assignName (distance : Option Nat) (x : Token) (hv : m.store.Has v) :
    Delivers (fun _ _ => True) (assignName distance x v : Exec ν Unit) m := by
  refine .reading ?_
  cases distance with
  | some j => exact .assignIn x _ hv
  | none => exact .assignIn x _ hv

/-- A method whose frame is there, bound to an object, as a value. -/
theorem delivers_boundMethod {f : Lox.Function ν} (hf : f.closure < m.store.frames.cells.size)
    {this : ObjectId} (hthis : this < m.store.objects.size) :
    Delivers Store.Has (bindMethod f this >>= newFunction) m :=
  .bind (.bindMethod hf hthis) fun _ _ _ hbound => .newFunction hbound

theorem delivers_getProperty {i : ObjectId} (hi : i < m.store.objects.size) (x : Token) :
    Delivers Store.Has (getProperty i x : Exec ν Value) m := by
  intro hm
  refine Delivers.reading ?_ hm
  cases hp : m.store.property i x.lexeme with
  | field v => exact .pure (hm.store.field hp)
  | method f =>
    obtain ⟨j, hf⟩ := Store.method?_of_property hp
    exact delivers_boundMethod (hm.store.method hf) hi
  | missing => exact .throwAt _ _

theorem delivers_superMethod (distance : Option Nat) (kw x : Token) :
    Delivers Store.Has (superMethod distance kw x : Exec ν Value) m := by
  cases distance with
  | none => exact .throwAt _ _
  | some j =>
    intro hm
    refine Delivers.reading (.reading ?_) hm
    refine .bind (P := Store.Has) (.liftAt _ fun v hv => hm.store.found hv) fun v m₁ h₁ _ => ?_
    cases v with
    | classRef p =>
      refine .bind (P := Store.Has) (.liftAt _ fun v hv => h₁.has (hm.store.found hv)) fun u m₂ _ hu => ?_
      cases u with
      | objectRef object =>
        intro hm₂
        refine Delivers.reading ?_ hm₂
        cases hf : m₂.store.method? p x.lexeme with
        | some f => exact delivers_boundMethod (hm₂.store.method hf) hu
        | none => exact .throwAt _ _
      | _ => exact .throwAt _ _
    | _ => exact .throwAt _ _

/-- The class itself is made once its frame is. -/
theorem delivers_newClass (x : Token) {superclass : Option ClassId} (methods : List (FunDecl (Stmt ν)))
    {closure : FrameId} (locate : Frames → Except RuntimeFault FrameId)
    (hparent : ∀ p ∈ superclass, p < m.store.classes.size) (hc : closure < m.store.frames.cells.size) :
    Delivers (fun _ _ => True) (do
      let id ← updateStore (·.addClass ⟨x.lexeme, superclass, methodTable closure methods⟩)
      assignIn x locate (.classRef id)) m := by
  have hclass : m.store.SoundClass m.store.classes.size
      ⟨x.lexeme, superclass, methodTable closure methods⟩ := by
    refine ⟨hparent, fun q hq => ?_⟩
    rw [(methodTable_mem hq).2]
    exact hc
  refine .bind (P := fun s i => s.Has (.classRef i)) (.updateStore _ ?_ (fun hs => hs.addClass hclass) ?_)
    fun i m₁ _ hi => .assignIn x _ hi
  · exact .newClass fun p _ => Code.task_all (.applyFunction p.2 [])
  · simp [Store.Has, Store.addClass]

theorem delivers_declareClass (x : Token) {superclass : Option ClassId}
    (methods : List (FunDecl (Stmt ν))) (hparent : ∀ p ∈ superclass, p < m.store.classes.size) :
    Delivers (fun _ _ => True) (declareClass x superclass methods) m := by
  refine .bind (.define x.lexeme (v := .nil) trivial) fun _ m₁ h₁ _ => ?_
  intro hm₁
  have hparent₁ : ∀ p ∈ superclass, p < m₁.store.classes.size :=
    fun p hp => Nat.lt_of_lt_of_le (hparent p hp) h₁.store.grows.classes
  refine Delivers.reading ?_ hm₁
  cases superclass with
  | some p =>
    refine .bind (.newFrame hm₁.env (Store.HasAll.empty.insert "super" (v := .classRef p) (hparent₁ p rfl)))
      fun closure m₂ h₂ hc => delivers_newClass x methods _ (fun q hq => ?_) hc
    exact Nat.lt_of_lt_of_le (hparent₁ q hq) h₂.store.grows.classes
  | none =>
    have hclass := delivers_newClass x methods (·.locate m₁.env x.lexeme) hparent₁ hm₁.env
    exact hclass

end

end Exec

/-! ## Runs -/

/-- A callable whose parts are there. -/
def Callable.Sound (s : Store ν) : Callable ν → Prop
  | .native _ => True
  | .function f => f.closure < s.frames.cells.size
  | .constructor i initializer => i < s.classes.size ∧ ∀ f ∈ initializer, f.closure < s.frames.cells.size

theorem Store.Sound.callable {s : Store ν} (h : s.Sound) {v : Value} (hv : s.Has v) {f : Callable ν}
    (hf : Callable.of? s v = some f) : f.Sound s := by
  cases v with
  | native g =>
    cases hf
    trivial
  | functionRef i =>
    obtain ⟨g, hg, rfl⟩ := Option.map_eq_some_iff.1 hf
    exact h.functions i g hg
  | classRef i =>
    cases hf
    exact ⟨hv, fun g hg => h.method hg⟩
  | _ => cases hf

/-- The frame of a call holds the arguments. -/
theorem Store.hasAll_locals {s : Store ν} (f : Function ν) {args : List Value} (h : ∀ v ∈ args, s.Has v) :
    s.HasAll (f.locals args) := by
  intro x v hv
  rcases Exec.mem_insertAll (Table.mem_of_get? hv) with hmem | hmem
  · exact h v (List.of_mem_zip hmem).2
  · cases hmem

namespace Exec

/-- What the evaluator delivers with some fuel. -/
structure DeliveringRuns (d : Distances ν) (n : Nat) : Prop where
  eval : ∀ e m, Delivers Store.Has (Exec.eval d n e) m
  evalAll : ∀ es m, Delivers (fun s vs => ∀ v ∈ vs, s.Has v) (Exec.evalAll d n es) m
  invoke : ∀ paren callee args m, m.store.Has callee → (∀ v ∈ args, m.store.Has v) →
    Delivers Store.Has (Exec.invoke d n paren callee args) m
  apply : ∀ f args m, f.Sound m.store → (∀ v ∈ args, m.store.Has v) →
    Delivers Store.Has (Exec.apply d n f args) m
  applyFunction : ∀ f args m, f.closure < m.store.frames.cells.size → (∀ v ∈ args, m.store.Has v) →
    Delivers Store.Has (Exec.applyFunction d n f args) m
  exec : ∀ t m, Delivers (fun s flow => s.Has flow.value) (Exec.exec d n t) m
  execAll : ∀ ts m, Delivers (fun s flow => s.Has flow.value) (Exec.execAll d n ts) m

section
variable {d : Distances ν} {n : Nat}

theorem applyUnary_has {s : Store ν} {op : Kind} {a v : Value} (h : applyUnary op a = .ok v) : s.Has v := by
  unfold applyUnary negate at h
  split at h
  · split at h <;> cases h
    trivial
  · cases h
    trivial
  · cases h

theorem applyBinary_has {s : Store ν} {op : Kind} {a b v : Value} (h : applyBinary op a b = .ok v) :
    s.Has v := by
  unfold applyBinary add at h
  split at h
  · split at h <;> cases h <;> trivial
  · cases h
    trivial
  · cases h
    trivial
  · split at h
    · unfold arithmetic at h
      split at h <;> cases h <;> trivial
    · cases h

theorem delivering_eval (ih : DeliveringRuns d n) (e : Expr ν) (m : Machine ν) :
    Delivers Store.Has (eval d (n + 1) e) m := by
  cases e with
  | assign k x e =>
    rw [eval]
    refine .bind (ih.eval e m) fun v m₁ _ hv => ?_
    exact .bind (delivers_assignName _ x hv) fun _ _ h₂ _ => .pure (h₂.has hv)
  | binary l op r =>
    rw [eval]
    exact .bind (ih.eval l m) fun _ m₁ _ _ => .bind (ih.eval r m₁) fun _ _ _ _ =>
      .liftAt op fun _ hv => applyBinary_has hv
  | call f paren args =>
    rw [eval]
    exact .bind (ih.eval f m) fun v m₁ _ hv => .bind (ih.evalAll args m₁) fun vs m₂ h₂ hvs =>
      ih.invoke paren v vs m₂ (h₂.has hv) hvs
  | get o x =>
    rw [eval]
    refine .bind (ih.eval o m) fun v m₁ _ hv => ?_
    cases v with
    | objectRef i => exact delivers_getProperty hv x
    | _ => exact .throwAt _ _
  | grouping e =>
    rw [eval]
    exact ih.eval e m
  | literal l =>
    rw [eval]
    refine .pure ?_
    cases l <;> trivial
  | logical l op r =>
    rw [eval]
    refine .bind (ih.eval l m) fun a m₁ _ ha => ?_
    split
    · exact .pure ha
    · exact ih.eval r m₁
  | set o x e =>
    rw [eval]
    refine .bind (ih.eval o m) fun v m₁ _ _ => ?_
    cases v with
    | objectRef i =>
      refine .bind (ih.eval e m₁) fun v m₂ _ hv => ?_
      refine .bind (P := fun _ _ => True) (.updateStore _ (.field i x.lexeme v)
        (fun hs => hs.setField i x.lexeme hv) trivial) fun _ _ h₃ _ => .pure (h₃.has hv)
    | _ => exact .throwAt _ _
  | superRef k kw x =>
    rw [eval]
    exact delivers_superMethod _ kw x
  | thisRef k kw =>
    rw [eval]
    exact delivers_readName _ kw
  | unary op e =>
    rw [eval]
    exact .bind (ih.eval e m) fun _ _ _ _ => .liftAt op fun _ hv => applyUnary_has hv
  | «variable» k x =>
    rw [eval]
    exact delivers_readName _ x

theorem delivering_evalAll (ih : DeliveringRuns d n) (es : List (Expr ν)) (m : Machine ν) :
    Delivers (fun s vs => ∀ v ∈ vs, s.Has v) (evalAll d (n + 1) es) m := by
  cases es with
  | nil =>
    rw [evalAll]
    exact .pure (by simp)
  | cons e es =>
    rw [evalAll]
    refine .bind (ih.eval e m) fun v m₁ _ hv => .bind (ih.evalAll es m₁) fun vs m₂ h₂ hvs => .pure ?_
    exact List.forall_mem_cons.2 ⟨h₂.has hv, hvs⟩

theorem delivering_invoke (ih : DeliveringRuns d n) (paren : Token) (callee : Value) (args : List Value)
    (m : Machine ν) (hcallee : m.store.Has callee) (hargs : ∀ v ∈ args, m.store.Has v) :
    Delivers Store.Has (invoke d (n + 1) paren callee args) m := by
  intro hm
  rw [invoke]
  refine Delivers.reading ?_ hm
  cases hf : Callable.of? m.store callee with
  | none => exact .throwAt _ _
  | some f =>
    simp only
    split
    · exact .throwAt _ _
    · refine .reading ?_
      split
      · exact .throwAt _ _
      · exact .deeper (ih.apply f args _ (hm.store.callable hcallee hf) hargs)

theorem delivering_apply (ih : DeliveringRuns d n) (f : Callable ν) (args : List Value) (m : Machine ν)
    (hf : f.Sound m.store) (hargs : ∀ v ∈ args, m.store.Has v) :
    Delivers Store.Has (apply d (n + 1) f args) m := by
  cases f with
  | native f =>
    cases f
    rw [apply]
    exact .readClock
  | function f =>
    rw [apply]
    exact ih.applyFunction f args m hf hargs
  | constructor i initializer =>
    rw [apply]
    obtain ⟨hi, hinit⟩ := hf
    have hobject : m.store.SoundObject ⟨i, {}⟩ := ⟨hi, .empty⟩
    refine .bind (P := fun s object => s.Has (.objectRef object))
      (.updateStore _ (.object _) (fun hs => hs.addObject hobject) ?_) fun object m₁ h₁ ho => ?_
    · simp [Store.Has, Store.addObject]
    · cases initializer with
      | none => exact .pure ho
      | some f =>
        refine .bind (.bindMethod (h₁.frame (hinit f rfl)) ho) fun bound m₂ h₂ hbound => ?_
        refine .bind (ih.applyFunction bound args m₂ hbound fun v hv => h₂.has (h₁.has (hargs v hv)))
          fun _ m₃ h₃ _ => .pure (h₃.has (h₂.has ho))

theorem delivering_applyFunction (ih : DeliveringRuns d n) (f : Lox.Function ν) (args : List Value)
    (m : Machine ν) (hf : f.closure < m.store.frames.cells.size) (hargs : ∀ v ∈ args, m.store.Has v) :
    Delivers Store.Has (applyFunction d (n + 1) f args) m := by
  rw [applyFunction]
  refine .bind (.newFrame hf (Store.hasAll_locals f hargs)) fun frame m₁ _ hframe => ?_
  refine .bind (.inFrame hframe (ih.execAll f.decl.body _)) fun flow m₂ _ hflow => ?_
  split
  · intro hm₂
    exact Delivers.reading (.liftAt _ fun v hv => hm₂.store.found hv) hm₂
  · exact .pure hflow

theorem delivering_classDecl (ih : DeliveringRuns d n) (x : Token) (parent : Option (Expr ν))
    (methods : List (FunDecl (Stmt ν))) (m : Machine ν) :
    Delivers (fun s flow => s.Has flow.value) (exec d (n + 1) (.classDecl x parent methods)) m := by
  have hclass : ∀ superclass m', (∀ p ∈ superclass, p < m'.store.classes.size) →
      Delivers (fun s flow => s.Has flow.value)
        (do declareClass x superclass methods; return Flow.normal) m' :=
    fun superclass m' hp => .bind (delivers_declareClass x methods hp) fun _ _ _ _ => .pure trivial
  cases parent with
  | none =>
    rw [exec]
    exact hclass none m (by simp)
  | some e =>
    rw [exec]
    refine .bind (ih.eval e m) fun v m₁ _ hv => ?_
    cases v with
    | classRef p =>
      refine hclass (some p) m₁ fun q hq => ?_
      cases hq
      exact hv
    | _ => exact .bind (P := fun _ _ => False) (.throwAt _ _) fun _ _ _ h => h.elim

theorem delivering_exec (ih : DeliveringRuns d n) (t : Stmt ν) (m : Machine ν) :
    Delivers (fun s flow => s.Has flow.value) (exec d (n + 1) t) m := by
  cases t with
  | block body =>
    rw [exec]
    intro hm
    refine Delivers.reading (.bind (.newFrame hm.env .empty) fun frame m₁ _ hframe => ?_) hm
    exact .inFrame hframe (ih.execAll body _)
  | classDecl x parent methods => exact delivering_classDecl ih x parent methods m
  | expression e =>
    rw [exec]
    exact .bind (ih.eval e m) fun _ _ _ _ => .pure trivial
  | function f =>
    rw [exec]
    intro hm
    refine Delivers.reading (.bind (.newFunction hm.env) fun v m₁ _ hv => ?_) hm
    exact .bind (.define _ hv) fun _ _ _ _ => .pure trivial
  | conditional c s t =>
    cases t with
    | none =>
      rw [exec]
      refine .bind (ih.eval c m) fun v m₁ _ _ => ?_
      split
      · exact ih.exec s m₁
      · exact .pure trivial
    | some t =>
      rw [exec]
      refine .bind (ih.eval c m) fun v m₁ _ _ => ?_
      split
      · exact ih.exec s m₁
      · exact ih.exec t m₁
  | print kw e =>
    rw [exec]
    exact .bind (ih.eval e m) fun v _ _ _ => .reading (.bind (.printLine kw _) fun _ _ _ _ => .pure trivial)
  | returning kw e =>
    cases e with
    | none =>
      rw [exec]
      exact .pure trivial
    | some e =>
      rw [exec]
      exact .bind (ih.eval e m) fun _ _ _ hv => .pure hv
  | varDecl x e =>
    cases e with
    | none =>
      rw [exec]
      exact .bind (.define (v := .nil) _ trivial) fun _ _ _ _ => .pure trivial
    | some e =>
      rw [exec]
      exact .bind (ih.eval e m) fun v _ _ hv => .bind (.define _ hv) fun _ _ _ _ => .pure trivial
  | loop c s =>
    rw [exec]
    refine .bind (ih.eval c m) fun v m₁ _ _ => ?_
    split
    · refine .bind (ih.exec s m₁) fun flow m₂ _ hflow => ?_
      cases flow with
      | normal => exact ih.exec (.loop c s) m₂
      | returned v => exact .pure hflow
    · exact .pure trivial

theorem delivering_execAll (ih : DeliveringRuns d n) (ts : List (Stmt ν)) (m : Machine ν) :
    Delivers (fun s flow => s.Has flow.value) (execAll d (n + 1) ts) m := by
  cases ts with
  | nil =>
    rw [execAll]
    exact .pure trivial
  | cons t ts =>
    rw [execAll]
    refine .bind (ih.exec t m) fun flow m₁ _ hflow => ?_
    cases flow with
    | normal => exact ih.execAll ts m₁
    | returned v => exact .pure hflow

end

theorem deliveringRuns (d : Distances ν) (n : Nat) : DeliveringRuns d n := by
  induction n with
  | zero => constructor <;> intros <;> exact fun _ => trivial
  | succ n ih =>
    exact ⟨delivering_eval ih, delivering_evalAll ih, delivering_invoke ih, delivering_apply ih,
      delivering_applyFunction ih, delivering_exec ih, delivering_execAll ih⟩

end Exec

/-! ## Moments -/

/-- A task whose values and functions are there. -/
def Task.Sound (s : Store ν) : Task ν → Prop
  | .invoke _ callee args => s.Has callee ∧ ∀ v ∈ args, s.Has v
  | .apply f args => f.Sound s ∧ ∀ v ∈ args, s.Has v
  | .applyFunction f args => f.closure < s.frames.cells.size ∧ ∀ v ∈ args, s.Has v
  | _ => True

/-- What is started on a sound machine, with a sound task. -/
structure Moment.Sound (M : Moment ν) : Prop where
  task : M.1.Sound M.2.store
  machine : M.2.Sound

section
variable {d : Distances ν} {n : Nat} {m m' : Machine ν}

/-- A task advances the machine to where it leaves it, also if it fails. -/
theorem Moment.Sound.advances {T : Task ν} (h : Moment.Sound (T, m)) (hl : T.leaves d n m = some m') :
    Advances m m' := by
  have hruns := Exec.deliveringRuns d n
  cases T with
  | eval e => exact (hruns.eval e m h.machine).machine hl
  | evalAll es => exact (hruns.evalAll es m h.machine).machine hl
  | invoke paren callee args => exact (hruns.invoke paren callee args m h.task.1 h.task.2 h.machine).machine hl
  | apply f args => exact (hruns.apply f args m h.task.1 h.task.2 h.machine).machine hl
  | applyFunction f args => exact (hruns.applyFunction f args m h.task.1 h.task.2 h.machine).machine hl
  | exec t => exact (hruns.exec t m h.machine).machine hl
  | execAll ts => exact (hruns.execAll ts m h.machine).machine hl

theorem advances_of_eval {e : Expr ν} {v : Value} (hm : m.Sound)
    (h : Exec.Yields (Exec.eval d · e) m v m') : Advances m m' ∧ m'.store.Has v := by
  obtain ⟨n, hn⟩ := h
  exact ((Exec.deliveringRuns d n).eval e m).done hm hn

theorem advances_of_exec {t : Stmt ν} {flow : Flow} (hm : m.Sound)
    (h : Exec.Yields (Exec.exec d · t) m flow m') : Advances m m' := by
  obtain ⟨n, hn⟩ := h
  exact (((Exec.deliveringRuns d n).exec t m).done hm hn).1

/-- The second moment is sound, and its store comes after that of the first. -/
structure Follows (M M' : Moment ν) : Prop where
  sound : Moment.Sound M'
  store : M.2.store.Evolves M'.2.store

namespace Follows

variable {T T' : Task ν}

/-- A part is started where its predecessors advanced to. -/
theorem after (h : Advances m m') (hm : m.Sound) (ht : T'.Sound m'.store) : Follows (T, m) (T', m') :=
  ⟨⟨ht, h.sound hm⟩, h.store⟩

/-- The first part is started on the machine itself. -/
theorem first (h : Moment.Sound (T, m)) (ht : T'.Sound m.store) : Follows (T, m) (T', m) :=
  after .refl h.machine ht

/-- A body is started in a fresh frame. -/
theorem enter (h : Moment.Sound (T, m)) {e : FrameId} {names : Table Value}
    (he : e < m.store.frames.cells.size) (hn : m.store.HasAll names) {ts : List (Stmt ν)} :
    Follows (T, m) (.execAll ts, m.enter e names) := by
  have hstore : (m.enter e names).store.Sound := h.machine.store.addFrame he hn
  refine ⟨⟨trivial, hstore, ?_⟩, .single ⟨.frame e fun _ _ => trivial, hstore⟩⟩
  simp [Machine.enter, Store.addFrame]

/-- An initializer is started on the new object. -/
theorem initializer {i : ClassId} {f : Function ν} {args : List Value}
    (h : Moment.Sound (.apply (.constructor i (some f)) args, m)) :
    Follows (.apply (.constructor i (some f)) args, m)
      (.applyFunction ((m.construct i).store.bindMethod f m.store.objects.size).1 args,
        (m.construct i).bindMethod f m.store.objects.size) := by
  obtain ⟨⟨hi, hf⟩, hargs⟩ := h.task
  have hobject : (m.construct i).store.Sound :=
    h.machine.store.addObject (o := ⟨i, {}⟩) ⟨hi, .empty⟩
  have hthis : m.store.objects.size < (m.construct i).store.objects.size := by
    simp [Machine.construct, Store.addObject]
  have hbound : ((m.construct i).bindMethod f m.store.objects.size).store.Sound :=
    hobject.bindMethod (hf f rfl) hthis
  have hsteps : m.store.Evolves ((m.construct i).bindMethod f m.store.objects.size).store :=
    (Relation.ReflTransGen.single ⟨.object _, hobject⟩).tail ⟨.receiver _ _, hbound⟩
  refine ⟨⟨⟨?_, fun v hv => (hargs v hv).mono hsteps.grows⟩, hbound, ?_⟩, hsteps⟩
  · simp [Machine.bindMethod, Store.bindMethod, Store.addFrame]
  · exact Nat.lt_of_lt_of_le h.machine.env hsteps.grows.frames

end Follows

/-- One step of the walk, rule by rule. -/
theorem Calls.follows {M M' : Moment ν} (h : Calls d M M') (hM : Moment.Sound M) : Follows M M' := by
  have hm := hM.machine
  cases h with
  | assignValue => exact .first hM trivial
  | binaryLeft => exact .first hM trivial
  | binaryRight hl => exact .after (advances_of_eval hm hl).1 hm trivial
  | callee => exact .first hM trivial
  | arguments hf => exact .after (advances_of_eval hm hf).1 hm trivial
  | invoke hf ha =>
    obtain ⟨hcallee, hv⟩ := advances_of_eval hm hf
    obtain ⟨n, hn⟩ := ha
    obtain ⟨hargs, hvs⟩ := ((Exec.deliveringRuns d n).evalAll _ _).done (hcallee.sound hm) hn
    exact .after (hcallee.trans hargs) hm ⟨hargs.has hv, hvs⟩
  | getObject => exact .first hM trivial
  | grouping => exact .first hM trivial
  | logicalLeft => exact .first hM trivial
  | logicalRight hl => exact .after (advances_of_eval hm hl).1 hm trivial
  | setObject => exact .first hM trivial
  | setValue ho => exact .after (advances_of_eval hm ho).1 hm trivial
  | operand => exact .first hM trivial
  | first => exact .first hM trivial
  | others he => exact .after (advances_of_eval hm he).1 hm trivial
  | apply hf _ _ => exact .after ⟨rfl, .refl⟩ hm ⟨hm.store.callable hM.task.1 hf, hM.task.2⟩
  | function => exact .first hM hM.task
  | initializer => exact .initializer hM
  | functionBody => exact .enter hM hM.task.1 (Store.hasAll_locals _ hM.task.2)
  | blockBody => exact .enter hM hm.env .empty
  | superclass => exact .first hM trivial
  | expression => exact .first hM trivial
  | test => exact .first hM trivial
  | thenBranch hc => exact .after (advances_of_eval hm hc).1 hm trivial
  | elseBranch hc => exact .after (advances_of_eval hm hc).1 hm trivial
  | printed => exact .first hM trivial
  | returned => exact .first hM trivial
  | variableValue => exact .first hM trivial
  | loopTest => exact .first hM trivial
  | loopBody hc => exact .after (advances_of_eval hm hc).1 hm trivial
  | loopAgain hc _ hb =>
    have hcond := (advances_of_eval hm hc).1
    exact .after (hcond.trans (advances_of_exec (hcond.sound hm) hb)) hm trivial
  | firstStatement => exact .first hM trivial
  | otherStatements hst => exact .after (advances_of_exec hm hst) hm trivial

/-- All moments of a run are sound, and each store comes after that of the start. -/
theorem Visits.follows {M M' : Moment ν} (h : Visits d M M') (hM : Moment.Sound M) : Follows M M' := by
  induction h with
  | refl => exact ⟨hM, .refl⟩
  | tail _ hcall ih =>
    have hnext := hcall.follows ih.sound
    exact ⟨hnext.sound, ih.store.trans hnext.store⟩

end

end Lox
