import Lox.Proofs.Lexical.Agreement
import Lox.Proofs.Scoping.Formed

/-!
# Blocks that declare nothing

A step that declares nothing leaves the names in scope as they are, and does the same whether a declaration
would be local or global: `InPlace`. An expression is such a step, and so is a statement that declares
nothing. A scope opened around such a step cannot be told from none (`InPlace.inScope`).
-/

namespace Lox.Lexical

/-- The same end with another state. -/
def Result.onState (g : State ν → State ν) : Result ν α → Result ν α
  | .done a s => .done a (g s)
  | .failed e s => .failed e (g s)
  | .outOfFuel => .outOfFuel

/-- The state, back at the place of another one. -/
def State.backAt (s : State ν) (names : Names) (isLocal : Bool) : State ν := { s with names, isLocal }

namespace Run

/-- The step declares nothing: wherever it is made, it ends the same way, and at this place again. -/
def InPlace (x : Run ν α) : Prop :=
  ∀ s b, x { s with isLocal := b } = (x s).onState (·.backAt s.names b)

theorem inScope_apply (names : Names) (x : Run ν α) (s : State ν) :
    inScope names x s = (x (s.backAt names true)).onState (·.backAt s.names s.isLocal) := by
  simp only [inScope, State.backAt]
  cases x { s with names, isLocal := true } <;> rfl

namespace InPlace

variable {x y : Run ν α} {f : α → Run ν β}

/-- An empty scope around the step makes no difference. -/
theorem inScope (h : InPlace x) : (do Run.inScope (← Run.read (·.names)) x) = x := by
  funext s
  have hinside : x (s.backAt s.names true) = (x s).onState (·.backAt s.names true) := h s true
  have hback : x s = (x s).onState (·.backAt s.names s.isLocal) := h s s.isLocal
  show Run.inScope s.names x s = x s
  rw [inScope_apply, hinside, hback]
  cases x s <;> rfl

theorem of_inScope (names : Names) (x : Run ν α) : InPlace (Run.inScope names x) := by
  intro s b
  simp only [inScope_apply]
  show (x (s.backAt names true)).onState (·.backAt s.names b) = _
  cases x (s.backAt names true) <;> rfl

theorem pure (a : α) : InPlace (Pure.pure a : Run ν α) := fun _ _ => rfl

theorem outOfFuel : InPlace (Run.outOfFuel : Run ν α) := fun _ _ => rfl

theorem throwAt (t : Token) (cause : Fault) : InPlace (Run.throwAt t cause : Run ν α) := fun _ _ => rfl

theorem liftAt (t : Token) (r : Except RuntimeFault α) : InPlace (Run.liftAt t r : Run ν α) := by
  cases r with
  | ok a => exact pure a
  | error cause => exact throwAt t _

theorem read {g : State ν → α} (hg : ∀ s b, g { s with isLocal := b } = g s) : InPlace (Run.read g) := by
  intro s b
  show Result.done (g { s with isLocal := b }) _ = _
  rw [hg]
  rfl

theorem update {g : State ν → α × State ν}
    (hg : ∀ s b, g { s with isLocal := b } = ((g s).1, (g s).2.backAt s.names b)) : InPlace (Run.update g) := by
  intro s b
  show Result.done (g { s with isLocal := b }).1 (g { s with isLocal := b }).2 = _
  rw [hg]
  rfl

theorem readClock : InPlace (Run.readClock : Run ν Value) := fun _ _ => rfl

theorem printLine (kw : Token) (text : String) : InPlace (Run.printLine kw text : Run ν Unit) := by
  intro s b
  simp only [Run.printLine]
  split <;> rfl

theorem bind (hx : InPlace x) (hf : ∀ a, InPlace (f a)) : InPlace (x >>= f) := by
  intro s b
  have hback := hx s s.isLocal
  rw [bind_apply, bind_apply, hx s b]
  cases hr : x s with
  | done a s' =>
    have hnames : s'.names = s.names := by
      have h : x s = (x s).onState (·.backAt s.names s.isLocal) := hback
      rw [hr] at h
      injection h with _ hs
      rw [hs]
      rfl
    show f a (s'.backAt s.names b) = _
    rw [← hnames]
    exact hf a s' b
  | failed e s' => rfl
  | outOfFuel => rfl

theorem ite {c : Prop} [Decidable c] (hx : InPlace x) (hy : InPlace y) : InPlace (if c then x else y) := by
  split
  · exact hx
  · exact hy

theorem deeper (hx : InPlace x) : InPlace (Run.deeper x) := by
  intro s b
  have h : x { s with isLocal := b, depth := s.depth + 1 } =
      (x { s with depth := s.depth + 1 }).onState (·.backAt s.names b) := hx { s with depth := s.depth + 1 } b
  simp only [Run.deeper, h]
  cases x { s with depth := s.depth + 1 } <;> rfl

/-! ## Operations -/

theorem methodWithin? (s : State ν) (b : Bool) (x : String) (n : Nat) (i : ClassId) :
    ({ s with isLocal := b } : State ν).methodWithin? x n i = s.methodWithin? x n i := by
  induction n generalizing i with
  | zero => rfl
  | succ n ih => simp only [State.methodWithin?, ih]

theorem method? (s : State ν) (b : Bool) (i : ClassId) (x : String) :
    ({ s with isLocal := b } : State ν).method? i x = s.method? i x := methodWithin? s b x _ i

theorem callable (s : State ν) (b : Bool) (v : Value) :
    Callable.of? ({ s with isLocal := b } : State ν) v = Callable.of? s v := by
  cases v <;> simp only [Callable.of?, method?]

theorem addCells (s : State ν) (b : Bool) (l : List (String × Value)) (names : Names) :
    ({ s with isLocal := b } : State ν).addCells l names =
      ((s.addCells l names).1, (s.addCells l names).2.backAt s.names b) := by
  induction l generalizing s names with
  | nil => rfl
  | cons p l ih => exact ih (s.addCell p.1 (some p.2) names).2 _

theorem readName (x : Token) : InPlace (Run.readName x : Run ν Value) := by
  intro s b
  simp only [Run.readName, State.cell?]
  cases s.names.lookup x.lexeme with
  | none =>
    simp only
    cases s.globals.get? x.lexeme <;> rfl
  | some c =>
    simp only
    cases (s.cells[c]?).bind id <;> rfl

theorem assignName (x : Token) (v : Value) : InPlace (Run.assignName x v : Run ν Unit) := by
  intro s b
  simp only [Run.assignName]
  cases s.names.lookup x.lexeme with
  | none =>
    simp only
    cases s.globals.contains x.lexeme <;> rfl
  | some c =>
    have hcell : ({ s with isLocal := b } : State ν).cell? c = s.cell? c := rfl
    simp only [hcell]
    by_cases hc : (s.cell? c).isSome = true
    · simp only [hc, if_true]
      rfl
    · simp only [hc]
      rfl

theorem boundMethod (f : Function ν) (i : ObjectId) : InPlace (Run.boundMethod f i) :=
  .bind (.update fun _ _ => rfl) fun _ => .update fun _ _ => rfl

theorem getProperty (i : ObjectId) (x : Token) : InPlace (Run.getProperty i x : Run ν Value) := by
  refine .bind (.read fun _ _ => rfl) fun o => ?_
  cases o with
  | none => exact .throwAt _ _
  | some o =>
    simp only
    cases o.fields.get? x.lexeme with
    | some v => exact .pure v
    | none =>
      refine .bind (.read fun s b => method? s b _ _) fun f => ?_
      cases f with
      | some f => exact .boundMethod f i
      | none => exact .throwAt _ _

theorem superMethod (kw x : Token) : InPlace (Run.superMethod kw x : Run ν Value) := by
  refine .bind (.read fun _ _ => rfl) fun c => ?_
  cases c with
  | none => exact .throwAt _ _
  | some c =>
    refine .bind (.readName kw) fun v => ?_
    cases v with
    | classRef p =>
      refine .bind (.readName _) fun u => ?_
      cases u with
      | objectRef i =>
        refine .bind (.read fun s b => method? s b _ _) fun f => ?_
        cases f with
        | some f => exact .boundMethod f i
        | none => exact .throwAt _ _
      | _ => exact .throwAt _ _
    | _ => exact .throwAt _ _

end InPlace

/-! ## Runs -/

/-- With some fuel, everything that declares nothing is in place. -/
structure InPlaceRuns (ν : Type) (n : Nat) : Prop where
  eval : ∀ e : Expr ν, InPlace (Run.eval n e)
  evalAll : ∀ es : List (Expr ν), InPlace (Run.evalAll n es)
  invoke : ∀ paren callee args, InPlace (Run.invoke n paren callee args : Run ν Value)
  apply : ∀ (f : Callable ν) args, InPlace (Run.apply n f args)
  applyFunction : ∀ (f : Function ν) args, InPlace (Run.applyFunction n f args)
  exec : ∀ t : Stmt ν, t.Formed → t.declares? = none → InPlace (Run.exec n t)

section
variable {n : Nat}

theorem eval_inPlace (ih : InPlaceRuns ν n) (e : Expr ν) : InPlace (eval (n + 1) e) := by
  cases e with
  | assign k x e =>
    rw [eval]
    exact .bind (ih.eval e) fun v => .bind (.assignName x v) fun _ => .pure v
  | binary l op r =>
    rw [eval]
    exact .bind (ih.eval l) fun a => .bind (ih.eval r) fun b => .liftAt _ _
  | call f paren args =>
    rw [eval]
    exact .bind (ih.eval f) fun v => .bind (ih.evalAll args) fun vs => ih.invoke paren v vs
  | get o x =>
    rw [eval]
    refine .bind (ih.eval o) fun v => ?_
    cases v with
    | objectRef i => exact .getProperty i x
    | _ => exact .throwAt _ _
  | grouping e =>
    rw [eval]
    exact ih.eval e
  | literal v =>
    rw [eval]
    exact .pure _
  | logical l op r =>
    rw [eval]
    exact .bind (ih.eval l) fun a => .ite (.pure a) (ih.eval r)
  | set o x e =>
    rw [eval]
    refine .bind (ih.eval o) fun v => ?_
    cases v with
    | objectRef i => exact .bind (ih.eval e) fun v => .bind (.update fun _ _ => rfl) fun _ => .pure v
    | _ => exact .throwAt _ _
  | superRef k kw x =>
    rw [eval]
    exact .superMethod kw x
  | thisRef k kw =>
    rw [eval]
    exact .readName kw
  | unary op e =>
    rw [eval]
    exact .bind (ih.eval e) fun a => .liftAt _ _
  | «variable» k x =>
    rw [eval]
    exact .readName x

theorem apply_inPlace (ih : InPlaceRuns ν n) (f : Callable ν) (args : List Value) :
    InPlace (apply (n + 1) f args) := by
  cases f with
  | native f =>
    cases f
    rw [apply]
    exact .readClock
  | function f =>
    rw [apply]
    exact ih.applyFunction f args
  | constructor i initializer =>
    rw [apply]
    refine .bind (.update fun _ _ => rfl) fun object => ?_
    cases initializer with
    | none => exact .bind (.pure ()) fun _ => .pure _
    | some f =>
      exact .bind (.update fun _ _ => rfl) fun bound => .bind (ih.applyFunction bound args) fun _ => .pure _

theorem exec_inPlace (ih : InPlaceRuns ν n) (t : Stmt ν) (ht : t.Formed) (hd : t.declares? = none) :
    InPlace (exec (n + 1) t) := by
  cases t with
  | block body =>
    rw [exec]
    exact .bind (.read fun _ _ => rfl) fun names => .of_inScope names _
  | classDecl x parent methods => cases hd
  | expression e =>
    rw [exec]
    exact .bind (ih.eval e) fun _ => .pure _
  | function f => cases hd
  | conditional c s t =>
    obtain ⟨_, ⟨hs, hformed⟩, ht⟩ := ht
    cases t with
    | none =>
      rw [exec]
      exact .bind (ih.eval c) fun v => .ite (ih.exec s hformed hs) (.pure _)
    | some t =>
      rw [exec]
      exact .bind (ih.eval c) fun v => .ite (ih.exec s hformed hs) (ih.exec t ht.2 ht.1)
  | print kw e =>
    rw [exec]
    exact .bind (ih.eval e) fun v => .bind (.read fun _ _ => rfl) fun text =>
      .bind (.printLine kw _) fun _ => .pure _
  | returning kw e =>
    cases e with
    | none =>
      rw [exec]
      exact .pure _
    | some e =>
      rw [exec]
      exact .bind (ih.eval e) fun v => .pure _
  | varDecl x e => cases hd
  | loop c s =>
    rw [exec]
    refine .bind (ih.eval c) fun v => .ite (.bind (ih.exec s ht.2.2 ht.2.1) fun flow => ?_) (.pure _)
    cases flow with
    | normal => exact ih.exec (.loop c s) ht rfl
    | returned v => exact .pure _

theorem inPlaceRuns (n : Nat) : InPlaceRuns ν n := by
  induction n with
  | zero =>
    constructor <;> intros
    · rw [Run.eval]; exact .outOfFuel
    · rw [Run.evalAll]; exact .outOfFuel
    · rw [Run.invoke]; exact .outOfFuel
    · rw [Run.apply]; exact .outOfFuel
    · rw [Run.applyFunction]; exact .outOfFuel
    · rw [Run.exec]; exact .outOfFuel
  | succ n ih =>
    refine ⟨eval_inPlace ih, fun es => ?_, fun paren callee args => ?_, apply_inPlace ih, fun f args => ?_,
      exec_inPlace ih⟩
    · cases es with
      | nil =>
        rw [Run.evalAll]
        exact .pure []
      | cons e es =>
        rw [Run.evalAll]
        exact .bind (ih.eval e) fun v => .bind (ih.evalAll es) fun vs => .pure _
    · rw [Run.invoke]
      refine .bind (.read fun s b => InPlace.callable s b callee) fun found => ?_
      cases found with
      | none => exact .throwAt _ _
      | some f =>
        refine .ite (.throwAt _ _) (.bind (.read fun _ _ => rfl) fun depth => ?_)
        exact .ite (.throwAt _ _) (.deeper (ih.apply f args))
    · rw [Run.applyFunction]
      refine .bind (.update fun s b => InPlace.addCells s b _ _) fun names =>
        .bind (.of_inScope names _) fun flow => ?_
      exact .ite (.of_inScope _ _) (.pure _)

/-- Statements that declare nothing are in place, one after another. -/
theorem execAll_inPlace (n : Nat) {ts : List (Stmt ν)} (hts : ∀ t ∈ ts, t.Formed ∧ t.declares? = none) :
    InPlace (execAll n ts) := by
  induction n generalizing ts with
  | zero =>
    rw [execAll]
    exact .outOfFuel
  | succ n ih =>
    cases ts with
    | nil =>
      rw [execAll]
      exact .pure _
    | cons t ts =>
      rw [execAll]
      obtain ⟨hf, hd⟩ := hts t List.mem_cons_self
      refine .bind ((inPlaceRuns n).exec t hf hd) fun flow => ?_
      cases flow with
      | normal => exact ih fun t ht => hts t (List.mem_cons_of_mem _ ht)
      | returned v => exact .pure _

end

end Run

end Lox.Lexical
