import Lox.Proofs.Execution.Activations
import Lox.Proofs.Scoping.Formed

/-!
# What `this` and `super` hold

Code that comes from the grammar writes neither `this` nor `super`: only the frames made for a method
and for a subclass hold them, the one an object and the other a class. Its operators are operators,
so that applying them fails for the operands alone; and a class finds the name it was just given.
-/

namespace Lox

/-! ## Formed code -/

theorem Expr.FormedAll.of_mem {es : List (Expr ν)} (h : Expr.FormedAll es) {e : Expr ν} (he : e ∈ es) :
    e.Formed := by
  induction es with
  | nil => cases he
  | cons e' es ih =>
    rcases List.mem_cons.1 he with rfl | he
    · exact h.1
    · exact ih h.2 he

theorem Stmt.FormedAll.of_mem {ss : List (Stmt ν)} (h : Stmt.FormedAll ss) {s : Stmt ν} (hs : s ∈ ss) :
    s.Formed := by
  induction ss with
  | nil => cases hs
  | cons s' ss ih =>
    rcases List.mem_cons.1 hs with rfl | hs
    · exact h.1
    · exact ih h.2 hs

theorem Stmt.FormedFun.madeOf {f : FunDecl (Stmt ν)} (h : Stmt.FormedFun f) :
    f.MadeOf Plain Stmt.Formed := by
  obtain ⟨x, params, body⟩ := f
  exact ⟨h.1, fun t ht => h.2.of_mem ht⟩

theorem Stmt.FormedMethods.madeOf {ms : List (FunDecl (Stmt ν))} (h : Stmt.FormedMethods ms) :
    ∀ f ∈ ms, f.MadeOf Plain Stmt.Formed := by
  induction ms with
  | nil => simp
  | cons m ms ih =>
    intro f hf
    rcases List.mem_cons.1 hf with rfl | hf
    · exact h.1.madeOf
    · exact ih h.2 f hf

/-- The trees of the grammar. -/
def Code.formed (ν : Type) : Code ν where
  name := Plain
  expr := Expr.Formed
  stmt := Stmt.Formed
  assign h := h
  binary h := h.2
  call h := ⟨h.1, fun e he => h.2.of_mem he⟩
  get h := h
  grouping h := h
  logical h := h
  set h := h
  unary h := h.2
  block h t ht := Stmt.FormedAll.of_mem h ht
  classDecl {x parent methods} h := by
    refine ⟨h.1, ?_, h.2.2.madeOf⟩
    rintro e rfl
    obtain ⟨k, y, rfl⟩ := h.2.1
    trivial
  expression h := h
  function h := ⟨h.1, h.2.madeOf⟩
  conditional {c s t} h := by
    refine ⟨h.1, h.2.1.2, ?_⟩
    rintro u rfl
    exact h.2.2.2
  print h := h
  returning {kw e} h := by
    rintro u rfl
    exact h
  varDecl {x e} h := by
    refine ⟨h.1, ?_⟩
    rintro u rfl
    exact h.2
  loop h := ⟨h.1, h.2.2⟩

/-! ## Slots -/

/-- In every frame `this` is an object and `super` a class. -/
structure Store.Slotted (s : Store ν) : Prop where
  this : ∀ f v, s.frames.lookup? f "this" = some v → ∃ i, v = .objectRef i
  super : ∀ f v, s.frames.lookup? f "super" = some v → ∃ i, v = .classRef i

section
variable {C : Code ν} {s s' : Store ν}

/-- A new frame keeps the rule if its own names do. -/
theorem Store.Slotted.addFrame (h : s.Slotted) {frame : Frame}
    (hthis : ∀ v, frame.names.get? "this" = some v → ∃ i, v = .objectRef i)
    (hsuper : ∀ v, frame.names.get? "super" = some v → ∃ i, v = .classRef i) :
    (s.addFrame frame).2.Slotted := by
  have hlookup : ∀ f x, (s.addFrame frame).2.frames.lookup? f x =
      if f = s.frames.cells.size then frame.names.get? x else s.frames.lookup? f x :=
    Frames.lookup?_add s.frames frame
  constructor
  · intro f v hv
    rw [hlookup] at hv
    split at hv
    · exact hthis v hv
    · exact h.this f v hv
  · intro f v hv
    rw [hlookup] at hv
    split at hv
    · exact hsuper v hv
    · exact h.super f v hv

/-- One change by code that writes plain names only. -/
theorem Change.slotted (hname : ∀ x, C.name x → Plain x) (hc : Change C s s') (h : s.Slotted) :
    s'.Slotted := by
  cases hc with
  | @write f x v hx =>
    obtain ⟨hthis, hsuper⟩ := hname x hx
    constructor
    · intro g u hu
      simp only [Frames.lookup?_define, Ne.symm hthis, false_and, and_false, if_false] at hu
      exact h.this g u hu
    · intro g u hu
      simp only [Frames.lookup?_define, Ne.symm hsuper, false_and, and_false, if_false] at hu
      exact h.super g u hu
  | @frame e names hnames =>
    have hno : ∀ x v, names.get? x = some v → Plain x := by
      intro x v hv
      exact hname x (hnames x (by simp [Table.contains, hv]))
    exact h.addFrame (fun v hv => absurd rfl (hno _ v hv).1) fun v hv => absurd rfl (hno _ v hv).2
  | parent e p => exact h.addFrame (by simp) (by simp)
  | receiver f i => exact h.addFrame (by simp) (by simp)
  | function => exact ⟨h.this, h.super⟩
  | newClass => exact ⟨h.this, h.super⟩
  | object => exact ⟨h.this, h.super⟩
  | field => exact ⟨h.this, h.super⟩

theorem Changes.slotted (hname : ∀ x, C.name x → Plain x) (hc : Changes C s s') (h : s.Slotted) :
    s'.Slotted := by
  induction hc with
  | refl => exact h
  | tail _ hstep ih => exact hstep.slotted hname ih

end

/-! ## Operators and classes -/

namespace Exec

theorem applyUnary_ne {op : Token} (h : op.is .bang ∨ op.is .minus) (a : Value) :
    applyUnary op.kind a ≠ .error .unaryOperator := by
  rcases h with h | h
  · have hk : op.kind = .symbol .bang := by simpa [Token.is] using h
    simp [hk, applyUnary]
  · have hk : op.kind = .symbol .minus := by simpa [Token.is] using h
    cases a <;> simp [hk, applyUnary, negate]

theorem arithmetic_ne {operator : Symbol} (h : operator ∈ ([.minus, .star, .slash, .greater, .greaterEqual,
    .less, .lessEqual] : List Symbol)) (x y : Float) :
    arithmetic (.symbol operator) x y ≠ .error .binaryOperator := by
  simp only [List.mem_cons, List.not_mem_nil, or_false] at h
  rcases h with rfl | rfl | rfl | rfl | rfl | rfl | rfl <;> simp [arithmetic]

theorem applyBinary_ne {op : Token} {level : Grammar.Level} (h : level.operators.any op.is) (a b : Value) :
    applyBinary op.kind a b ≠ .error .binaryOperator := by
  obtain ⟨operator, hmem, hop⟩ := List.any_eq_true.1 h
  have hk : op.kind = .symbol operator := by simpa [Token.is] using hop
  rw [hk]
  unfold applyBinary
  split
  · unfold add
    split <;> simp
  · simp
  · simp
  · split
    · -- what is left are the operators on numbers
      refine arithmetic_ne ?_ _ _
      cases level <;> grind [Grammar.Level.operators]
    · simp

/-- In a frame that exists a class finds its own name. -/
theorem declareClass_done {m : Machine ν} (henv : m.env < m.store.frames.cells.size) (x : Token)
    (superclass : Option ClassId) (methods : List (FunDecl (Stmt ν))) :
    ∃ m', declareClass x superclass methods m = .done () m' := by
  have hname : (m.store.frames.define m.env x.lexeme .nil).lookup? m.env x.lexeme = some .nil := by
    simp [Frames.lookup?_define, henv]
  cases superclass with
  | none =>
    have hlocate := Frames.locate_self (f := m.env) (x := x.lexeme) (by rw [hname]; rfl)
    simp only [declareClass, bind_apply, define, read, updateStore, Store.addClass, assignIn,
      pure_apply, hlocate]
    exact ⟨_, rfl⟩
  | some p =>
    have hname' : (((m.store.frames.define m.env x.lexeme .nil).add
        ⟨Table.empty.insert "super" (.classRef p), some m.env⟩).2).lookup? m.env x.lexeme = some .nil := by
      rw [Frames.lookup?_add, if_neg (by simpa using Nat.ne_of_lt henv), hname]
    have hlocate := Frames.locate_self (f := m.env) (x := x.lexeme) (by rw [hname']; rfl)
    simp only [declareClass, bind_apply, define, read, newFrame, updateStore, Store.addFrame, Store.addClass,
      assignIn, hlocate]
    exact ⟨_, rfl⟩

end Exec

end Lox
