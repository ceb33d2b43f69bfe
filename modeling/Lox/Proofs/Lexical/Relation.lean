import Mathlib.Data.Option.Basic
import Lox.Proofs.Execution.Frames
import Lox.Proofs.Lexical.Evaluator
import Lox.Proofs.Scoping.Places

/-!
# Frames against cells

How a machine with frames mirrors a state with cells. Functions, classes and objects are made in the
same order on both sides, so values are equal as they stand. A local name is a slot of a frame on one
side and a cell on the other; `Slots` pairs them off. A closure sees a chain of frames on one side
and a list of names on the other; `Chain` cuts the list into one segment for each frame, which holds
the names that the scope of the frame declares where the closure was made. The frame may come to hold
more names later on, and the segment does not.
-/

namespace Lox.Lexical

/-- The cell that stands for a name of a frame. -/
abbrev Slots := FrameId → String → Option CellId

section
variable (O : FrameId → Site ν → Prop)

/-- From a frame outwards: the scopes that the frames were made for, and the names seen there.
`O` says which scope a frame was made for. -/
inductive Chain (σ : Slots) (fr : Frames) : FrameId → Scopes ν → Names → Prop
  | global : Chain σ fr globalFrame [] []
  | scope {f g : FrameId} {sc : LexicalScope ν} {scs : Scopes ν} {seg ps : Names} :
      fr.enclosing? f = some g → O f sc.site → seg.map Prod.fst = sc.names →
      (∀ p ∈ seg, σ f p.1 = some p.2 ∧ (fr.lookup? f p.1).isSome) → Chain σ fr g scs ps →
      Chain σ fr f (sc :: scs) (seg ++ ps)

end

/-- Frames are only ever added and only ever gain names, and the frames with `p` gain none. -/
structure Grows (p : FrameId → Prop) (σ : Slots) (fr : Frames) (σ' : Slots) (fr' : Frames) : Prop where
  size : fr.cells.size ≤ fr'.cells.size
  enclosing : ∀ f < fr.cells.size, fr'.enclosing? f = fr.enclosing? f
  slots : ∀ f x c, σ f x = some c → σ' f x = some c
  names : ∀ f x, (fr.lookup? f x).isSome → (fr'.lookup? f x).isSome
  kept : ∀ f < fr.cells.size, p f →
    σ' f = σ f ∧ ∀ x, (fr'.lookup? f x).isSome = (fr.lookup? f x).isSome

namespace Grows

variable {p q : FrameId → Prop} {σ σ' σ'' : Slots} {fr fr' fr'' : Frames}

theorem refl : Grows p σ fr σ fr :=
  ⟨Nat.le_refl _, fun _ _ => rfl, fun _ _ _ h => h, fun _ _ h => h, fun _ _ _ => ⟨rfl, fun _ => rfl⟩⟩

theorem trans (h : Grows p σ fr σ' fr') (h' : Grows p σ' fr' σ'' fr'') : Grows p σ fr σ'' fr'' where
  size := Nat.le_trans h.size h'.size
  enclosing f hf := (h'.enclosing f (Nat.lt_of_lt_of_le hf h.size)).trans (h.enclosing f hf)
  slots f x c hc := h'.slots f x c (h.slots f x c hc)
  names f x hx := h'.names f x (h.names f x hx)
  kept f hf hp := by
    obtain ⟨hs, hx⟩ := h.kept f hf hp
    obtain ⟨hs', hx'⟩ := h'.kept f (Nat.lt_of_lt_of_le hf h.size) hp
    exact ⟨hs'.trans hs, fun x => (hx' x).trans (hx x)⟩

theorem weaken (h : Grows p σ fr σ' fr') (hq : ∀ f < fr.cells.size, q f → p f) :
    Grows q σ fr σ' fr' :=
  { h with kept := fun f hf hqf => h.kept f hf (hq f hf hqf) }

end Grows

section
variable {l : Names} {x : String} {c : CellId}

theorem mem_of_lookup (h : l.lookup x = some c) : (x, c) ∈ l := by
  obtain ⟨l₁, l₂, rfl, _⟩ := List.lookup_eq_some_iff.1 h
  simp

theorem exists_lookup (h : x ∈ l.map Prod.fst) : ∃ c, l.lookup x = some c := by
  obtain ⟨p, hp, rfl⟩ := List.mem_map.1 h
  exact Option.isSome_iff_exists.1 (List.lookup_isSome_iff.2 ⟨p, hp, by simp⟩)

theorem lookup_eq_none (h : x ∉ l.map Prod.fst) : l.lookup x = none := by
  rw [List.lookup_eq_none_iff]
  intro p hp
  have : x ≠ p.1 := by
    rintro rfl
    exact h (List.mem_map.2 ⟨p, hp, rfl⟩)
  simpa using this

end

namespace Chain

variable {O : FrameId → Site ν → Prop} {p : FrameId → Prop} {σ σ' : Slots} {fr fr' : Frames}
  {f : FrameId} {scs : Scopes ν} {ps : Names}

theorem mono (h : Chain O σ fr f scs ps) (hg : Grows p σ fr σ' fr') : Chain O σ' fr' f scs ps := by
  induction h with
  | global => exact .global
  | scope he ho hn hseg _ ih =>
    refine .scope ?_ ho hn (fun q hq => ?_) ih
    · rw [hg.enclosing _ (Frames.lt_size_of_enclosing? he), he]
    · exact ⟨hg.slots _ _ _ (hseg q hq).1, hg.names _ _ (hseg q hq).2⟩

theorem lt_size (h : Chain O σ fr f scs ps) (h0 : 0 < fr.cells.size) : f < fr.cells.size := by
  cases h with
  | global => exact h0
  | scope he => exact Frames.lt_size_of_enclosing? he

theorem local_iff (h : Chain O σ fr f scs ps) (h0 : fr.enclosing? globalFrame = none) :
    f = globalFrame ↔ scs = [] := by
  cases h with
  | global => simp
  | scope he =>
    simp only [reduceCtorEq, iff_false]
    rintro rfl
    rw [h0] at he
    cases he

/-- The innermost frame: it holds the names of its scope, and the chain goes on around it. -/
theorem inner {sc : LexicalScope ν} (h : Chain O σ fr f (sc :: scs) ps) :
    ∃ g qs, fr.enclosing? f = some g ∧ O f sc.site ∧ (∀ x ∈ sc.names, (fr.lookup? f x).isSome) ∧
      Chain O σ fr g scs qs := by
  cases h with
  | @scope _ g _ _ seg qs he ho hn hseg hchain =>
    refine ⟨g, qs, he, ho, fun x hx => ?_, hchain⟩
    obtain ⟨p, hp, rfl⟩ := List.mem_map.1 (hn ▸ hx)
    exact (hseg p hp).2

/-- The cell of a name, and the frame it is found in, at the distance of its scope. -/
theorem find (h : Chain O σ fr f scs ps) {x : String} {k : Nat} (hk : scs.distance? x = some k) :
    ∃ g sc c, fr.ancestor? k f = some g ∧ scs[k]? = some sc ∧ x ∈ sc.names ∧ O g sc.site ∧
      σ g x = some c ∧ (fr.lookup? g x).isSome ∧ ps.lookup x = some c := by
  induction h generalizing k with
  | global => simp [Scopes.distance?] at hk
  | @scope f g sc scs seg ps he ho hn hseg _ ih =>
    simp only [Scopes.distance?, List.findIdx?_cons] at hk
    by_cases hx : x ∈ sc.names
    · simp only [hx, decide_true, ↓reduceIte, Option.some.injEq] at hk
      subst hk
      obtain ⟨c, hc⟩ := exists_lookup (hn ▸ hx)
      obtain ⟨hslot, hbound⟩ := hseg (x, c) (mem_of_lookup hc)
      exact ⟨f, sc, c, rfl, rfl, hx, ho, hslot, hbound, by simp [List.lookup_append, hc]⟩
    · simp only [hx, decide_false, Bool.false_eq_true, ↓reduceIte, Option.map_eq_some_iff] at hk
      obtain ⟨j, hj, rfl⟩ := hk
      obtain ⟨g', sc', c, ha, hs, hx', ho', hslot, hbound, hl⟩ := ih hj
      have hseg : seg.lookup x = none := lookup_eq_none (hn ▸ hx)
      exact ⟨g', sc', c, by simp [Frames.ancestor?, he, ha], by simpa using hs, hx', ho', hslot,
        hbound, by simp [List.lookup_append, hseg, hl]⟩

/-- A name that no scope declares is not among the names. -/
theorem lookup_eq_none_of_distance? (h : Chain O σ fr f scs ps) {x : String}
    (hx : scs.distance? x = none) : ps.lookup x = none := by
  induction h with
  | global => rfl
  | @scope f g sc scs seg ps he ho hn hseg _ ih =>
    simp only [Scopes.distance?, List.findIdx?_cons] at hx
    by_cases hm : x ∈ sc.names
    · simp [hm] at hx
    · simp only [hm, decide_false, Bool.false_eq_true, ↓reduceIte, Option.map_eq_none_iff] at hx
      rw [List.lookup_append, lookup_eq_none (hn ▸ hm), ih hx]
      rfl

end Chain

/-! ## Functions and classes -/

section
variable (N : Place ν → Prop) (O : FrameId → Site ν → Prop) (σ : Slots) (fr : Frames)

/-- One function on both sides, made in the given scopes. -/
def Closure (scs : Scopes ν) (f : Lox.Function ν) (g : Function ν) : Prop :=
  g.decl = f.decl ∧ g.isInitializer = f.isInitializer ∧ Chain O σ fr f.closure scs g.names

/-- A method of a class, not bound to an object. -/
def MethodRel (f : Lox.Function ν) (g : Function ν) : Prop :=
  ∃ scs, Closure O σ fr scs f g ∧ Stmt.ScopedFun N (.ofReceiver f.decl :: scs) f.decl

/-- A function that can be called: initializers are bound to an object. -/
def FunctionRel (f : Lox.Function ν) (g : Function ν) : Prop :=
  ∃ scs, Closure O σ fr scs f g ∧ Stmt.ScopedFun N scs f.decl ∧
    (f.isInitializer = true → ∃ outer, scs = .ofReceiver f.decl :: outer)

structure ClassRel (c : Lox.Class ν) (c' : Class ν) : Prop where
  name : c'.name = c.name
  superclass : c'.superclass = c.superclass
  methods : ∀ x, Option.Rel (MethodRel N O σ fr) (c.methods.get? x) (c'.methods.get? x)

inductive CallableRel : Lox.Callable ν → Callable ν → Prop
  | native (f : Native) : CallableRel (.native f) (.native f)
  | function : FunctionRel N O σ fr f g → CallableRel (.function f) (.function g)
  | constructor : Option.Rel (MethodRel N O σ fr) f g →
      CallableRel (.constructor i f) (.constructor i g)

end

/-- A machine mirrors a state, except for where in the program each stands. -/
structure Mirrors (N : Place ν → Prop) (O : FrameId → Site ν → Prop) (σ : Slots) (m : Machine ν)
    (s : State ν) : Prop where
  nonempty : 0 < m.store.frames.cells.size
  outermost : m.store.frames.enclosing? globalFrame = none
  globals : ∀ x, m.store.frames.lookup? globalFrame x = s.globals.get? x
  slot_lt : ∀ f x c, σ f x = some c → f < m.store.frames.cells.size ∧ c < s.cells.size
  slot_value : ∀ f x c, σ f x = some c → s.cell? c = m.store.frames.lookup? f x
  slot_inj : ∀ f x g y c, σ f x = some c → σ g y = some c → f = g ∧ x = y
  slot_local : ∀ f x, (σ f x).isSome → f ≠ globalFrame
  named : ∀ f x, f ≠ globalFrame → (m.store.frames.lookup? f x).isSome → (σ f x).isSome
  functions_size : s.functions.size = m.store.functions.size
  functions : ∀ i : Nat, Option.Rel (FunctionRel N O σ m.store.frames) m.store.functions[i]?
    s.functions[i]?
  classes_size : s.classes.size = m.store.classes.size
  classes : ∀ i : Nat, Option.Rel (ClassRel N O σ m.store.frames) m.store.classes[i]? s.classes[i]?
  objects : s.objects = m.store.objects
  depth : s.depth = m.depth
  output : s.output = m.output
  clock : s.clock = m.clock

end Lox.Lexical
