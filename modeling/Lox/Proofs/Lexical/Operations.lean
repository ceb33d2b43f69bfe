import Lox.Proofs.Lexical.Relation

/-!
# Operations on both sides

Each operation on a machine has its counterpart on a state, and the two keep the machine and the
state in step. Local names come down to two operations: a slot is reserved for a cell that is still
empty, and the value of a slot is written. A frame is opened empty and its names are declared one
after another.
-/

namespace Lox.Lexical

/-- The machine with other frames. -/
abbrev withFrames (m : Machine ν) (fr : Frames) : Machine ν :=
  { m with store := { m.store with frames := fr } }

/-- Pairs one more slot with a cell. -/
def Slots.set (σ : Slots) (f : FrameId) (x : String) (c : CellId) : Slots :=
  fun g y => if g = f ∧ y = x then some c else σ g y

section
variable {N : Place ν → Prop} {O : FrameId → Site ν → Prop} {p : FrameId → Prop} {σ σ' : Slots}
  {fr fr' : Frames}

/-! ## Growing frames -/

theorem Slots.set_self (σ : Slots) (f : FrameId) (x : String) (c : CellId) :
    σ.set f x c f x = some c := by
  simp [Slots.set]

theorem Slots.set_of_ne (σ : Slots) {f g : FrameId} (h : g ≠ f) (x : String) (c : CellId) :
    σ.set f x c g = σ g := by
  funext y
  simp [Slots.set, h]

theorem Slots.set_eq_some {f g : FrameId} {x y : String} {c c' : CellId}
    (h : σ.set f x c g y = some c') : (g = f ∧ y = x ∧ c' = c) ∨ σ g y = some c' := by
  unfold Slots.set at h
  split at h
  · rename_i hc
    exact .inl ⟨hc.1, hc.2, (Option.some.inj h).symm⟩
  · exact .inr h

theorem Slots.set_of_slot {f g : FrameId} {x y : String} {c d : CellId} (hx : σ f x = none)
    (h : σ g y = some d) : σ.set f x c g y = some d := by
  unfold Slots.set
  split
  · rename_i hc
    rw [hc.1, hc.2, hx] at h
    cases h
  · exact h

theorem Grows.define (σ : Slots) (fr : Frames) (f : FrameId) (x : String) (v : Value) :
    Grows (· ≠ f) σ fr σ (fr.define f x v) where
  size := by simp
  enclosing g _ := by simp
  slots _ _ _ h := h
  names g y h := by
    rw [Frames.lookup?_define]
    split
    · rfl
    · exact h
  kept g _ hg := ⟨rfl, fun y => by
    rw [Frames.lookup?_define]
    split
    · rename_i h
      exact absurd h.1 hg
    · rfl⟩

/-- Writing a name that is there adds no name. -/
theorem Grows.assign (σ : Slots) {fr : Frames} {f : FrameId} {x : String}
    (h : (fr.lookup? f x).isSome) (v : Value) : Grows (fun _ => True) σ fr σ (fr.define f x v) :=
  { Grows.define σ fr f x v with
    kept := fun g _ _ => ⟨rfl, fun y => by
      rw [Frames.lookup?_define]
      split
      · rename_i hc
        rw [hc.1, hc.2.1, h]
        rfl
      · rfl⟩ }

theorem Grows.reserve {f : FrameId} {x : String} (h : σ f x = none) (fr : Frames) (c : CellId) :
    Grows (· ≠ f) σ fr (σ.set f x c) fr where
  size := Nat.le_refl _
  enclosing _ _ := rfl
  slots _ _ _ hs := Slots.set_of_slot h hs
  names _ _ h := h
  kept _ _ hg := ⟨Slots.set_of_ne σ hg x c, fun _ => rfl⟩

theorem Grows.add (σ : Slots) (fr : Frames) (frame : Frame) :
    Grows (fun _ => True) σ fr σ (fr.add frame).2 where
  size := by simp
  enclosing g hg := by
    rw [Frames.enclosing?_add, if_neg (Nat.ne_of_lt hg)]
  slots _ _ _ h := h
  names g y h := by
    rw [Frames.lookup?_add, if_neg (Nat.ne_of_lt (Frames.lt_size_of_lookup? h))]
    exact h
  kept g hg _ := ⟨rfl, fun y => by rw [Frames.lookup?_add, if_neg (Nat.ne_of_lt hg)]⟩

/-- What happens to a frame that was not there does not count. -/
theorem Grows.trans_new {σ'' : Slots} {fr'' : Frames}
    (h : Grows (fun _ => True) σ fr σ' fr') (h' : Grows (· ≠ fr.cells.size) σ' fr' σ'' fr'') :
    Grows (fun _ => True) σ fr σ'' fr'' where
  size := Nat.le_trans h.size h'.size
  enclosing f hf := (h'.enclosing f (Nat.lt_of_lt_of_le hf h.size)).trans (h.enclosing f hf)
  slots f x c hc := h'.slots f x c (h.slots f x c hc)
  names f x hx := h'.names f x (h.names f x hx)
  kept f hf _ := by
    obtain ⟨hs, hx⟩ := h.kept f hf trivial
    obtain ⟨hs', hx'⟩ := h'.kept f (Nat.lt_of_lt_of_le hf h.size) (Nat.ne_of_lt hf)
    exact ⟨hs'.trans hs, fun x => (hx' x).trans (hx x)⟩

/-! ## Relations along growing frames -/

theorem Closure.mono {scs : Scopes ν} {f : Lox.Function ν} {g : Function ν}
    (h : Closure O σ fr scs f g) (hg : Grows p σ fr σ' fr') : Closure O σ' fr' scs f g :=
  ⟨h.1, h.2.1, h.2.2.mono hg⟩

theorem MethodRel.mono {f : Lox.Function ν} {g : Function ν} (h : MethodRel N O σ fr f g)
    (hg : Grows p σ fr σ' fr') : MethodRel N O σ' fr' f g := by
  obtain ⟨scs, hc, hs⟩ := h
  exact ⟨scs, hc.mono hg, hs⟩

theorem FunctionRel.mono {f : Lox.Function ν} {g : Function ν} (h : FunctionRel N O σ fr f g)
    (hg : Grows p σ fr σ' fr') : FunctionRel N O σ' fr' f g := by
  obtain ⟨scs, hc, hs, hi⟩ := h
  exact ⟨scs, hc.mono hg, hs, hi⟩

theorem rel_mono {α β : Type} {R R' : α → β → Prop} (h : ∀ a b, R a b → R' a b) {a : Option α}
    {b : Option β} (hr : Option.Rel R a b) : Option.Rel R' a b := by
  cases hr with
  | some hab => exact .some (h _ _ hab)
  | none => exact .none

theorem ClassRel.mono {c : Lox.Class ν} {c' : Class ν} (h : ClassRel N O σ fr c c')
    (hg : Grows p σ fr σ' fr') : ClassRel N O σ' fr' c c' :=
  { h with methods := fun x => rel_mono (fun _ _ hm => hm.mono hg) (h.methods x) }

end

namespace Mirrors

variable {N : Place ν → Prop} {O : FrameId → Site ν → Prop} {σ : Slots} {m : Machine ν} {s : State ν}

/-- Where a machine and a state stand does not matter. -/
theorem relocate (h : Mirrors N O σ m s) (f : FrameId) (names : Names) (b : Bool) :
    Mirrors N O σ { m with env := f } { s with names, isLocal := b } :=
  { h with }

/-! ## Names -/

theorem reserve (h : Mirrors N O σ m s) {f : FrameId} {x : String} (hf : f ≠ globalFrame)
    (hlt : f < m.store.frames.cells.size) (hx : σ f x = none) :
    Mirrors N O (σ.set f x s.cells.size) m { s with cells := s.cells.push none } := by
  have hg := Grows.reserve hx m.store.frames s.cells.size
  have hxn : m.store.frames.lookup? f x = none := by
    cases hl : m.store.frames.lookup? f x with
    | none => rfl
    | some v =>
      have := h.named f x hf (by simp [hl])
      simp [hx] at this
  refine { h with slot_lt := ?_, slot_value := ?_, slot_inj := ?_, slot_local := ?_, named := ?_,
                  functions := ?_, classes := ?_ }
  · intro g y c hc
    rcases Slots.set_eq_some hc with ⟨rfl, rfl, rfl⟩ | hc
    · exact ⟨hlt, by simp⟩
    · obtain ⟨h1, h2⟩ := h.slot_lt g y c hc
      exact ⟨h1, by simp only [Array.size_push]; exact Nat.lt_succ_of_lt h2⟩
  · intro g y c hc
    rcases Slots.set_eq_some hc with ⟨rfl, rfl, rfl⟩ | hc
    · simp [State.cell?, hxn]
    · have h2 := (h.slot_lt g y c hc).2
      rw [← h.slot_value g y c hc]
      simp [State.cell?, Array.getElem?_push, Nat.ne_of_lt h2]
  · intro g y g' y' c hc hc'
    rcases Slots.set_eq_some hc with ⟨rfl, rfl, rfl⟩ | hc1
    · rcases Slots.set_eq_some hc' with ⟨rfl, rfl, _⟩ | hc2
      · exact ⟨rfl, rfl⟩
      · exact absurd (h.slot_lt g' y' _ hc2).2 (Nat.lt_irrefl _)
    · rcases Slots.set_eq_some hc' with ⟨rfl, rfl, rfl⟩ | hc2
      · exact absurd (h.slot_lt g y _ hc1).2 (Nat.lt_irrefl _)
      · exact h.slot_inj g y g' y' c hc1 hc2
  · intro g y hs
    obtain ⟨c, hc⟩ := Option.isSome_iff_exists.1 hs
    rcases Slots.set_eq_some hc with ⟨rfl, rfl, rfl⟩ | hc
    · exact hf
    · exact h.slot_local g y (by simp [hc])
  · intro g y hg0 hl
    obtain ⟨c, hc⟩ := Option.isSome_iff_exists.1 (h.named g y hg0 hl)
    rw [Slots.set_of_slot hx hc]
    rfl
  · exact fun i => rel_mono (fun _ _ hr => hr.mono hg) (h.functions i)
  · exact fun i => rel_mono (fun _ _ hr => hr.mono hg) (h.classes i)

theorem write (h : Mirrors N O σ m s) {f : FrameId} {x : String} {c : CellId}
    (hc : σ f x = some c) (v : Value) :
    Mirrors N O σ (withFrames m (m.store.frames.define f x v))
      { s with cells := s.cells.setIfInBounds c (some v) } := by
  have hg := Grows.define σ m.store.frames f x v
  have hf := h.slot_local f x (by simp [hc])
  obtain ⟨hlt, hclt⟩ := h.slot_lt f x c hc
  refine { h with nonempty := ?_, outermost := ?_, globals := ?_, slot_lt := ?_, slot_value := ?_,
                  named := ?_, functions := ?_, classes := ?_ }
  · simpa using h.nonempty
  · simpa using h.outermost
  · intro y
    rw [Frames.lookup?_define, if_neg (fun hc => hf hc.1.symm), h.globals]
  · intro g y c' hc'
    simpa using h.slot_lt g y c' hc'
  · intro g y c' hc'
    rw [Frames.lookup?_define]
    by_cases he : g = f ∧ y = x
    · obtain ⟨rfl, rfl⟩ := he
      rw [hc] at hc'
      cases hc'
      simp [State.cell?, hclt, hlt]
    · have hne : c ≠ c' := by
        rintro rfl
        exact he (h.slot_inj g y f x c hc' hc)
      rw [if_neg (fun hn => he ⟨hn.1, hn.2.1⟩), ← h.slot_value g y c' hc']
      simp [State.cell?, hne]
  · intro g y hg0 hl
    rw [Frames.lookup?_define] at hl
    split at hl
    · rename_i hn
      rw [hn.1, hn.2.1, hc]
      rfl
    · exact h.named g y hg0 hl
  · exact fun i => rel_mono (fun _ _ hr => hr.mono hg) (h.functions i)
  · exact fun i => rel_mono (fun _ _ hr => hr.mono hg) (h.classes i)

theorem writeGlobal (h : Mirrors N O σ m s) (x : String) (v : Value) :
    Mirrors N O σ (withFrames m (m.store.frames.define globalFrame x v))
      { s with globals := s.globals.insert x v } := by
  have hg := Grows.define σ m.store.frames globalFrame x v
  refine { h with nonempty := ?_, outermost := ?_, globals := ?_, slot_lt := ?_, slot_value := ?_,
                  named := ?_, functions := ?_, classes := ?_ }
  · simpa using h.nonempty
  · simpa using h.outermost
  · intro y
    rw [Frames.lookup?_define, Table.get?_insert, h.globals]
    by_cases hy : y = x
    · simp [hy, show globalFrame < m.store.frames.cells.size from h.nonempty]
    · simp [hy]
  · intro g y c hc
    simpa using h.slot_lt g y c hc
  · intro g y c hc
    have hg0 := h.slot_local g y (by simp [hc])
    rw [Frames.lookup?_define, if_neg (fun hn => hg0 hn.1)]
    exact h.slot_value g y c hc
  · intro g y hg0 hl
    rw [Frames.lookup?_define, if_neg (fun hn => hg0 hn.1)] at hl
    exact h.named g y hg0 hl
  · exact fun i => rel_mono (fun _ _ hr => hr.mono hg) (h.functions i)
  · exact fun i => rel_mono (fun _ _ hr => hr.mono hg) (h.classes i)

/-- Declaring a local name: its slot is reserved and then written. -/
theorem declare (h : Mirrors N O σ m s) {f : FrameId} {x : String} (hf : f ≠ globalFrame)
    (hlt : f < m.store.frames.cells.size) (hx : σ f x = none) (v : Value) :
    Mirrors N O (σ.set f x s.cells.size) (withFrames m (m.store.frames.define f x v))
      { s with cells := s.cells.push (some v) } := by
  have hw := (h.reserve hf hlt hx).write (Slots.set_self σ f x s.cells.size) v
  have hc : (s.cells.push none).setIfInBounds s.cells.size (some v) = s.cells.push (some v) := by
    apply Array.ext_getElem?
    intro i
    rw [Array.getElem?_setIfInBounds, Array.getElem?_push, Array.getElem?_push]
    by_cases hi : i = s.cells.size
    · subst hi
      simp
    · simp [hi, Ne.symm hi]
  rw [hc] at hw
  exact hw

theorem openEmpty (h : Mirrors N O σ m s) (e : FrameId) :
    Mirrors N O σ (withFrames m (m.store.frames.add ⟨Table.empty, some e⟩).2) s := by
  have hg := Grows.add σ m.store.frames ⟨Table.empty, some e⟩
  have hlook : ∀ f x, (m.store.frames.add ⟨Table.empty, some e⟩).2.lookup? f x =
      m.store.frames.lookup? f x := by
    intro f x
    rw [Frames.lookup?_add]
    split
    · rename_i hf
      cases hl : m.store.frames.lookup? f x with
      | none => rfl
      | some v =>
        have := Frames.lt_size_of_lookup? (s := m.store.frames) (f := f) (x := x) (by simp [hl])
        rw [hf] at this
        exact absurd this (Nat.lt_irrefl _)
    · rfl
  refine { h with nonempty := ?_, outermost := ?_, globals := ?_, slot_lt := ?_, slot_value := ?_,
                  named := ?_, functions := ?_, classes := ?_ }
  · exact Nat.lt_of_lt_of_le h.nonempty hg.size
  · exact (hg.enclosing globalFrame h.nonempty).trans h.outermost
  · exact fun x => (hlook _ x).trans (h.globals x)
  · intro f x c hc
    obtain ⟨h1, h2⟩ := h.slot_lt f x c hc
    exact ⟨Nat.lt_of_lt_of_le h1 hg.size, h2⟩
  · exact fun f x c hc => (h.slot_value f x c hc).trans (hlook f x).symm
  · intro f x hf hl
    rw [hlook] at hl
    exact h.named f x hf hl
  · exact fun i => rel_mono (fun _ _ hr => hr.mono hg) (h.functions i)
  · exact fun i => rel_mono (fun _ _ hr => hr.mono hg) (h.classes i)

end Mirrors

/-! ## Frames with names -/

/-- Defines names in one frame, one after another. -/
def defineAll (fr : Frames) (f : FrameId) (pairs : List (String × Value)) : Frames :=
  pairs.foldl (fun fr p => fr.define f p.1 p.2) fr

/-- A frame with names is an empty frame in which the names are then defined. -/
theorem add_eq_defineAll (fr : Frames) (t : Table Value) (e : Option FrameId)
    (pairs : List (String × Value)) :
    (fr.add ⟨t.insertAll pairs, e⟩).2 = defineAll (fr.add ⟨t, e⟩).2 fr.cells.size pairs := by
  induction pairs generalizing t with
  | nil => rfl
  | cons p rest ih =>
    have hp : (fr.add ⟨t.insert p.1 p.2, e⟩).2 =
        (fr.add ⟨t, e⟩).2.define fr.cells.size p.1 p.2 := by
      simp only [Frames.add, Frames.define, Frames.mk.injEq]
      apply Array.ext_getElem?
      intro i
      simp only [Array.getElem?_push, Array.getElem?_modify]
      split <;> simp_all
    have hstep := ih (t.insert p.1 p.2)
    rw [hp] at hstep
    exact hstep

theorem addCells_cells (s : State ν) (pairs : List (String × Value)) (names : Names) :
    ∃ cells, (s.addCells pairs names).2 = { s with cells } := by
  induction pairs generalizing s names with
  | nil => exact ⟨s.cells, rfl⟩
  | cons p rest ih =>
    obtain ⟨cells, h⟩ := ih (s.addCell p.1 (some p.2) names).2 ((p.1, s.cells.size) :: names)
    exact ⟨cells, h⟩

namespace Mirrors

variable {N : Place ν → Prop} {O : FrameId → Site ν → Prop} {σ : Slots} {m : Machine ν} {s : State ν}

/-- Names declared in one frame, and what becomes of the frame's slots. -/
theorem declareAll (h : Mirrors N O σ m s) {f : FrameId} (hf : f ≠ globalFrame)
    (hlt : f < m.store.frames.cells.size) (pairs : List (String × Value))
    (hnd : (pairs.map Prod.fst).Nodup) (hx : ∀ p ∈ pairs, σ f p.1 = none) (names : Names) :
    ∃ seg σ', (s.addCells pairs names).1 = seg ++ names ∧
      seg.map Prod.fst = (pairs.map Prod.fst).reverse ∧
      Mirrors N O σ' (withFrames m (defineAll m.store.frames f pairs)) (s.addCells pairs names).2 ∧
      Grows (· ≠ f) σ m.store.frames σ' (defineAll m.store.frames f pairs) ∧
      (∀ p ∈ seg, σ' f p.1 = some p.2 ∧
        ((defineAll m.store.frames f pairs).lookup? f p.1).isSome) ∧
      ∀ x, (σ' f x).isSome → (σ f x).isSome ∨ x ∈ pairs.map Prod.fst := by
  induction pairs generalizing σ m s names with
  | nil =>
    exact ⟨[], σ, rfl, rfl, h, .refl, by simp, fun x hx => .inl hx⟩
  | cons p rest ih =>
    simp only [List.map_cons, List.nodup_cons] at hnd
    have hd := h.declare hf hlt (hx p (by simp)) p.2
    have hg : Grows (· ≠ f) σ m.store.frames (σ.set f p.1 s.cells.size)
        (m.store.frames.define f p.1 p.2) :=
      (Grows.reserve (hx p (by simp)) m.store.frames s.cells.size).trans (Grows.define _ _ _ _ _)
    have hx' : ∀ q ∈ rest, σ.set f p.1 s.cells.size f q.1 = none := by
      intro q hq
      have hne : q.1 ≠ p.1 := by
        intro he
        exact hnd.1 (he ▸ List.mem_map.2 ⟨q, hq, rfl⟩)
      simp [Slots.set, hne, hx q (by simp [hq])]
    obtain ⟨seg, σ', h1, h2, h3, h4, h5, h6⟩ := ih hd (by simpa using hlt) hnd.2 hx'
      ((p.1, s.cells.size) :: names)
    refine ⟨seg ++ [(p.1, s.cells.size)], σ', ?_, by simp [h2], h3, hg.trans h4, ?_, ?_⟩
    · rw [List.append_assoc]
      exact h1
    · intro q hq
      rw [List.mem_append, List.mem_singleton] at hq
      rcases hq with hq | rfl
      · exact h5 q hq
      · refine ⟨h4.slots _ _ _ (Slots.set_self σ f p.1 s.cells.size), h4.names _ _ ?_⟩
        simp [Frames.lookup?_define, hlt]
    · intro x hxs
      rcases h6 x hxs with hs | hm
      · obtain ⟨c, hc⟩ := Option.isSome_iff_exists.1 hs
        rcases Slots.set_eq_some hc with ⟨_, rfl, _⟩ | hc
        · exact .inr (by simp)
        · exact .inl (by simp [hc])
      · exact .inr (by simp only [List.map_cons, List.mem_cons]; exact .inr hm)

/-- A new frame that holds the given names, and new cells for them. -/
theorem openFrame (h : Mirrors N O σ m s) (pairs : List (String × Value))
    (hnd : (pairs.map Prod.fst).Nodup) (e : FrameId) (names : Names) :
    let fr' := (m.store.frames.add ⟨Table.empty.insertAll pairs, some e⟩).2
    ∃ seg σ', (s.addCells pairs names).1 = seg ++ names ∧
      seg.map Prod.fst = (pairs.map Prod.fst).reverse ∧
      Mirrors N O σ' (withFrames m fr') (s.addCells pairs names).2 ∧
      Grows (fun _ => True) σ m.store.frames σ' fr' ∧
      fr'.enclosing? m.store.frames.cells.size = some e ∧
      (∀ p ∈ seg, σ' m.store.frames.cells.size p.1 = some p.2 ∧
        (fr'.lookup? m.store.frames.cells.size p.1).isSome) ∧
      ∀ x, (σ' m.store.frames.cells.size x).isSome → x ∈ pairs.map Prod.fst := by
  intro fr'
  have hslot : ∀ x, σ m.store.frames.cells.size x = none := by
    intro x
    cases hc : σ m.store.frames.cells.size x with
    | none => rfl
    | some c => exact absurd (h.slot_lt _ x c hc).1 (Nat.lt_irrefl _)
  have hf : m.store.frames.cells.size ≠ globalFrame := Nat.ne_of_gt h.nonempty
  obtain ⟨seg, σ', h1, h2, h3, h4, h5, h6⟩ := (h.openEmpty e).declareAll hf (by simp) pairs hnd
    (fun p _ => hslot p.1) names
  have hfr : defineAll (m.store.frames.add ⟨Table.empty, some e⟩).2 m.store.frames.cells.size pairs
      = fr' := (add_eq_defineAll m.store.frames Table.empty (some e) pairs).symm
  simp only [hfr] at h3 h4 h5
  refine ⟨seg, σ', h1, h2, h3, ?_, ?_, h5, ?_⟩
  · exact (Grows.add σ m.store.frames ⟨Table.empty, some e⟩).trans_new h4
  · simp [fr', Frames.enclosing?_add]
  · intro x hx
    rcases h6 x hx with hs | hm
    · simp [hslot] at hs
    · exact hm

/-! ## Functions, classes and objects -/

theorem getElem?_push_rel {α β : Type} {R : α → β → Prop} {as : Array α} {bs : Array β}
    (hs : bs.size = as.size) (h : ∀ i : Nat, Option.Rel R as[i]? bs[i]?) {a : α} {b : β} (hab : R a b)
    (i : Nat) : Option.Rel R (as.push a)[i]? (bs.push b)[i]? := by
  rw [Array.getElem?_push, Array.getElem?_push, hs]
  split
  · exact .some hab
  · exact h i

theorem addFunction (h : Mirrors N O σ m s) {f : Lox.Function ν} {g : Function ν}
    (hr : FunctionRel N O σ m.store.frames f g) :
    Mirrors N O σ { m with store := (m.store.addFunction f).2 }
      { s with functions := s.functions.push g } :=
  { h with
    functions_size := by simp [Store.addFunction, h.functions_size]
    functions := getElem?_push_rel h.functions_size h.functions hr }

theorem addClass (h : Mirrors N O σ m s) {c : Lox.Class ν} {c' : Class ν}
    (hr : ClassRel N O σ m.store.frames c c') :
    Mirrors N O σ { m with store := (m.store.addClass c).2 }
      { s with classes := s.classes.push c' } :=
  { h with
    classes_size := by simp [Store.addClass, h.classes_size]
    classes := getElem?_push_rel h.classes_size h.classes hr }

theorem addObject (h : Mirrors N O σ m s) (o : Object) :
    Mirrors N O σ { m with store := (m.store.addObject o).2 }
      { s with objects := s.objects.push o } :=
  { h with objects := by simp [Store.addObject, h.objects] }

theorem setField (h : Mirrors N O σ m s) (i : ObjectId) (x : String) (v : Value) :
    Mirrors N O σ { m with store := m.store.setField i x v }
      { s with objects := s.objects.modify i fun o => { o with fields := o.fields.insert x v } } :=
  { h with objects := by simp [Store.setField, h.objects] }

/-- A method is bound to an object: a frame around its closure, a cell in front of its names. -/
theorem bindMethod (h : Mirrors N O σ m s) {f : Lox.Function ν} {g : Function ν}
    (hr : MethodRel N O σ m.store.frames f g) (this : ObjectId)
    (ho : O m.store.frames.cells.size (.receiver f.decl)) :
    ∃ σ', Mirrors N O σ' { m with store := (m.store.bindMethod f this).2 } (s.bindMethod g this).2 ∧
      Grows (fun _ => True) σ m.store.frames σ' (m.store.bindMethod f this).2.frames ∧
      FunctionRel N O σ' (m.store.bindMethod f this).2.frames (m.store.bindMethod f this).1
        (s.bindMethod g this).1 := by
  obtain ⟨scs, ⟨hdecl, hinit, hchain⟩, hscoped⟩ := hr
  obtain ⟨seg, σ', h1, h2, h3, h4, h5, h6, -⟩ :=
    h.openFrame [("this", .objectRef this)] (by simp) f.closure g.names
  refine ⟨σ', h3, h4, .ofReceiver f.decl :: scs, ⟨hdecl, hinit, ?_⟩, hscoped, fun _ => ⟨scs, rfl⟩⟩
  have hnames : (s.bindMethod g this).1.names = seg ++ g.names := h1
  rw [hnames]
  exact .scope h5 ho h2 h6 (hchain.mono h4)

theorem methodWithin (h : Mirrors N O σ m s) (x : String) (fuel : Nat) (i : ClassId) :
    Option.Rel (MethodRel N O σ m.store.frames) (m.store.methodWithin? x fuel i)
      (s.methodWithin? x fuel i) := by
  induction fuel generalizing i with
  | zero => exact .none
  | succ n ih =>
    have hc := h.classes i
    simp only [Store.methodWithin?, State.methodWithin?]
    revert hc
    generalize m.store.classes[i]? = a
    generalize s.classes[i]? = b
    intro hc
    cases hc with
    | none => exact .none
    | @some c c' hr =>
      have hm := hr.methods x
      simp only [Option.bind_some, hr.superclass]
      revert hm
      generalize c.methods.get? x = f
      generalize c'.methods.get? x = g
      intro hm
      cases hm with
      | some hfg => exact .some hfg
      | none =>
        cases c.superclass with
        | none => exact .none
        | some j => exact ih j

theorem method (h : Mirrors N O σ m s) (i : ClassId) (x : String) :
    Option.Rel (MethodRel N O σ m.store.frames) (m.store.method? i x) (s.method? i x) := by
  unfold Store.method? State.method?
  rw [h.classes_size]
  exact h.methodWithin x m.store.classes.size i

theorem callable (h : Mirrors N O σ m s) (v : Value) :
    Option.Rel (CallableRel N O σ m.store.frames) (Lox.Callable.of? m.store v)
      (Callable.of? s v) := by
  cases v with
  | native f => exact .some (.native f)
  | functionRef i =>
    have hf := h.functions i
    simp only [Lox.Callable.of?, Callable.of?]
    revert hf
    generalize m.store.functions[i]? = a
    generalize s.functions[i]? = b
    intro hf
    cases hf with
    | some hr => exact .some (.function hr)
    | none => exact .none
  | classRef i => exact .some (.constructor (h.method i "init"))
  | nil => exact .none
  | bool b => exact .none
  | number x => exact .none
  | string t => exact .none
  | objectRef i => exact .none

theorem className (h : Mirrors N O σ m s) (i : ClassId) : s.className i = m.store.className i := by
  have hc := h.classes i
  unfold State.className Store.className
  revert hc
  generalize m.store.classes[i]? = a
  generalize s.classes[i]? = b
  intro hc
  cases hc with
  | some hr => exact hr.name
  | none => rfl

theorem text (h : Mirrors N O σ m s) (v : Value) : s.text v = m.store.text v := by
  cases v with
  | functionRef i =>
    have hf := h.functions i
    simp only [State.text, Store.text]
    revert hf
    generalize m.store.functions[i]? = a
    generalize s.functions[i]? = b
    intro hf
    cases hf with
    | some hr =>
      obtain ⟨scs, hc, -⟩ := hr
      simp [hc.1, Lox.Function.name]
    | none => rfl
  | classRef i => exact h.className i
  | objectRef i => simp only [State.text, Store.text, h.objects, h.className]
  | nil => rfl
  | bool b => rfl
  | number x => rfl
  | string t => rfl
  | native f => rfl

end Mirrors

end Lox.Lexical
