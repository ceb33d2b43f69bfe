import Lox.Machine.Frames

/-!
# Frames, one operation at a time

What making and writing a frame does to the other frames, and where a name is found: at a known
distance, in the frame itself, or in a frame with nothing around it.
-/

namespace Lox.Frames

@[simp] theorem size_define (s : Frames) (f : FrameId) (x : String) (v : Value) :
    (s.define f x v).cells.size = s.cells.size := by
  simp [define]

@[simp] theorem size_add (s : Frames) (frame : Frame) :
    (s.add frame).2.cells.size = s.cells.size + 1 := by
  simp [add]

@[simp] theorem fst_add (s : Frames) (frame : Frame) : (s.add frame).1 = s.cells.size := rfl

theorem lookup?_add (s : Frames) (frame : Frame) (g : FrameId) (x : String) :
    (s.add frame).2.lookup? g x =
      if g = s.cells.size then frame.names.get? x else s.lookup? g x := by
  simp only [lookup?, add, Array.getElem?_push]
  split <;> simp

theorem enclosing?_add (s : Frames) (frame : Frame) (g : FrameId) :
    (s.add frame).2.enclosing? g =
      if g = s.cells.size then frame.enclosing else s.enclosing? g := by
  simp only [enclosing?, add, Array.getElem?_push]
  split <;> simp

theorem lt_size_of_enclosing? {s : Frames} {f g : FrameId} (h : s.enclosing? f = some g) :
    f < s.cells.size := by
  cases hf : s.cells[f]? with
  | none => simp [enclosing?, hf] at h
  | some frame => exact (Array.getElem?_eq_some_iff.1 hf).1

theorem lt_size_of_lookup? {s : Frames} {f : FrameId} {x : String}
    (h : (s.lookup? f x).isSome) : f < s.cells.size := by
  cases hf : s.cells[f]? with
  | none => simp [lookup?, hf] at h
  | some frame => exact (Array.getElem?_eq_some_iff.1 hf).1

theorem insertEntry_insertEntry (x : String) (u v : Value) (l : List (String × Value)) :
    Table.insertEntry x v (Table.insertEntry x u l) = Table.insertEntry x v l := by
  induction l with
  | nil => simp [Table.insertEntry]
  | cons p rest ih =>
    simp only [Table.insertEntry]
    split
    · rename_i h
      simp [Table.insertEntry, h]
    · rename_i h
      simp [Table.insertEntry, h, ih]

/-- The second of two writes to a name counts. -/
theorem define_define (s : Frames) (f : FrameId) (x : String) (u v : Value) :
    (s.define f x u).define f x v = s.define f x v := by
  unfold define
  rw [Frames.mk.injEq]
  apply Array.ext_getElem?
  intro i
  simp only [Array.getElem?_modify]
  split
  · cases s.cells[i]? with
    | none => rfl
    | some frame => simp [Table.insert, insertEntry_insertEntry]
  · rfl

/-- A frame can be made before or after a write to another one. -/
theorem define_add (s : Frames) {f : FrameId} (hf : f < s.cells.size) (frame : Frame) (x : String)
    (v : Value) : (s.add frame).2.define f x v = ((s.define f x v).add frame).2 := by
  unfold define add
  rw [Frames.mk.injEq]
  apply Array.ext_getElem?
  intro i
  simp only [Array.getElem?_modify, Array.getElem?_push, Array.size_modify]
  by_cases hi : i = s.cells.size
  · subst hi
    simp [Nat.ne_of_lt hf]
  · simp [hi]

/-! ## Finding a name -/

theorem locateAt_eq_ok {s : Frames} {f g : FrameId} {k : Nat} {x : String}
    (ha : s.ancestor? k f = some g) (hx : (s.lookup? g x).isSome) : s.locateAt f k x = .ok g := by
  simp [locateAt, ha, Option.filter, contains, hx]

theorem locateAt_eq_error {s : Frames} {f g : FrameId} {k : Nat} {x : String}
    (ha : s.ancestor? k f = some g) (hx : s.lookup? g x = none) :
    s.locateAt f k x = .error (.unresolvedVariable x k) := by
  simp [locateAt, ha, Option.filter, contains, hx]

theorem getAt_eq_ok {s : Frames} {f g : FrameId} {k : Nat} {x : String} {v : Value}
    (ha : s.ancestor? k f = some g) (hx : s.lookup? g x = some v) : s.getAt f k x = .ok v := by
  have h : s.locateAt f k x = .ok g := locateAt_eq_ok ha (by simp [hx])
  simp [getAt, h, Except.map, valueIn, hx]

/-- A search ends where it starts if the name is there. -/
theorem locate_self {s : Frames} {f : FrameId} {x : String} (hx : (s.lookup? f x).isSome) :
    s.locate f x = .ok f := by
  have h : s.holder? x f = some f := by
    have hlt := lt_size_of_lookup? hx
    unfold holder?
    cases hn : s.cells.size with
    | zero =>
      rw [hn] at hlt
      exact absurd hlt (Nat.not_lt_zero f)
    | succ n => simp [holderWithin?, contains, hx]
  simp [locate, h]

/-- A search fails in a frame without the name and with nothing around it. -/
theorem locate_none {s : Frames} {f : FrameId} {x : String} (he : s.enclosing? f = none)
    (hx : s.lookup? f x = none) : s.locate f x = .error (.undefinedVariable x) := by
  have h : s.holder? x f = none := by
    unfold holder?
    cases s.cells.size with
    | zero => rfl
    | succ n => simp [holderWithin?, contains, hx, he]
  simp [locate, h]

theorem get_self {s : Frames} {f : FrameId} {x : String} {v : Value}
    (hx : s.lookup? f x = some v) : s.get f x = .ok v := by
  have h : s.locate f x = .ok f := locate_self (by simp [hx])
  simp [get, h, Except.map, valueIn, hx]

theorem get_none {s : Frames} {f : FrameId} {x : String} (he : s.enclosing? f = none)
    (hx : s.lookup? f x = none) : s.get f x = .error (.undefinedVariable x) := by
  simp [get, locate_none he hx, Except.map]

end Lox.Frames
