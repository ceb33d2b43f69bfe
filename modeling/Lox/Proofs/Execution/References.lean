import Lox.Proofs.Execution.Changes

/-!
# References and links

Values refer to functions, classes and objects, frames to the frame around them, classes to their
superclass, functions to the frame they were declared in. In a sound store all of these are there, and the
links between frames and between classes lead to something older. A change keeps the store sound if what it
puts there refers to what is there (`Sound.write` and the others below it), and no change alters what was
fixed when it was made: `Change.keeps`.
-/

namespace Lox

namespace Store

/-- What a value refers to is there. -/
def Has (s : Store ν) : Value → Prop
  | .functionRef i => i < s.functions.size
  | .classRef i => i < s.classes.size
  | .objectRef i => i < s.objects.size
  | _ => True

/-- What the values of a table refer to is there. -/
def HasAll (s : Store ν) (t : Table Value) : Prop := ∀ x v, t.get? x = some v → s.Has v

/-- A frame whose references are good and whose link leads back. Nothing is around the global frame only. -/
structure SoundFrame (s : Store ν) (f : FrameId) (frame : Frame) : Prop where
  names : s.HasAll frame.names
  enclosing : ∀ e ∈ frame.enclosing, e < f
  root : frame.enclosing = none ↔ f = globalFrame

/-- A class whose superclass is older and whose methods have their frames. -/
structure SoundClass (s : Store ν) (i : ClassId) (c : Class ν) : Prop where
  superclass : ∀ p ∈ c.superclass, p < i
  methods : ∀ q ∈ c.methods.entries, q.2.closure < s.frames.cells.size

structure SoundObject (s : Store ν) (o : Object) : Prop where
  classId : o.classId < s.classes.size
  fields : s.HasAll o.fields

/-- All references are good, and all links lead back. -/
structure Sound (s : Store ν) : Prop where
  global : globalFrame < s.frames.cells.size
  frames : ∀ (f : Nat) frame, s.frames.cells[f]? = some frame → s.SoundFrame f frame
  functions : ∀ (i : Nat) f, s.functions[i]? = some f → f.closure < s.frames.cells.size
  classes : ∀ (i : Nat) c, s.classes[i]? = some c → s.SoundClass i c
  objects : ∀ (i : Nat) o, s.objects[i]? = some o → s.SoundObject o

variable {s s' : Store ν} {v : Value}

theorem Has.mono (h : s.Grows s') (hv : s.Has v) : s'.Has v := by
  cases v with
  | functionRef i => exact Nat.lt_of_lt_of_le hv h.functions
  | classRef i => exact Nat.lt_of_lt_of_le hv h.classes
  | objectRef i => exact Nat.lt_of_lt_of_le hv h.objects
  | _ => trivial

theorem HasAll.mono {t : Table Value} (h : s.Grows s') (ht : s.HasAll t) : s'.HasAll t :=
  fun x v hv => (ht x v hv).mono h

theorem HasAll.empty : s.HasAll .empty := fun _ _ hv => nomatch hv

theorem HasAll.insert {t : Table Value} (ht : s.HasAll t) (x : String) (hv : s.Has v) :
    s.HasAll (t.insert x v) := by
  intro y u hu
  rw [Table.get?_insert] at hu
  split at hu
  · cases hu
    exact hv
  · exact ht y u hu

theorem SoundFrame.mono {f : FrameId} {frame : Frame} (hg : s.Grows s') (h : s.SoundFrame f frame) :
    s'.SoundFrame f frame :=
  ⟨h.names.mono hg, h.enclosing, h.root⟩

theorem SoundClass.mono {i : ClassId} {c : Class ν} (hg : s.Grows s') (h : s.SoundClass i c) :
    s'.SoundClass i c :=
  ⟨h.superclass, fun q hq => Nat.lt_of_lt_of_le (h.methods q hq) hg.frames⟩

theorem SoundObject.mono {o : Object} (hg : s.Grows s') (h : s.SoundObject o) : s'.SoundObject o :=
  ⟨Nat.lt_of_lt_of_le h.classId hg.classes, h.fields.mono hg⟩

/-! ## One change at a time -/

/-- What holds of all elements of an array and of one more holds after this one is pushed. -/
theorem forall_push {P : Nat → α → Prop} {xs : Array α} {y : α} (h : ∀ (i : Nat) x, xs[i]? = some x → P i x)
    (hy : P xs.size y) (i : Nat) (x : α) (hx : (xs.push y)[i]? = some x) : P i x := by
  rw [Array.getElem?_push] at hx
  split at hx
  · next hi =>
    cases hx
    exact hi ▸ hy
  · exact h i x hx

/-- What holds of all elements of an array holds after one was modified if it is kept there. -/
theorem forall_modify {P : Nat → α → Prop} {xs : Array α} {j : Nat} {g : α → α}
    (h : ∀ (i : Nat) x, xs[i]? = some x → P i x) (hg : ∀ x, P j x → P j (g x)) (i : Nat) (x : α)
    (hx : (xs.modify j g)[i]? = some x) : P i x := by
  rw [Array.getElem?_modify] at hx
  split at hx
  · next hi =>
    subst hi
    obtain ⟨y, hy, rfl⟩ := Option.map_eq_some_iff.1 hx
    exact hg y (h j y hy)
  · exact h i x hx

namespace Sound

/-- A store that grew is sound if its parts are, those that were there before being so already. -/
theorem of_grows (h : s.Sound) (hg : s.Grows s')
    (hframes : (∀ (f : Nat) frame, s.frames.cells[f]? = some frame → s'.SoundFrame f frame) →
      ∀ (f : Nat) frame, s'.frames.cells[f]? = some frame → s'.SoundFrame f frame)
    (hfunctions : (∀ (i : Nat) f, s.functions[i]? = some f → f.closure < s'.frames.cells.size) →
      ∀ (i : Nat) f, s'.functions[i]? = some f → f.closure < s'.frames.cells.size)
    (hclasses : (∀ (i : Nat) c, s.classes[i]? = some c → s'.SoundClass i c) →
      ∀ (i : Nat) c, s'.classes[i]? = some c → s'.SoundClass i c)
    (hobjects : (∀ (i : Nat) o, s.objects[i]? = some o → s'.SoundObject o) →
      ∀ (i : Nat) o, s'.objects[i]? = some o → s'.SoundObject o) : s'.Sound where
  global := Nat.lt_of_lt_of_le h.global hg.frames
  frames := hframes fun f frame hf => (h.frames f frame hf).mono hg
  functions := hfunctions fun i f hf => Nat.lt_of_lt_of_le (h.functions i f hf) hg.frames
  classes := hclasses fun i c hc => (h.classes i c hc).mono hg
  objects := hobjects fun i o ho => (h.objects i o ho).mono hg

theorem write (h : s.Sound) (f : FrameId) (x : String) (hv : s.Has v) :
    Store.Sound { s with frames := s.frames.define f x v } := by
  have hg : s.Grows { s with frames := s.frames.define f x v } :=
    Change.grows (.write (C := .all ν) f v trivial)
  refine h.of_grows hg (fun hold => ?_) id id id
  exact forall_modify hold fun frame hf => ⟨hf.names.insert x (hv.mono hg), hf.enclosing, hf.root⟩

theorem addFrame (h : s.Sound) {e : FrameId} {names : Table Value} (he : e < s.frames.cells.size)
    (hn : s.HasAll names) : (s.addFrame ⟨names, some e⟩).2.Sound := by
  have hg : s.Grows (s.addFrame ⟨names, some e⟩).2 :=
    Change.grows (.frame (C := .all ν) e fun _ _ => trivial)
  refine h.of_grows hg (fun hold => forall_push hold ⟨hn.mono hg, ?_, ?_⟩) id id id
  · intro e' he'
    cases he'
    exact he
  · have hne : s.frames.cells.size ≠ globalFrame := Nat.ne_of_gt h.global
    simp [hne]

theorem addFunction (h : s.Sound) {f : Function ν} (hf : f.closure < s.frames.cells.size) :
    (s.addFunction f).2.Sound := by
  have hg : s.Grows (s.addFunction f).2 :=
    Change.grows (.function (C := .all ν) (Code.task_all (.applyFunction f [])))
  exact h.of_grows hg id (fun hold => forall_push hold hf) id id

theorem addClass (h : s.Sound) {c : Class ν} (hc : s.SoundClass s.classes.size c) :
    (s.addClass c).2.Sound := by
  have hg : s.Grows (s.addClass c).2 :=
    Change.grows (.newClass (C := .all ν) fun p _ => Code.task_all (.applyFunction p.2 []))
  exact h.of_grows hg id id (fun hold => forall_push hold (hc.mono hg)) id

theorem addObject (h : s.Sound) {o : Object} (ho : s.SoundObject o) : (s.addObject o).2.Sound := by
  have hg : s.Grows (s.addObject o).2 := Change.grows (.object (C := .all ν) o)
  exact h.of_grows hg id id id fun hold => forall_push hold (ho.mono hg)

theorem setField (h : s.Sound) (i : ObjectId) (x : String) (hv : s.Has v) : (s.setField i x v).Sound := by
  have hg : s.Grows (s.setField i x v) := Change.grows (.field (C := .all ν) i x v)
  refine h.of_grows hg id id id fun hold => ?_
  exact forall_modify hold fun o ho => ⟨ho.classId, ho.fields.insert x (hv.mono hg)⟩

theorem bindMethod (h : s.Sound) {f : Function ν} (hf : f.closure < s.frames.cells.size)
    {this : ObjectId} (hthis : this < s.objects.size) : (s.bindMethod f this).2.Sound :=
  h.addFrame hf (HasAll.empty.insert "this" hthis)

/-! ## Reading a sound store -/

theorem lookup (h : s.Sound) {f : FrameId} {x : String} (hv : s.frames.lookup? f x = some v) : s.Has v := by
  obtain ⟨frame, hf, hx⟩ := Option.bind_eq_some_iff.1 hv
  exact (h.frames f frame hf).names x v hx

theorem valueIn (h : s.Sound) (x : String) (f : FrameId) : s.Has (s.frames.valueIn x f) := by
  unfold Frames.valueIn
  cases hv : s.frames.lookup? f x with
  | none => trivial
  | some v => exact h.lookup hv

/-- A value that was found in a frame, however its frame was found. -/
theorem found (h : s.Sound) {x : String} {r : Except RuntimeFault FrameId}
    (hv : r.map (s.frames.valueIn x) = .ok v) : s.Has v := by
  cases r with
  | ok f =>
    cases hv
    exact h.valueIn x f
  | error cause => cases hv

theorem method (h : s.Sound) {i : ClassId} {x : String} {f : Function ν} (hf : s.method? i x = some f) :
    f.closure < s.frames.cells.size := by
  obtain ⟨j, c, hc, hmem⟩ := Store.mem_of_methodWithin? hf
  exact (h.classes j c hc).methods _ hmem

theorem field (h : s.Sound) {i : ObjectId} {x : String} (hv : s.property i x = .field v) : s.Has v := by
  unfold Store.property at hv
  split at hv
  · cases hv
  · next o ho =>
    split at hv
    · next u hu =>
      cases hv
      exact (h.objects i o ho).fields x v hu
    · split at hv <;> cases hv

end Sound

end Store

/-! ## What no change alters -/

/-- What is there stays as it was made: the link of a frame, functions and classes as a whole, the class of
an object. Names of frames and fields of objects may be added. -/
structure Store.Keeps (s s' : Store ν) : Prop where
  frames : ∀ (f : Nat) frame, s.frames.cells[f]? = some frame → ∃ frame', s'.frames.cells[f]? = some frame' ∧
    frame'.enclosing = frame.enclosing ∧ ∀ x, frame.names.contains x = true → frame'.names.contains x = true
  functions : ∀ (i : Nat) f, s.functions[i]? = some f → s'.functions[i]? = some f
  classes : ∀ (i : Nat) c, s.classes[i]? = some c → s'.classes[i]? = some c
  objects : ∀ (i : Nat) o, s.objects[i]? = some o → ∃ o', s'.objects[i]? = some o' ∧
    o'.classId = o.classId ∧ ∀ x, o.fields.contains x = true → o'.fields.contains x = true

namespace Store.Keeps

variable {s s' s'' : Store ν}

theorem refl : s.Keeps s :=
  ⟨fun _ frame hf => ⟨frame, hf, rfl, fun _ h => h⟩, fun _ _ h => h, fun _ _ h => h,
    fun _ o ho => ⟨o, ho, rfl, fun _ h => h⟩⟩

theorem trans (h : s.Keeps s') (h' : s'.Keeps s'') : s.Keeps s'' where
  frames f frame hf := by
    obtain ⟨frame', hf', he, hn⟩ := h.frames f frame hf
    obtain ⟨frame'', hf'', he', hn'⟩ := h'.frames f frame' hf'
    exact ⟨frame'', hf'', he'.trans he, fun x hx => hn' x (hn x hx)⟩
  functions i f hf := h'.functions i f (h.functions i f hf)
  classes i c hc := h'.classes i c (h.classes i c hc)
  objects i o ho := by
    obtain ⟨o', ho', hc, hn⟩ := h.objects i o ho
    obtain ⟨o'', ho'', hc', hn'⟩ := h'.objects i o' ho'
    exact ⟨o'', ho'', hc'.trans hc, fun x hx => hn' x (hn x hx)⟩

end Store.Keeps

theorem Table.contains_insert {t : Table α} {x y : String} {a : α} (h : t.contains y = true) :
    (t.insert x a).contains y = true := by
  unfold Table.contains at h ⊢
  rw [Table.get?_insert]
  split
  · rfl
  · exact h

theorem getElem?_push_of_some {xs : Array α} {i : Nat} {x y : α} (h : xs[i]? = some x) :
    (xs.push y)[i]? = some x := by
  have hi : i < xs.size := (Array.getElem?_eq_some_iff.1 h).1
  rw [Array.getElem?_push, if_neg (Nat.ne_of_lt hi), h]

section
variable {C : Code ν} {s s' : Store ν}

theorem Store.keeps_addFrame (frame : Frame) : s.Keeps (s.addFrame frame).2 :=
  { Store.Keeps.refl (s := s) with
    frames := fun _ old hf => ⟨old, getElem?_push_of_some hf, rfl, fun _ h => h⟩ }

theorem Change.keeps (h : Change C s s') : s.Keeps s' := by
  cases h with
  | @write f x v _ =>
    refine { Store.Keeps.refl (s := s) with frames := fun g frame hg => ?_ }
    by_cases hfg : f = g
    · subst hfg
      refine ⟨{ frame with names := frame.names.insert x v }, ?_, rfl, fun y hy => Table.contains_insert hy⟩
      simp [Frames.define, Array.getElem?_modify, hg]
    · refine ⟨frame, ?_, rfl, fun _ h => h⟩
      simpa [Frames.define, Array.getElem?_modify, hfg] using hg
  | frame e _ => exact Store.keeps_addFrame _
  | parent e p => exact Store.keeps_addFrame _
  | receiver f this => exact Store.keeps_addFrame _
  | function _ =>
    exact { Store.Keeps.refl (s := s) with functions := fun _ _ hf => getElem?_push_of_some hf }
  | newClass _ => exact { Store.Keeps.refl (s := s) with classes := fun _ _ hc => getElem?_push_of_some hc }
  | object o =>
    exact { Store.Keeps.refl (s := s) with
      objects := fun _ old ho => ⟨old, getElem?_push_of_some ho, rfl, fun _ h => h⟩ }
  | field i x v =>
    refine { Store.Keeps.refl (s := s) with objects := fun j o ho => ?_ }
    by_cases hij : i = j
    · subst hij
      refine ⟨{ o with fields := o.fields.insert x v }, ?_, rfl, fun y hy => Table.contains_insert hy⟩
      simp [Store.setField, Array.getElem?_modify, ho]
    · refine ⟨o, ?_, rfl, fun _ h => h⟩
      simpa [Store.setField, Array.getElem?_modify, hij] using ho

theorem Changes.keeps (h : Changes C s s') : s.Keeps s' := by
  induction h with
  | refl => exact .refl
  | tail _ hstep ih => exact ih.trans hstep.keeps

end

end Lox
