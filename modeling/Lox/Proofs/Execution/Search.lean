import Lox.Proofs.Execution.Links

/-!
# Searching for a name and counting links

A search outwards ends in the nearest frame that holds the name, and this frame lies at one distance; so what
is found by search is what is found at that distance, and what is written is the same slot. The chains of a
store lead back to older frames if every frame was made inside one that was there (`Built.leadsBack`), and a
write to a slot moves no name (`holder?_define`). Main statement: `search_agrees_with_distance`.
-/

namespace Lox

namespace Frames

/-! ## Stores that operations build -/

/-- An operation on frames that may change the store. -/
inductive Operation where
  | new
  | child (around : FrameId)
  | define (f : FrameId) (x : String) (v : Value)
  | assign (f : FrameId) (x : String) (v : Value)
  | assignAt (f : FrameId) (distance : Nat) (x : String) (v : Value)

namespace Operation

/-- The frame that the operation starts from. -/
def frame? : Operation → Option FrameId
  | .new => none
  | .child e => some e
  | .define f _ _ | .assign f _ _ | .assignAt f _ _ _ => some f

def run (s : Frames) : Operation → Except RuntimeFault Frames
  | .new => .ok (s.add {}).2
  | .child e => .ok (s.add ⟨{}, some e⟩).2
  | .define f x v => .ok (s.define f x v)
  | .assign f x v => s.assign f x v
  | .assignAt f k x v => s.assignAt f k x v

end Operation

/-- A store that operations have built from nothing, each on a frame that was there. One that fails builds
nothing. -/
inductive Built : Frames → Prop
  | empty : Built .empty
  | step {s s' : Frames} (op : Operation) : Built s → (∀ f ∈ op.frame?, f < s.cells.size) →
      op.run s = .ok s' → Built s'

variable {s s' : Frames} {f g h : FrameId} {x y : String} {v : Value} {d k : Nat}

theorem LeadsBack.define (hs : LeadsBack s.enclosing?) : LeadsBack (s.define f x v).enclosing? := by
  intro i j hij
  rw [enclosing?_define] at hij
  exact hs i j hij

theorem LeadsBack.add (hs : LeadsBack s.enclosing?) {frame : Frame}
    (hframe : ∀ e ∈ frame.enclosing, e < s.cells.size) : LeadsBack (s.add frame).2.enclosing? := by
  intro i j hij
  rw [enclosing?_add] at hij
  split at hij
  · next hi => exact hi ▸ hframe j hij
  · exact hs i j hij

/-- However a frame was located, a write to it is a definition in some frame. -/
theorem exists_define_of_map {r : Except RuntimeFault FrameId} (hr : r.map (s.define · x v) = .ok s') :
    ∃ g, s' = s.define g x v := by
  cases r with
  | ok g => exact ⟨g, (Except.ok.inj hr).symm⟩
  | error cause => cases hr

/-- Every frame was made inside an older one. -/
theorem Built.leadsBack (hs : s.Built) : LeadsBack s.enclosing? := by
  induction hs with
  | empty =>
    intro i j hij
    simp [enclosing?, Frames.empty] at hij
  | step op _ hframe hrun ih =>
    cases op with
    | new =>
      cases hrun
      exact LeadsBack.add ih (by simp)
    | child e =>
      cases hrun
      refine LeadsBack.add ih fun e' he' => ?_
      cases he'
      exact hframe e rfl
    | define f x v =>
      cases hrun
      exact LeadsBack.define ih
    | assign f x v =>
      obtain ⟨g, rfl⟩ := exists_define_of_map hrun
      exact LeadsBack.define ih
    | assignAt f k x v =>
      obtain ⟨g, rfl⟩ := exists_define_of_map hrun
      exact LeadsBack.define ih

/-! ## The nearest holder of a name -/

/-- So many links out, and no fewer, lies a frame that holds the name. -/
structure NearestAt (s : Frames) (f : FrameId) (x : String) (d : Nat) (g : FrameId) : Prop where
  leads : s.ancestor? d f = some g
  holds : s.contains g x = true
  least : ∀ k < d, ∀ h, s.ancestor? k f = some h → s.contains h x = false

theorem ancestor?_of_enclosing (he : s.enclosing? f = some g) : s.ancestor? (k + 1) f = s.ancestor? k g := by
  rw [ancestor?, he, Option.bind_some]

theorem NearestAt.unique (hn : s.NearestAt f x d g) (hn' : s.NearestAt f x k h) : d = k ∧ g = h := by
  have hle : ∀ {d k g h}, s.NearestAt f x d g → s.NearestAt f x k h → d ≤ k := by
    intro d k g h hn hn'
    refine Nat.le_of_not_lt fun hlt => ?_
    have hfalse := hn.least k hlt h hn'.leads
    rw [hn'.holds] at hfalse
    cases hfalse
  obtain rfl := Nat.le_antisymm (hle hn hn') (hle hn' hn)
  exact ⟨rfl, Option.some.inj (hn.leads.symm.trans hn'.leads)⟩

theorem not_nearestAt_zero (hx : s.contains f x = false) : ¬ s.NearestAt f x 0 g := by
  intro hn
  cases hn.leads
  exact absurd hn.holds (by simp [hx])

/-- Seen from a frame without the name, the nearest holder lies one link further out. -/
theorem nearestAt_succ (hx : s.contains f x = false) (he : s.enclosing? f = some g) :
    s.NearestAt f x (d + 1) h ↔ s.NearestAt g x d h := by
  constructor <;> intro hn
  · refine ⟨?_, hn.holds, fun k hk i hi => ?_⟩
    · rw [← ancestor?_of_enclosing he]
      exact hn.leads
    · rw [← ancestor?_of_enclosing he] at hi
      exact hn.least (k + 1) (Nat.succ_lt_succ hk) i hi
  · refine ⟨?_, hn.holds, fun k hk i hi => ?_⟩
    · rw [ancestor?_of_enclosing he]
      exact hn.leads
    · cases k with
      | zero =>
        cases hi
        exact hx
      | succ k =>
        rw [ancestor?_of_enclosing he] at hi
        exact hn.least k (Nat.lt_of_succ_lt_succ hk) i hi

/-- What a search ends with: the nearest holder, or none on the whole chain. -/
theorem Finds.nearest {r : Option FrameId} (hr : s.Finds x f r) :
    (∀ g ∈ r, ∃ d, s.NearestAt f x d g) ∧ (r = none → ∀ d g, ¬ s.NearestAt f x d g) := by
  induction hr with
  | here hx =>
    refine ⟨fun g hg => ?_, fun hr => nomatch hr⟩
    cases hg
    exact ⟨0, rfl, hx, fun k hk => absurd hk (Nat.not_lt_zero k)⟩
  | around hx he _ ih =>
    refine ⟨fun g hg => ?_, fun hr d g hn => ?_⟩
    · obtain ⟨d, hd⟩ := ih.1 g hg
      exact ⟨d + 1, (nearestAt_succ hx he).2 hd⟩
    · cases d with
      | zero => exact not_nearestAt_zero hx hn
      | succ d => exact ih.2 hr d g ((nearestAt_succ hx he).1 hn)
  | nowhere hx he =>
    refine ⟨fun g hg => (nomatch hg), fun _ d g hn => ?_⟩
    cases d with
    | zero => exact not_nearestAt_zero hx hn
    | succ d =>
      have hleads := hn.leads
      simp [ancestor?, he] at hleads

section
variable (hs : LeadsBack s.enclosing?)
include hs

theorem holder?_of_nearest (hn : s.NearestAt f x d g) : s.holder? x f = some g := by
  have hfinds := (finds_holder hs x f).nearest
  cases hr : s.holder? x f with
  | none => exact absurd hn (hfinds.2 hr d g)
  | some h =>
    obtain ⟨k, hk⟩ := hfinds.1 h hr
    rw [(hk.unique hn).2]

theorem holder?_of_not_nearest (hn : ∀ d g, ¬ s.NearestAt f x d g) : s.holder? x f = none := by
  have hfinds := (finds_holder hs x f).nearest
  cases hr : s.holder? x f with
  | none => rfl
  | some h =>
    obtain ⟨k, hk⟩ := hfinds.1 h hr
    exact absurd hk (hn k h)

/-- The search and the distance lead to the same frame. -/
theorem locate_of_nearest (hn : s.NearestAt f x d g) : s.locate f x = .ok g ∧ s.locateAt f d x = .ok g := by
  refine ⟨?_, locateAt_eq_ok hn.leads hn.holds⟩
  simp only [locate, holder?_of_nearest hs hn]

/-- Where the search finds nothing, no distance does. -/
theorem locate_of_not_nearest (hn : ∀ d g, ¬ s.NearestAt f x d g) :
    s.locate f x = .error (.undefinedVariable x) ∧ ∀ k, s.locateAt f k x = .error (.unresolvedVariable x k) := by
  refine ⟨by simp only [locate, holder?_of_not_nearest hs hn], fun k => ?_⟩
  have hnone : ∀ k g, s.ancestor? k f = some g → s.contains g x = false := by
    -- the first of several holders would be the nearest
    intro k
    induction k using Nat.strongRecOn with
    | ind k ih =>
      intro g hg
      rw [← Bool.not_eq_true]
      exact fun hx => hn k g ⟨hg, hx, ih⟩
  unfold locateAt
  cases ha : s.ancestor? k f with
  | none => rfl
  | some g => simp [Option.filter, hnone k g ha]

end

/-! ## Writing to a slot -/

theorem contains_define (hx : s.contains g x = true) :
    (s.define g x v).contains h y = s.contains h y := by
  simp only [contains, lookup?_define]
  split
  · next heq =>
    obtain ⟨rfl, rfl, _⟩ := heq
    exact hx.symm
  · rfl

theorem holderWithin?_define (hx : s.contains g x = true) (fuel : Nat) (f : FrameId) :
    (s.define g x v).holderWithin? y fuel f = s.holderWithin? y fuel f := by
  induction fuel generalizing f with
  | zero => rfl
  | succ n ih => simp only [holderWithin?, contains_define hx, enclosing?_define, funext ih]

/-- A write to a slot that is there leaves every name where it is found. -/
theorem holder?_define (hx : s.contains g x = true) : (s.define g x v).holder? y f = s.holder? y f := by
  simp only [holder?, size_define, holderWithin?_define hx]

theorem locate_define (hx : s.contains g x = true) : (s.define g x v).locate f y = s.locate f y := by
  simp only [locate, holder?_define hx]

theorem locateAt_define (hx : s.contains g x = true) : (s.define g x v).locateAt f k y = s.locateAt f k y := by
  have hfun : ((s.define g x v).contains · y) = (s.contains · y) := funext fun h => contains_define hx
  simp only [locateAt, ancestor?_define, hfun]

theorem valueIn_define (hx : s.contains g x = true) :
    (s.define g x v).valueIn y h = if h = g ∧ y = x then v else s.valueIn y h := by
  have hg : g < s.cells.size := lt_size_of_lookup? hx
  simp only [valueIn, lookup?_define, hg, and_true]
  split <;> rfl

/-- The second store is the first one but for one slot: a name of one frame. Who finds the name there reads the
new value, by search and at its distance, and every other reading gives what it gave. -/
structure Overwrites (s s' : Frames) (g : FrameId) (x : String) (v : Value) : Prop where
  size : s'.cells.size = s.cells.size
  others : ∀ f ≠ g, s'.cells[f]? = s.cells[f]?
  enclosing : s'.enclosing? g = s.enclosing? g
  slot : ∀ y, s'.lookup? g y = if y = x then some v else s.lookup? g y
  readers : ∀ f d, s.NearestAt f x d g → s'.get f x = .ok v ∧ s'.getAt f d x = .ok v
  unread : ∀ f y, ¬ (y = x ∧ ∃ d, s.NearestAt f y d g) → s'.get f y = s.get f y
  unreadAt : ∀ f k y, ¬ (y = x ∧ s.ancestor? k f = some g) → s'.getAt f k y = s.getAt f k y

/-- A reading that does not end in the slot gives what it gave. -/
theorem map_valueIn_define (hx : s.contains g x = true) {r : Except RuntimeFault FrameId}
    (hr : ¬ (y = x ∧ r = .ok g)) :
    r.map ((s.define g x v).valueIn y) = r.map (s.valueIn y) := by
  cases r with
  | error cause => rfl
  | ok h =>
    have hne : ¬ (h = g ∧ y = x) := by
      rintro ⟨rfl, rfl⟩
      exact hr ⟨rfl, rfl⟩
    simp only [Except.map, valueIn_define hx, if_neg hne]

theorem overwrites_define (hs : LeadsBack s.enclosing?) (hx : s.contains g x = true) (v : Value) :
    s.Overwrites (s.define g x v) g x v where
  size := size_define s g x v
  others f hf := by simp [define, Array.getElem?_modify, Ne.symm hf]
  enclosing := enclosing?_define s g g x v
  slot y := by
    have hg : g < s.cells.size := lt_size_of_lookup? hx
    simp only [lookup?_define, hg, and_true, true_and]
  readers f d hn := by
    obtain ⟨hsearch, hdistance⟩ := locate_of_nearest hs hn
    constructor
    · simp only [get, locate_define hx, hsearch, Except.map, valueIn_define hx, and_self, if_true]
    · simp only [getAt, locateAt_define hx, hdistance, Except.map, valueIn_define hx, and_self, if_true]
  unread f y hne := by
    rw [get, locate_define hx, map_valueIn_define hx, get]
    rintro ⟨rfl, hlocate⟩
    refine hne ⟨rfl, ?_⟩
    have hfinds := (finds_holder hs y f).nearest
    cases hr : s.holder? y f with
    | none => simp [locate, hr] at hlocate
    | some h =>
      simp only [locate, hr] at hlocate
      cases hlocate
      exact hfinds.1 g hr
  unreadAt f k y hne := by
    rw [getAt, locateAt_define hx, map_valueIn_define hx, getAt]
    rintro ⟨rfl, hlocate⟩
    refine hne ⟨rfl, ?_⟩
    simp only [locateAt] at hlocate
    split at hlocate
    · next h hh =>
      cases hlocate
      exact (Option.filter_eq_some_iff.1 hh).1
    · cases hlocate

end Frames

/-! ## Writing on the machine -/

/-- What a write on the machine ends with: the frames that it left, or the fault and the machine as it was. -/
def Machine.written (m : Machine ν) (t : Token) : Except RuntimeFault Frames → Result ν Unit
  | .ok frames => .done () { m with store := { m.store with frames } }
  | .error cause => .failed ⟨t, cause⟩ m

theorem Exec.assignIn_eq (m : Machine ν) (t : Token) (locate : Frames → Except RuntimeFault FrameId) (v : Value) :
    Exec.assignIn t locate v m =
      m.written t ((locate m.store.frames).map (m.store.frames.define · t.lexeme v)) := by
  unfold Exec.assignIn
  cases locate m.store.frames <;> rfl

open Frames in
/-- Search by name and access at a known distance agree. If the name lies at some distance, nearest first, then
both read the same value and both write the same slot, and no other; if it lies at none, then both fail, at every
distance. On the machine, a write that fails changes nothing. -/
theorem search_agrees_with_distance {s : Frames} (hs : s.Built) (f : FrameId) (x : String) :
    (∀ d g, s.NearestAt f x d g →
      (∃ v, s.lookup? g x = some v ∧ s.get f x = .ok v ∧ s.getAt f d x = .ok v) ∧
      ∀ v, ∃ s', s.assign f x v = .ok s' ∧ s.assignAt f d x v = .ok s' ∧ s.Overwrites s' g x v) ∧
    ((∀ d g, ¬ s.NearestAt f x d g) →
      s.get f x = .error (.undefinedVariable x) ∧ (∀ v, s.assign f x v = .error (.undefinedVariable x)) ∧
      ∀ k, s.getAt f k x = .error (.unresolvedVariable x k) ∧
        ∀ v, s.assignAt f k x v = .error (.unresolvedVariable x k)) ∧
    RuntimeFault.message (.undefinedVariable x) = "Undefined variable '" ++ x ++ "'." ∧
    ∀ (m : Machine NodeId) (t : Token) v, m.store.frames = s → t.lexeme = x →
      Exec.assignIn t (·.locate f x) v m = m.written t (s.assign f x v) ∧
      ∀ k, Exec.assignIn t (·.locateAt f k x) v m = m.written t (s.assignAt f k x v) := by
  have hback := hs.leadsBack
  refine ⟨fun d g hn => ⟨?_, fun v => ⟨s.define g x v, ?_, ?_, overwrites_define hback hn.holds v⟩⟩,
    fun hn => ?_, rfl, ?_⟩
  · obtain ⟨v, hv⟩ := Option.isSome_iff_exists.1 hn.holds
    refine ⟨v, hv, ?_, getAt_eq_ok hn.leads hv⟩
    simp only [Frames.get, (locate_of_nearest hback hn).1, Except.map, valueIn, hv, Option.getD_some]
  · simp only [assign, (locate_of_nearest hback hn).1, Except.map]
  · simp only [assignAt, (locate_of_nearest hback hn).2, Except.map]
  · obtain ⟨hsearch, hdistance⟩ := locate_of_not_nearest hback hn
    refine ⟨by simp only [Frames.get, hsearch, Except.map], fun v => by simp only [assign, hsearch, Except.map],
      fun k => ⟨by simp only [getAt, hdistance k, Except.map], fun v => ?_⟩⟩
    simp only [assignAt, hdistance k, Except.map]
  · rintro m t v rfl rfl
    exact ⟨Exec.assignIn_eq m t _ v, fun k => Exec.assignIn_eq m t _ v⟩

namespace Frames

/-- A frame with two names, a frame inside it that hides one of them, and an empty frame inside that one. -/
def nested : Frames :=
  let outer := (empty.add {}).2.define 0 "a" (.bool true) |>.define 0 "b" .nil
  let inner := (outer.add ⟨{}, some 0⟩).2.define 1 "a" (.bool false)
  (inner.add ⟨{}, some 1⟩).2

theorem nested_built : nested.Built := by
  have outer : (empty.add {}).2.Built := Built.empty.step .new (by simp [Operation.frame?]) rfl
  have named := (outer.step (.define 0 "a" (.bool true)) (by decide) rfl).step (.define 0 "b" .nil) (by decide) rfl
  have inner := (named.step (.child 0) (by decide) rfl).step (.define 1 "a" (.bool false)) (by decide) rfl
  exact inner.step (.child 1) (by decide) rfl

theorem nested_agrees :
    nested.NearestAt 2 "a" 1 1 ∧
    (∃ s', nested.assign 2 "a" .nil = .ok s' ∧ nested.assignAt 2 1 "a" .nil = .ok s' ∧
      s'.get 0 "a" = .ok (.bool true) ∧ s'.get 1 "a" = .ok .nil) ∧
    (∀ d g, ¬ nested.NearestAt 2 "c" d g) ∧ nested.get 2 "c" = .error (.undefinedVariable "c") := by
  have hnear : nested.NearestAt 2 "a" 1 1 := ⟨rfl, rfl, by decide⟩
  have hnone : ∀ d g, ¬ nested.NearestAt 2 "c" d g := by
    intro d g hn
    have hall : ∀ g < 3, nested.contains g "c" = false := by decide
    have hfalse := hall g (lt_size_of_lookup? hn.holds)
    rw [hn.holds] at hfalse
    cases hfalse
  obtain ⟨hfound, -⟩ := search_agrees_with_distance nested_built 2 "a"
  obtain ⟨-, hmissing, -⟩ := search_agrees_with_distance nested_built 2 "c"
  obtain ⟨s', hassign, hassignAt, hover⟩ := (hfound 1 1 hnear).2 .nil
  refine ⟨hnear, ⟨s', hassign, hassignAt, ?_, ?_⟩, hnone, (hmissing hnone).1⟩
  · rw [hover.unread 0 "a"]
    · rfl
    · rintro ⟨-, d, hd⟩
      have hleads := hd.leads
      rw [ancestor?_eq_follow] at hleads
      exact absurd (nested_built.leadsBack.follow_le hleads) (by simp)
  · exact (hover.readers 1 0 ⟨rfl, rfl, by decide⟩).1

end Frames

end Lox
