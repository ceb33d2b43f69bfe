import Lox.Proofs.Lexical.Operations

/-!
# One place of a program on both sides

`Here` says that a machine and a state stand at one place of a program: the frames from the current
one outwards were made for the scopes around the place, and the names in scope are those that these
scopes declare before it. From there a name is found on both sides or on neither.
-/

namespace Lox.Lexical

section
variable (O : FrameId → Site ν → Prop) (σ : Slots)

/-- The names seen from a frame. A variable that waits for its initializer has a slot in the frame
and no value in it yet. -/
inductive Sees (fr : Frames) (f : FrameId) (scs : Scopes ν) : Option String → Names → Prop
  | ready {ps : Names} : Chain O σ fr f scs ps → Sees fr f scs none ps
  | waiting {ps : Names} {a : String} {c : CellId} : Chain O σ fr f scs ps → σ f a = some c →
      fr.lookup? f a = none → Sees fr f scs (some a) ((a, c) :: ps)

/-- The machine and the state stand in the given scopes, in the initializer of `pend`. -/
structure Here (scs : Scopes ν) (pend : Option String) (m : Machine ν) (s : State ν) : Prop where
  isLocal : s.isLocal = !scs.isEmpty
  /-- The current frame has no slots but those of its scope. -/
  slots : ∀ x, (σ m.env x).isSome → (∃ sc ∈ scs.head?, x ∈ sc.names) ∨ pend = some x
  sees : Sees O σ m.store.frames m.env scs pend s.names

end

section
variable {N : Place ν → Prop} {O : FrameId → Site ν → Prop} {σ σ' : Slots} {fr fr' : Frames}
  {m m' : Machine ν} {s s' : State ν} {scs : Scopes ν} {pend : Option String} {f : FrameId}
  {x : String} {ps : Names}

namespace Sees

theorem chain (h : Sees O σ fr f scs pend ps) : ∃ ps', Chain O σ fr f scs ps' := by
  cases h with
  | ready hc => exact ⟨_, hc⟩
  | waiting hc => exact ⟨_, hc⟩

theorem mono (h : Sees O σ fr f scs pend ps) (hg : Grows (fun _ => True) σ fr σ' fr')
    (hf : f < fr.cells.size) : Sees O σ' fr' f scs pend ps := by
  cases h with
  | ready hc => exact .ready (hc.mono hg)
  | waiting hc hs hl =>
    refine .waiting (hc.mono hg) (hg.slots _ _ _ hs) ?_
    have := (hg.kept f hf trivial).2
    rw [← Option.not_isSome_iff_eq_none, this, hl]
    simp

/-- A variable that waits for its initializer has no value yet. -/
theorem waiting_lookup (h : Sees O σ fr f scs (some x) ps) : fr.lookup? f x = none := by
  cases h with
  | waiting _ _ hl => exact hl

/-- A name that does not wait for its initializer is found in the scopes. -/
theorem lookup_of_ne (h : Sees O σ fr f scs pend ps) (hp : pend ≠ some x) :
    ∃ ps', Chain O σ fr f scs ps' ∧ ps.lookup x = ps'.lookup x := by
  cases h with
  | ready hc => exact ⟨ps, hc, rfl⟩
  | @waiting ps' a c hc _ _ =>
    have hne : (x == a) = false := by
      rw [beq_eq_false_iff_ne]
      rintro rfl
      exact hp rfl
    exact ⟨ps', hc, by rw [List.lookup_cons, hne]⟩

theorem find (h : Sees O σ fr f scs pend ps) (hp : pend ≠ some x) {k : Nat}
    (hk : scs.distance? x = some k) :
    ∃ g sc c, fr.ancestor? k f = some g ∧ scs[k]? = some sc ∧ x ∈ sc.names ∧ O g sc.site ∧
      σ g x = some c ∧ (fr.lookup? g x).isSome ∧ ps.lookup x = some c := by
  obtain ⟨ps', hc, hl⟩ := h.lookup_of_ne hp
  rw [hl]
  exact hc.find hk

theorem lookup_eq_none (h : Sees O σ fr f scs pend ps) (hp : pend ≠ some x)
    (hk : scs.distance? x = none) : ps.lookup x = none := by
  obtain ⟨ps', hc, hl⟩ := h.lookup_of_ne hp
  rw [hl]
  exact hc.lookup_eq_none_of_distance? hk

end Sees

namespace Here

theorem env_lt (hh : Here O σ scs pend m s) (h : Mirrors N O σ m s) :
    m.env < m.store.frames.cells.size := by
  obtain ⟨ps, hc⟩ := hh.sees.chain
  exact hc.lt_size h.nonempty

/-- A place is left as it was found. -/
theorem mono (hh : Here O σ scs pend m s) (h : Mirrors N O σ m s)
    (hg : Grows (fun _ => True) σ m.store.frames σ' m'.store.frames) (he : m'.env = m.env)
    (hn : s'.names = s.names) (hl : s'.isLocal = s.isLocal) : Here O σ' scs pend m' s' where
  isLocal := hl.trans hh.isLocal
  slots x hx := by
    rw [he, (hg.kept m.env (hh.env_lt h) trivial).1] at hx
    exact hh.slots x hx
  sees := by
    rw [he, hn]
    exact hh.sees.mono hg (hh.env_lt h)

theorem isLocal_iff (hh : Here O σ scs pend m s) (h : Mirrors N O σ m s) :
    s.isLocal = true ↔ m.env ≠ globalFrame := by
  obtain ⟨ps, hc⟩ := hh.sees.chain
  rw [hh.isLocal, ne_eq, hc.local_iff h.outermost]
  simp

/-- At the top level no local name is in scope. -/
theorem top (h : Mirrors N O σ m s) (he : m.env = globalFrame) (hn : s.names = [])
    (hl : s.isLocal = false) : Here O σ [] none m s where
  isLocal := hl
  slots x hx := absurd he (h.slot_local m.env x hx)
  sees := by
    rw [he, hn]
    exact .ready .global

/-- Names are declared in the scope of the current frame. -/
theorem chain_declare {sc : LexicalScope ν} {c : CellId} (hc : Chain O σ fr f (sc :: scs) ps)
    (hx : σ f x = some c) (hl : (fr.lookup? f x).isSome) :
    Chain O σ fr f (Scopes.declare x (sc :: scs)) ((x, c) :: ps) := by
  cases hc with
  | @scope _ g _ _ seg ps he ho hn hseg hr =>
    have hseg' : ∀ p ∈ (x, c) :: seg, σ f p.1 = some p.2 ∧ (fr.lookup? f p.1).isSome := by
      intro p hp
      rcases List.mem_cons.1 hp with rfl | hp
      · exact ⟨hx, hl⟩
      · exact hseg p hp
    have hn' : ((x, c) :: seg).map Prod.fst = x :: sc.names := by simp [hn]
    show Chain O σ fr f (⟨sc.site, x :: sc.names⟩ :: scs) ((x, c) :: seg ++ ps)
    exact .scope he ho hn' hseg' hr

end Here

end

end Lox.Lexical
