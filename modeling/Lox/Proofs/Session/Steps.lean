import Lox.Proofs.Session.Views

/-!
# The steps of a session

What someone who runs sources one after another gets to see, step by step: how each run ends, what it
prints and what it reports. From sessions with one view the same steps can be taken
(`Session.shows_congr`).
-/

namespace Lox

/-- A source, and what is seen of its run. The reports tell whether an error was had, static or not. -/
@[ext] structure Step where
  source  : String
  outcome : Outcome
  printed : ByteArray
  reports : Reports

instance : DecidableEq Step := fun x y =>
  decidable_of_iff (x.source = y.source ∧ x.outcome = y.outcome ∧ x.printed.data = y.printed.data ∧
      x.reports = y.reports) (by
    obtain ⟨a, o, ⟨p⟩, r⟩ := x
    simp [Step.ext_iff, ByteArray.ext_iff])

namespace Session

/-- The run of a source is seen so, its reports up to lines. -/
structure Takes (g : Nat → Nat) (s : Session) (x : Step) (s' : Session) : Prop where
  run : ∃ fuel, s.run fuel x.source = some (x.outcome, s')
  printed : s'.machine.output.written = s.machine.output.written ++ x.printed
  reports : s'.reports.moved g = x.reports

/-- One step after another. -/
inductive Passes (g : Nat → Nat) : Session → List Step → Session → Prop
  | nil : Passes g s [] s
  | cons : Takes g s x s' → Passes g s' xs s'' → Passes g s (x :: xs) s''

/-- These steps can be taken. -/
def Shows (g : Nat → Nat) (s : Session) (xs : List Step) : Prop := ∃ s', Passes g s xs s'

variable {clock clock' : Clock} {limit limit' : Option Nat} {rs rs' : List Attempt} {s s' t t' : Session}
  {g : Nat → Nat} {x : Step} {xs ys : List Step}

theorem Takes.unique (h : Takes g s x t) (h' : Takes g s x t') : t = t' := by
  obtain ⟨n, hn⟩ := h.run
  obtain ⟨k, hk⟩ := h'.run
  exact congrArg Prod.snd (run_unique hn hk)

theorem Takes.history (h : Takes g s x t) (hs : History clock limit rs s) :
    History clock limit (⟨s, x.source⟩ :: rs) t := by
  obtain ⟨n, hn⟩ := h.run
  exact hs.run hn

theorem Passes.unique (h : Passes g s xs t) (h' : Passes g s xs t') : t = t' := by
  induction h with
  | nil =>
    cases h'
    rfl
  | cons htakes _ ih =>
    cases h' with
    | cons htakes' hrest =>
      obtain rfl := htakes.unique htakes'
      exact ih hrest

theorem Passes.history (h : Passes g s xs t) (hs : History clock limit rs s) :
    ∃ rs', History clock limit rs' t := by
  induction h generalizing rs with
  | nil => exact ⟨rs, hs⟩
  | cons htakes _ ih => exact ih (htakes.history hs)

theorem passes_append : Passes g s (xs ++ ys) t ↔ ∃ s', Passes g s xs s' ∧ Passes g s' ys t := by
  induction xs generalizing s with
  | nil =>
    constructor
    · exact fun h => ⟨s, .nil, h⟩
    · rintro ⟨s', hnil, h⟩
      cases hnil
      exact h
  | cons x xs ih =>
    constructor
    · intro h
      cases h with
      | cons htakes hrest =>
        obtain ⟨s', hxs, hys⟩ := ih.1 hrest
        exact ⟨s', .cons htakes hxs, hys⟩
    · rintro ⟨s', hxs, hys⟩
      cases hxs with
      | cons htakes hrest => exact .cons htakes (ih.2 ⟨s', hrest, hys⟩)

theorem shows_append : s.Shows g (xs ++ ys) ↔ ∃ s', Passes g s xs s' ∧ s'.Shows g ys := by
  constructor
  · rintro ⟨t, h⟩
    obtain ⟨s', hxs, hys⟩ := passes_append.1 h
    exact ⟨s', hxs, t, hys⟩
  · rintro ⟨s', hxs, t, hys⟩
    exact ⟨t, passes_append.2 ⟨s', hxs, hys⟩⟩

theorem shows_cons : s.Shows g (x :: xs) ↔ ∃ s', Takes g s x s' ∧ s'.Shows g xs := by
  constructor
  · rintro ⟨t, h⟩
    cases h with
    | cons htakes hrest => exact ⟨_, htakes, t, hrest⟩
  · rintro ⟨s', htakes, t, hrest⟩
    exact ⟨t, .cons htakes hrest⟩

/-- A step is seen of any source whose runs show the same, and the views after it are one. -/
theorem Takes.of_shown {source : String} (h : Takes g s x t)
    (hsame : ∀ n, (s.run n x.source).map (shown g) = (s'.run n source).map (shown g))
    (hwritten : s.machine.output.written = s'.machine.output.written) :
    ∃ t', Takes g s' { x with source } t' ∧ t.view g = t'.view g := by
  obtain ⟨n, hn⟩ := h.run
  obtain ⟨t', hn', hafter, hreports⟩ := exists_of_shown g (hsame n) hn
  refine ⟨t', ⟨⟨n, hn'⟩, ?_, hreports.trans h.reports⟩, hafter.symm⟩
  rw [written_of_view hafter, ← hwritten]
  exact h.printed

theorem shows_of_view (hs : History clock limit rs s) (hs' : History clock' limit' rs' s')
    (hview : s.view g = s'.view g) (h : s.Shows g xs) : s'.Shows g xs := by
  induction xs generalizing s s' rs rs' with
  | nil => exact ⟨s', .nil⟩
  | cons x xs ih =>
    obtain ⟨t, htakes, hrest⟩ := shows_cons.1 h
    obtain ⟨t', htakes', hafter⟩ := htakes.of_shown (hs.run_congr g hs' hview · x.source)
      (written_of_view hview)
    exact shows_cons.2 ⟨t', htakes', ih (htakes.history hs) (htakes'.history hs') hafter hrest⟩

/-- Two sessions with one view show the same steps. -/
theorem shows_congr (hs : History clock limit rs s) (hs' : History clock' limit' rs' s')
    (hview : s.view g = s'.view g) (xs : List Step) : s.Shows g xs ↔ s'.Shows g xs :=
  ⟨shows_of_view hs hs' hview, shows_of_view hs' hs hview.symm⟩

/-! ## Transcripts -/

/-- The steps of a list of sources; `none` if the fuel does not suffice. -/
def transcript (fuel : Nat) (s : Session) : List String → Option (List Step)
  | [] => some []
  | source :: sources => do
    let (outcome, s') ← s.run fuel source
    let printed := s'.machine.output.written.extract s.machine.output.written.size s'.machine.output.written.size
    let steps ← transcript fuel s' sources
    return ⟨source, outcome, printed, s'.reports⟩ :: steps

/-- A run only adds to the output. -/
theorem written_of_run {fuel : Nat} {source : String} {outcome : Outcome}
    (h : s.run fuel source = some (outcome, s')) :
    s'.machine.output.written = s.machine.output.written ++
      s'.machine.output.written.extract s.machine.output.written.size s'.machine.output.written.size := by
  obtain ⟨bytes, hbytes⟩ := (leads_of_run (Store.holds_all _) (fun _ _ _ => trivial) h).output
  rw [hbytes, ByteArray.extract_append_eq_right rfl (by simp)]

/-- What is transcribed can be seen. -/
theorem shows_of_transcript (fuel : Nat) (sources : List String) {steps : List Step}
    (h : s.transcript fuel sources = some steps) : s.Shows id steps := by
  induction sources generalizing s steps with
  | nil =>
    cases h
    exact ⟨s, .nil⟩
  | cons source sources ih =>
    simp only [transcript, bind, Option.bind_eq_some_iff, pure, Option.some.injEq] at h
    obtain ⟨⟨outcome, s'⟩, hrun, steps, hsteps, rfl⟩ := h
    exact shows_cons.2 ⟨s', ⟨⟨fuel, hrun⟩, written_of_run hrun, by simp⟩, ih hsteps⟩

end Session

end Lox
