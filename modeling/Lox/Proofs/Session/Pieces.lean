import Lox.Proofs.Session.Steps

/-!
# Programs in pieces

A program that is made of two accepted ones, with a newline between them, is accepted, and its
statements are those of the first one followed by those of the second one further down
(`code_pieces`). So running it is running the one after the other, as long as the first one ends
without an error. Main statement: `whole_agrees_with_pieces`.
-/

namespace Lox

/-! ## The text -/

theorem Grammar.Program.append {ts us : List Token} {tree tree' : List (Stmt ν)} (h : Program ts tree)
    (h' : Program us tree') : Program (ts ++ us) (tree ++ tree') := by
  obtain ⟨parts, hparts⟩ := h
  obtain ⟨parts', hparts'⟩ := h'
  have hall := Program.mk (parts ++ parts') fun p hp => (List.mem_append.1 hp).elim (hparts p) (hparts' p)
  simpa using hall

namespace Parser

variable {body rest : List Token}

/-- The tokens of a program, and then those of another one further down, make a program of both. -/
theorem program_pieces (i : NodeId) (k : Nat) (hbody : ∀ t ∈ body, t.is .eof = false)
    (ha : (program i (body ++ [.endAt k])).reports = []) (hne : rest ≠ [])
    (hb : (program i rest).reports = []) :
    (program i (body ++ rest.map (·.moved (· + k)))).reports = [] ∧
      Stmt.renameAll (.shape id) (program i (body ++ rest.map (·.moved (· + k)))).tree =
        Stmt.renameAll (.shape id) ((program i (body ++ [.endAt k])).tree ++
          Stmt.renameAll (.shift 0 (· + k)) (program i rest).tree) := by
  have hfirst := (program_sound ha).1
  rw [upToEnd_closed hbody] at hfirst
  have hlower := program_renamed 0 (· + k) i hne
  rw [Nat.zero_add, hb, List.map_nil] at hlower
  have hsecond : Grammar.Program (upToEnd (rest.map (·.moved (· + k)))) (program i (rest.map (·.moved (· + k)))).tree :=
    (program_sound (by rw [hlower])).1
  rw [hlower] at hsecond
  have hall := hfirst.append hsecond
  rw [← upToEnd_append hbody] at hall
  obtain ⟨hreports, htree⟩ := program_complete hall
  rw [Stmt.unmarkedAll_eq, Stmt.unmarkedAll_eq] at htree
  exact ⟨hreports, htree⟩

end Parser

namespace Attempt

variable {s : Session} {a b : String}

/-- A source in two pieces is read as a program of the two, the second one further down. -/
theorem tree_pieces (ha : (Attempt.mk s a).Accepted) (hb : (Attempt.mk s b).Accepted) :
    Scan.reports (a ++ "\n" ++ b) = [] ∧ (Attempt.mk s (a ++ "\n" ++ b)).parsed.reports = [] ∧
      ∃ k, Stmt.renameAll (.shape id) (Attempt.mk s (a ++ "\n" ++ b)).tree =
        Stmt.renameAll (.shape id) ((Attempt.mk s a).tree ++
          Stmt.renameAll (.shift 0 (· + k)) (Attempt.mk s b).tree) := by
  have hfirst : Scan.reports a = [] := ha.scanned
  obtain ⟨body, k, htokens, hbody, hwhole⟩ := Scan.tokens_pieces hfirst
  obtain ⟨htokens', hscanned⟩ := hwhole b
  have hparsed : (Parser.program s.nextId (body ++ [.endAt k])).reports = [] := by
    rw [← htokens]
    exact ha.parsed
  obtain ⟨hreports, hshape⟩ := Parser.program_pieces s.nextId k hbody hparsed (Scan.tokens_ne_nil b) hb.parsed
  rw [← htokens'] at hreports hshape
  rw [← htokens] at hshape
  refine ⟨?_, hreports, k, hshape⟩
  rw [hscanned, hb.scanned, List.map_nil]

/-- A source in two pieces is accepted if both pieces are. -/
theorem accepted_pieces (ha : (Attempt.mk s a).Accepted) (hb : (Attempt.mk s b).Accepted) :
    (Attempt.mk s (a ++ "\n" ++ b)).Accepted := by
  obtain ⟨hscanned, hparsed, k, hshape⟩ := tree_pieces ha hb
  refine ⟨hscanned, hparsed, ?_⟩
  -- the walk over the whole reports what the walks over the pieces do
  have hsame := resolve_reports_of_shape s.bindings s.bindings hshape
  have hfirst : (Resolve.program s.bindings (Attempt.mk s a).tree).2 = [] := ha.resolved
  have hsecond : (Resolve.program s.bindings (Attempt.mk s b).tree).2 = [] := hb.resolved
  rw [resolve_append (formed ha.parsed) hfirst, resolve_reports_rename _ s.bindings, hsecond] at hsame
  simp only [Report.moved_id, List.map_id_fun', List.map_nil] at hsame
  exact hsame

end Attempt

section
variable {clock : Clock} {limit : Option Nat} {rs : List Attempt} {s : Session} {a b : String}

/-- The program of the whole is made of the programs of the pieces. -/
theorem code_pieces (hist : Session.History clock limit rs s) (ha : (Attempt.mk s a).Accepted)
    (hb : (Attempt.mk s b).Accepted) : ∃ k, ∀ g, (Attempt.mk s (a ++ "\n" ++ b)).code g =
      (Attempt.mk s a).code g ++ (Attempt.mk s b).code fun n => g (n + k) := by
  obtain ⟨_, _, k, hshape⟩ := Attempt.tree_pieces ha hb
  have hindexed : ∀ {source}, (Attempt.mk s source).Accepted → ∀ g, (Attempt.mk s source).code g =
      Stmt.indexedAll [] (Stmt.renameAll (.shape g) (Attempt.mk s source).tree) := by
    intro source h g
    exact Stmt.renameAll_of_scoped g _ .nil (Attempt.keepsRules h (steady_of_history hist).unbound)
  refine ⟨k, fun g => ?_⟩
  have hmoved := congrArg (Stmt.renameAll (.shape g)) hshape
  rw [Stmt.renameAll_append, Stmt.renameAll_append] at hmoved
  simp only [Stmt.renameAll_renameAll] at hmoved
  have hwhole : Stmt.renameAll (.shape g) (Attempt.mk s (a ++ "\n" ++ b)).tree =
      Stmt.renameAll (.shape g) (Attempt.mk s a).tree ++
        Stmt.renameAll (.shape fun n => g (n + k)) (Attempt.mk s b).tree := hmoved
  rw [hindexed (Attempt.accepted_pieces ha hb), hindexed ha, hindexed hb, hwhole, Stmt.indexedAll_append]

end

/-! ## The run -/

namespace Exec

variable {d : Distances ν} {ts us : List (Stmt ν)} {m : Machine ν} {n : Nat}

theorem interpret_append (d : Distances ν) (n : Nat) (ts us : List (Stmt ν)) (m : Machine ν) :
    interpret d n (ts ++ us) m = match interpret d n ts m with
      | .done _ m => interpret d n us m
      | .failed e m => .failed e m
      | .outOfFuel => .outOfFuel := by
  induction ts generalizing m with
  | nil => rfl
  | cons t ts ih =>
    rw [List.cons_append, interpret, interpret, bind_apply, bind_apply]
    cases exec d n t m with
    | done flow m' => exact ih m'
    | failed e m' => rfl
    | outOfFuel => rfl

/-- What stands after a statement that fails is never started. -/
theorem starts_of_failed {e : RuntimeError} {m' : Machine ν} {S : Moment ν}
    (hfailed : interpret d n ts m = .failed e m') (h : Starts d (ts ++ us) m S) : Starts d ts m S := by
  induction ts generalizing m with
  | nil => cases hfailed
  | cons t ts ih =>
    cases h with
    | first => exact .first
    | @next _ _ flow m₁ _ _ hy hrest =>
      obtain ⟨k, hk⟩ := hy
      have hdone : exec d n t m = .done flow m₁ := by
        rw [← hk]
        refine exec_unique ?_ (by simp [hk])
        intro hdry
        rw [interpret, bind_apply, hdry] at hfailed
        cases hfailed
      rw [interpret, bind_apply, hdone] at hfailed
      exact .next ⟨k, hk⟩ (ih hfailed hrest)

end Exec

/-- Looks away from lines. -/
def lineless (_ : Nat) : Nat := 0

namespace Session

variable {clock : Clock} {limit : Option Nat} {rs : List Attempt} {s s₁ : Session} {a b : String}
  {n k : Nat}

theorem concluded_ok {r : Result (Option Nat) Unit} {m : Machine (Option Nat)} {reports : Reports}
    (h : concluded r = some (.ok, m, reports)) : r = .done () m := by
  cases r <;> cases h
  rfl

theorem concluded_failed {r : Result (Option Nat) Unit} {m : Machine (Option Nat)} {reports : Reports}
    (h : concluded r = some (.runtimeError, m, reports)) : ∃ e, r = .failed e m := by
  cases r <;> cases h
  exact ⟨_, rfl⟩

/-- After a first piece that ends well, the whole shows what the second piece shows. -/
theorem History.run_whole_of_ok (hist : History clock limit rs s) (hrun : s.run n a = some (.ok, s₁))
    (hb : (Attempt.mk s b).Accepted) (hk : n ≤ k) :
    (s.run k (a ++ "\n" ++ b)).map (shown lineless) = (s₁.run k b).map (shown lineless) := by
  have ha := accepted_of_run hrun (by decide)
  obtain ⟨j, hcode⟩ := code_pieces hist ha hb
  have hfirst := hist.run_shown lineless ha k
  rw [run_more hk hrun] at hfirst
  have hdone := concluded_ok hfirst.symm
  have hsecond := (hist.run hrun).run_shown lineless (hb.elsewhere s₁) k
  rw [hist.run_shown lineless (Attempt.accepted_pieces ha hb), hcode, Exec.interpret_append, hdone, hsecond,
    ← hist.code_eq lineless (hist.run hrun) hb]
  rfl

/-- After a first piece that fails, the whole shows what the first piece shows. -/
theorem History.run_whole_of_failed (hist : History clock limit rs s)
    (hrun : s.run n a = some (.runtimeError, s₁)) (hb : (Attempt.mk s b).Accepted) (k : Nat) :
    (s.run k (a ++ "\n" ++ b)).map (shown id) = (s.run k a).map (shown id) := by
  have ha := accepted_of_run hrun (by decide)
  obtain ⟨j, hcode⟩ := code_pieces hist ha hb
  have hfirst := hist.run_shown id ha k
  rw [hist.run_shown id (Attempt.accepted_pieces ha hb), hcode, Exec.interpret_append, hfirst]
  generalize Exec.interpret id k ((Attempt.mk s a).code id) (s.view id) = r at hfirst
  cases r with
  | done u m =>
    obtain ⟨p, hp, hshown⟩ := Option.map_eq_some_iff.1 hfirst
    obtain rfl := run_unique hrun hp
    cases hshown
  | failed e m => rfl
  | outOfFuel => rfl

/-- After a first piece that fails, nothing of the second one is started. -/
theorem History.starts_of_failed (hist : History clock limit rs s)
    (hrun : s.run n a = some (.runtimeError, s₁)) (hb : (Attempt.mk s b).Accepted) :
    ∃ first second, (Attempt.mk s (a ++ "\n" ++ b)).tree = first ++ second ∧
      Stmt.renameAll (.shape id) first = Stmt.renameAll (.shape id) (Attempt.mk s a).tree ∧
      Stmt.renameAll (.shape lineless) second = Stmt.renameAll (.shape lineless) (Attempt.mk s b).tree ∧
      ∀ S, Starts (Attempt.mk s (a ++ "\n" ++ b)).distances (Attempt.mk s (a ++ "\n" ++ b)).tree s.machine S →
        Starts (Attempt.mk s (a ++ "\n" ++ b)).distances first s.machine S := by
  have ha := accepted_of_run hrun (by decide)
  have hwhole := Attempt.accepted_pieces ha hb
  obtain ⟨j, hcode⟩ := code_pieces hist ha hb
  obtain ⟨first, second, htree, hfirst, hsecond⟩ := Stmt.exists_of_renameAll_eq_append (hcode id)
  refine ⟨first, second, htree, ?_, ?_, ?_⟩
  · have hshape := congrArg (Stmt.renameAll (.shape id)) hfirst
    rwa [Attempt.code, Stmt.renameAll_renameAll, Stmt.renameAll_renameAll] at hshape
  · have hshape := congrArg (Stmt.renameAll (.shape lineless)) hsecond
    rwa [Attempt.code, Stmt.renameAll_renameAll, Stmt.renameAll_renameAll] at hshape
  · intro S hS
    have hshown := hist.run_shown id ha n
    rw [hrun] at hshown
    obtain ⟨e, hfailed⟩ := concluded_failed hshown.symm
    have hrenamed := Exec.interpret_distances (Attempt.mk s (a ++ "\n" ++ b)).distances id n first s.machine
    rw [hist.view_recorded id hwhole.parsed, hfirst, hfailed] at hrenamed
    rw [htree] at hS
    cases hresult : Exec.interpret (Attempt.mk s (a ++ "\n" ++ b)).distances n first s.machine with
    | done u m =>
      rw [hresult] at hrenamed
      cases hrenamed
    | failed e' m => exact Exec.starts_of_failed hresult hS
    | outOfFuel =>
      rw [hresult] at hrenamed
      cases hrenamed

variable {x : Step} {later : List Step} {outcome : Outcome} {printed : ByteArray} {reports : Reports}

/-- The whole is seen after a first piece that ends well: its output goes on with that of the second
piece, and all else is as if the second piece had been run on its own. -/
theorem Takes.shows_whole (hist : History clock limit rs s) (htakes : Takes id s x s₁) (hok : x.outcome = .ok)
    (hb : (Attempt.mk s b).Accepted) :
    s.Shows lineless (⟨x.source ++ "\n" ++ b, outcome, printed, reports⟩ :: later) ↔
      ∃ rest, printed = x.printed ++ rest ∧ s₁.Shows lineless (⟨b, outcome, rest, reports⟩ :: later) := by
  obtain ⟨n, hn⟩ := htakes.run
  rw [hok] at hn
  have hist₁ := hist.run hn
  have hsame : ∀ k, _ := fun k => hist.run_whole_of_ok hn hb (Nat.le_max_left n k)
  constructor
  · intro h
    obtain ⟨t, ht, hlater⟩ := shows_cons.1 h
    obtain ⟨k, hk⟩ := ht.run
    obtain ⟨t', ht', hview, hreports⟩ :=
      exists_of_shown lineless (hsame k) (run_more (Nat.le_max_right n k) hk)
    obtain ⟨rest, hrest⟩ : ∃ rest, t'.machine.output.written = s₁.machine.output.written ++ rest :=
      ⟨_, written_of_run ht'⟩
    refine ⟨rest, ?_, shows_cons.2 ⟨t', ⟨⟨_, ht'⟩, hrest, hreports.trans ht.reports⟩, ?_⟩⟩
    · rw [written_of_view hview, ht.printed, htakes.printed, ByteArray.append_assoc] at hrest
      exact (ByteArray.append_right_inj _).1 hrest
    · exact (shows_congr (ht.history hist) (hist₁.run ht') hview.symm later).1 hlater
  · rintro ⟨rest, rfl, h⟩
    obtain ⟨t', ht', hlater⟩ := shows_cons.1 h
    obtain ⟨k, hk⟩ := ht'.run
    obtain ⟨t, ht, hview, hreports⟩ :=
      exists_of_shown lineless (hsame k).symm (run_more (Nat.le_max_right n k) hk)
    refine shows_cons.2 ⟨t, ⟨⟨_, ht⟩, ?_, hreports.trans ht'.reports⟩, ?_⟩
    · rw [written_of_view hview, ht'.printed, htakes.printed, ByteArray.append_assoc]
    · exact (shows_congr (ht'.history hist₁) (hist.run ht) hview.symm later).1 hlater

/-- A whole with a first piece that fails is seen as the first piece alone. -/
theorem Takes.shows_failed (hist : History clock limit rs s) (htakes : Takes id s x s₁)
    (hfailed : x.outcome = .runtimeError) (hb : (Attempt.mk s b).Accepted) :
    s.Shows id (⟨x.source ++ "\n" ++ b, outcome, printed, reports⟩ :: later) ↔
      s.Shows id (⟨x.source, outcome, printed, reports⟩ :: later) := by
  obtain ⟨n, hn⟩ := htakes.run
  rw [hfailed] at hn
  have hsame := hist.run_whole_of_failed hn hb
  constructor
  · intro h
    obtain ⟨t, ht, hlater⟩ := shows_cons.1 h
    obtain ⟨t', ht', hview⟩ := ht.of_shown hsame rfl
    exact shows_cons.2 ⟨t', ht', shows_of_view (ht.history hist) (ht'.history hist) hview hlater⟩
  · intro h
    obtain ⟨t, ht, hlater⟩ := shows_cons.1 h
    obtain ⟨t', ht', hview⟩ := ht.of_shown (fun k => (hsame k).symm) rfl
    exact shows_cons.2 ⟨t', ht', shows_of_view (ht.history hist) (ht'.history hist) hview hlater⟩

end Session

open Session

/-- A source that is run whole agrees with its two pieces run one after the other, if neither has a
static error. If the first piece ends well, the whole prints what the first piece prints and then what
the second one does, ends as the second one ends, with the same report up to lines, and every later run
is the same up to lines. If the first piece fails, the whole is seen exactly as the first piece is, and
starts no statement of the second one. -/
theorem whole_agrees_with_pieces {clock : Clock} {limit : Option Nat} {rs : List Attempt} {s s₁ : Session}
    {x : Step} {b : String} (hist : History clock limit rs s) (htakes : Takes id s x s₁)
    (hb : (Attempt.mk s b).Accepted) :
    (x.outcome = .ok → ∀ outcome printed reports later,
      s.Shows lineless (⟨x.source ++ "\n" ++ b, outcome, printed, reports⟩ :: later) ↔
        ∃ rest, printed = x.printed ++ rest ∧
          s₁.Shows lineless (⟨b, outcome, rest, reports⟩ :: later)) ∧
    (x.outcome = .runtimeError →
      (∀ outcome printed reports later,
        s.Shows id (⟨x.source ++ "\n" ++ b, outcome, printed, reports⟩ :: later) ↔
          s.Shows id (⟨x.source, outcome, printed, reports⟩ :: later)) ∧
      ∃ first second, (Attempt.mk s (x.source ++ "\n" ++ b)).tree = first ++ second ∧
        Stmt.renameAll (.shape id) first = Stmt.renameAll (.shape id) (Attempt.mk s x.source).tree ∧
        Stmt.renameAll (.shape lineless) second = Stmt.renameAll (.shape lineless) (Attempt.mk s b).tree ∧
        ∀ S, Starts (Attempt.mk s (x.source ++ "\n" ++ b)).distances
            (Attempt.mk s (x.source ++ "\n" ++ b)).tree s.machine S →
          Starts (Attempt.mk s (x.source ++ "\n" ++ b)).distances first s.machine S) := by
  refine ⟨fun hok _ _ _ _ => htakes.shows_whole hist hok hb, fun hfailed => ⟨?_, ?_⟩⟩
  · exact fun _ _ _ _ => htakes.shows_failed hist hfailed hb
  · obtain ⟨n, hn⟩ := htakes.run
    rw [hfailed] at hn
    exact hist.starts_of_failed hn hb

/-- A first piece that ends well. -/
def declaringPiece : Step := ⟨"var a = true;", .ok, .empty, {}⟩

/-- A second piece that prints and then fails, on its second line. -/
def failingPiece : Step :=
  ⟨"print a;\nprint c;", .runtimeError, "true\n".toUTF8,
    ⟨[.runtime ⟨.symbol .identifier, "c", 2⟩ "Undefined variable 'c'."], true⟩⟩

theorem failingPiece_agrees :
    (∃ s₁, Takes id (.fresh ⟨fun _ => 0, 0⟩) declaringPiece s₁) ∧
      (Attempt.mk (.fresh ⟨fun _ => 0, 0⟩) failingPiece.source).Accepted ∧
      (Session.fresh ⟨fun _ => 0, 0⟩).Shows lineless
        [⟨"var a = true;\nprint a;\nprint c;", .runtimeError, "true\n".toUTF8,
          ⟨[.runtime ⟨.symbol .identifier, "c", 0⟩ "Undefined variable 'c'."], true⟩⟩] := by
  have hb : (Attempt.mk (.fresh ⟨fun _ => 0, 0⟩) failingPiece.source).Accepted :=
    ⟨by decide +kernel, by decide +kernel, by decide +kernel⟩
  have hpieces : (Session.fresh ⟨fun _ => 0, 0⟩).Shows id [declaringPiece, failingPiece] :=
    shows_of_transcript 10 [declaringPiece.source, failingPiece.source] (by decide +kernel)
  obtain ⟨s₁, htakes, hrest⟩ := shows_cons.1 hpieces
  obtain ⟨t, htakes', _⟩ := shows_cons.1 hrest
  refine ⟨⟨s₁, htakes⟩, hb, ((whole_agrees_with_pieces .fresh htakes hb).1 rfl _ _ _ _).2 ?_⟩
  refine ⟨failingPiece.printed, by simp [declaringPiece, failingPiece], shows_cons.2 ⟨t, ?_, t, .nil⟩⟩
  refine ⟨htakes'.run, htakes'.printed, ?_⟩
  have hreports : t.reports = failingPiece.reports := by simpa using htakes'.reports
  rw [hreports]
  rfl

end Lox
