import Lox.Proofs.Execution.Truncation
import Lox.Proofs.Session.Restoration

/-!
# Runs with an output that closes

Two runs of one source are compared, one with an open output and one whose output closes after `n` bytes.
The moments of the second run are those of the first at which no more than `n` bytes are written
(`Visits.limited`, `Visits.of_limited`): so they do the same up to the line that crosses byte `n`, and
after it the second run does nothing. Main statement: `closed_output_truncates`.
-/

namespace Lox

/-- The output is open, and no more than `n` bytes are written. -/
structure Machine.HasRoom (n : Nat) (m : Machine ν) : Prop where
  unlimited : m.output.limit = none
  size : m.output.written.size ≤ n

theorem Output.Extended.size_le {o o' : Output} (h : o.Extended o') : o.written.size ≤ o'.written.size := by
  obtain ⟨bytes, hb⟩ := h.written
  rw [hb, ByteArray.size_append]
  exact Nat.le_add_right _ _

theorem extract_append_of_le {a b : ByteArray} {n : Nat} (h : n ≤ a.size) :
    (a ++ b).extract 0 n = a.extract 0 n := by
  rw [ByteArray.extract_append, Nat.sub_eq_zero_of_le h]
  simp

theorem Crosses.lt {d : Distances ν} {n : Nat} {M : Moment ν} {kw : Token} {m₁ : Machine ν} {line : ByteArray}
    (h : Crosses d n M kw m₁ line) : n < (m₁.output.written ++ line).size := by
  cases h with
  | print _ _ _ hover => exact hover

/-- The moment with an output that closes after `n` bytes. -/
def Moment.limited (n : Nat) (M : Moment ν) : Moment ν := (M.1, M.2.limited n)

/-! ## Moments -/

namespace Exec

section
variable {d : Distances ν} {n : Nat} {V : Moment ν → Prop} {x : Nat → Exec ν α} {m m' : Machine ν} {a : α}

/-- A step that stays below the limit yields the same with it. -/
theorem Yields.limited (h : Yields x m a m') (hx : ∀ j, Truncated d n V (x j) m)
    (hsize : m'.output.written.size ≤ n) : m.output.Extended m'.output ∧
      (m.output.limit = none → Yields x (m.limited n) a (m'.limited n)) := by
  obtain ⟨j, hj⟩ := h
  have hend : (x j m).machine? = some m' := congrArg Result.machine? hj
  have hext := (hx j).extended m' hend
  refine ⟨hext, fun hopen => ⟨j, ?_⟩⟩
  cases (hx j).agrees hopen (Nat.le_trans hext.size_le hsize) with
  | fits hsame _ =>
    rw [hsame, hj]
    rfl
  | cut _ _ hcross _ hrest =>
    obtain ⟨rest, hw⟩ := hrest m' hend
    have hover := hcross.lt
    rw [hw, ByteArray.size_append] at hsize
    omega

/-- What a step yields with the limit, it yields without. -/
theorem Yields.of_limited {N : Machine ν} (h : Yields x (m.limited n) a N)
    (hx : ∀ j, Truncated d n V (x j) m) (hroom : m.HasRoom n) :
    ∃ m', N = m'.limited n ∧ m'.HasRoom n ∧ Yields x m a m' := by
  obtain ⟨j, hj⟩ := h
  cases (hx j).agrees hroom.unlimited hroom.size with
  | fits hsame hfits =>
    rw [hj] at hsame
    cases hr : x j m with
    | done b m' =>
      rw [hr] at hsame
      cases hsame
      have hend : (x j m).machine? = some m' := congrArg Result.machine? hr
      exact ⟨m', rfl, ⟨((hx j).extended m' hend).limit.trans hroom.unlimited, hfits m' hend⟩, j, hr⟩
    | failed e m' =>
      rw [hr] at hsame
      cases hsame
    | outOfFuel =>
      rw [hr] at hsame
      cases hsame
  | cut hstop =>
    rw [hj] at hstop
    cases hstop

end

section
variable {d : Distances ν} {n : Nat} {m m' : Machine ν}

theorem eval_limited {e : Expr ν} {v : Value} (h : Yields (eval d · e) m v m')
    (hsize : m'.output.written.size ≤ n) : m.output.Extended m'.output ∧
      (m.output.limit = none → Yields (eval d · e) (m.limited n) v (m'.limited n)) :=
  h.limited (fun j => (truncatedRuns d n j).eval e m) hsize

theorem evalAll_limited {es : List (Expr ν)} {vs : List Value} (h : Yields (evalAll d · es) m vs m')
    (hsize : m'.output.written.size ≤ n) : m.output.Extended m'.output ∧
      (m.output.limit = none → Yields (evalAll d · es) (m.limited n) vs (m'.limited n)) :=
  h.limited (fun j => (truncatedRuns d n j).evalAll es m) hsize

theorem exec_limited {t : Stmt ν} {flow : Flow} (h : Yields (exec d · t) m flow m')
    (hsize : m'.output.written.size ≤ n) : m.output.Extended m'.output ∧
      (m.output.limit = none → Yields (exec d · t) (m.limited n) flow (m'.limited n)) :=
  h.limited (fun j => (truncatedRuns d n j).exec t m) hsize

theorem eval_of_limited {e : Expr ν} {v : Value} {N : Machine ν} (hroom : m.HasRoom n)
    (h : Yields (eval d · e) (m.limited n) v N) :
    ∃ m', N = m'.limited n ∧ m'.HasRoom n ∧ Yields (eval d · e) m v m' :=
  h.of_limited (fun j => (truncatedRuns d n j).eval e m) hroom

theorem evalAll_of_limited {es : List (Expr ν)} {vs : List Value} {N : Machine ν} (hroom : m.HasRoom n)
    (h : Yields (evalAll d · es) (m.limited n) vs N) :
    ∃ m', N = m'.limited n ∧ m'.HasRoom n ∧ Yields (evalAll d · es) m vs m' :=
  h.of_limited (fun j => (truncatedRuns d n j).evalAll es m) hroom

theorem exec_of_limited {t : Stmt ν} {flow : Flow} {N : Machine ν} (hroom : m.HasRoom n)
    (h : Yields (exec d · t) (m.limited n) flow N) :
    ∃ m', N = m'.limited n ∧ m'.HasRoom n ∧ Yields (exec d · t) m flow m' :=
  h.of_limited (fun j => (truncatedRuns d n j).exec t m) hroom

end

end Exec

section
variable {d : Distances ν} {n : Nat}

open Exec in
/-- Below the limit, a moment with it starts what the moment without it starts. -/
theorem Calls.limited {M M' : Moment ν} (h : Calls d M M') (hsize : M'.2.output.written.size ≤ n) :
    M.2.output.Extended M'.2.output ∧
      (M.2.output.limit = none → Calls d (M.limited n) (M'.limited n)) := by
  cases h with
  | assignValue => exact ⟨.refl, fun _ => .assignValue⟩
  | binaryLeft => exact ⟨.refl, fun _ => .binaryLeft⟩
  | binaryRight hl => exact (eval_limited hl hsize).imp_right fun hl' hopen => .binaryRight (hl' hopen)
  | callee => exact ⟨.refl, fun _ => .callee⟩
  | arguments hf => exact (eval_limited hf hsize).imp_right fun hf' hopen => .arguments (hf' hopen)
  | invoke hf ha =>
    obtain ⟨hext', ha'⟩ := evalAll_limited ha hsize
    obtain ⟨hext, hf'⟩ := eval_limited hf (Nat.le_trans hext'.size_le hsize)
    exact ⟨hext.trans hext', fun hopen => .invoke (hf' hopen) (ha' (hext.limit.trans hopen))⟩
  | getObject => exact ⟨.refl, fun _ => .getObject⟩
  | grouping => exact ⟨.refl, fun _ => .grouping⟩
  | logicalLeft => exact ⟨.refl, fun _ => .logicalLeft⟩
  | logicalRight hl hop =>
    exact (eval_limited hl hsize).imp_right fun hl' hopen => .logicalRight (hl' hopen) hop
  | setObject => exact ⟨.refl, fun _ => .setObject⟩
  | setValue ho => exact (eval_limited ho hsize).imp_right fun ho' hopen => .setValue (ho' hopen)
  | operand => exact ⟨.refl, fun _ => .operand⟩
  | first => exact ⟨.refl, fun _ => .first⟩
  | others he => exact (eval_limited he hsize).imp_right fun he' hopen => .others (he' hopen)
  | apply hf hargs hdepth => exact ⟨.refl, fun _ => .apply hf hargs hdepth⟩
  | function => exact ⟨.refl, fun _ => .function⟩
  | initializer => exact ⟨.refl, fun _ => .initializer⟩
  | functionBody => exact ⟨.refl, fun _ => .functionBody⟩
  | blockBody => exact ⟨.refl, fun _ => .blockBody⟩
  | superclass => exact ⟨.refl, fun _ => .superclass⟩
  | expression => exact ⟨.refl, fun _ => .expression⟩
  | test => exact ⟨.refl, fun _ => .test⟩
  | thenBranch hc hv => exact (eval_limited hc hsize).imp_right fun hc' hopen => .thenBranch (hc' hopen) hv
  | elseBranch hc hv => exact (eval_limited hc hsize).imp_right fun hc' hopen => .elseBranch (hc' hopen) hv
  | printed => exact ⟨.refl, fun _ => .printed⟩
  | returned => exact ⟨.refl, fun _ => .returned⟩
  | variableValue => exact ⟨.refl, fun _ => .variableValue⟩
  | loopTest => exact ⟨.refl, fun _ => .loopTest⟩
  | loopBody hc hv => exact (eval_limited hc hsize).imp_right fun hc' hopen => .loopBody (hc' hopen) hv
  | loopAgain hc hv hb =>
    obtain ⟨hext', hb'⟩ := exec_limited hb hsize
    obtain ⟨hext, hc'⟩ := eval_limited hc (Nat.le_trans hext'.size_le hsize)
    exact ⟨hext.trans hext', fun hopen => .loopAgain (hc' hopen) hv (hb' (hext.limit.trans hopen))⟩
  | firstStatement => exact ⟨.refl, fun _ => .firstStatement⟩
  | otherStatements ht =>
    exact (exec_limited ht hsize).imp_right fun ht' hopen => .otherStatements (ht' hopen)

open Exec in
/-- A moment with the limit starts nothing else. -/
theorem Calls.of_limited {M N : Moment ν} (h : Calls d (M.limited n) N) (hroom : M.2.HasRoom n) :
    ∃ M', N = M'.limited n ∧ M'.2.HasRoom n ∧ Calls d M M' := by
  obtain ⟨T, m⟩ := M
  change Calls d (T, m.limited n) N at h
  cases h with
  | assignValue => exact ⟨(_, m), rfl, hroom, .assignValue⟩
  | binaryLeft => exact ⟨(_, m), rfl, hroom, .binaryLeft⟩
  | binaryRight hl =>
    obtain ⟨m', rfl, hroom', hl'⟩ := eval_of_limited hroom hl
    exact ⟨(_, m'), rfl, hroom', .binaryRight hl'⟩
  | callee => exact ⟨(_, m), rfl, hroom, .callee⟩
  | arguments hf =>
    obtain ⟨m', rfl, hroom', hf'⟩ := eval_of_limited hroom hf
    exact ⟨(_, m'), rfl, hroom', .arguments hf'⟩
  | invoke hf ha =>
    obtain ⟨m', rfl, hroom', hf'⟩ := eval_of_limited hroom hf
    obtain ⟨m'', rfl, hroom'', ha'⟩ := evalAll_of_limited hroom' ha
    exact ⟨(_, m''), rfl, hroom'', .invoke hf' ha'⟩
  | getObject => exact ⟨(_, m), rfl, hroom, .getObject⟩
  | grouping => exact ⟨(_, m), rfl, hroom, .grouping⟩
  | logicalLeft => exact ⟨(_, m), rfl, hroom, .logicalLeft⟩
  | logicalRight hl hop =>
    obtain ⟨m', rfl, hroom', hl'⟩ := eval_of_limited hroom hl
    exact ⟨(_, m'), rfl, hroom', .logicalRight hl' hop⟩
  | setObject => exact ⟨(_, m), rfl, hroom, .setObject⟩
  | setValue ho =>
    obtain ⟨m', rfl, hroom', ho'⟩ := eval_of_limited hroom ho
    exact ⟨(_, m'), rfl, hroom', .setValue ho'⟩
  | operand => exact ⟨(_, m), rfl, hroom, .operand⟩
  | first => exact ⟨(_, m), rfl, hroom, .first⟩
  | others he =>
    obtain ⟨m', rfl, hroom', he'⟩ := eval_of_limited hroom he
    exact ⟨(_, m'), rfl, hroom', .others he'⟩
  | apply hf hargs hdepth =>
    exact ⟨(_, { m with depth := m.depth + 1 }), rfl, ⟨hroom.unlimited, hroom.size⟩, .apply hf hargs hdepth⟩
  | function => exact ⟨(_, m), rfl, hroom, .function⟩
  | @initializer i f =>
    exact ⟨(_, (m.construct i).bindMethod f m.store.objects.size), rfl, ⟨hroom.unlimited, hroom.size⟩,
      .initializer⟩
  | @functionBody f args =>
    exact ⟨(_, m.enter f.closure (f.locals args)), rfl, ⟨hroom.unlimited, hroom.size⟩, .functionBody⟩
  | blockBody => exact ⟨(_, m.enter m.env {}), rfl, ⟨hroom.unlimited, hroom.size⟩, .blockBody⟩
  | superclass => exact ⟨(_, m), rfl, hroom, .superclass⟩
  | expression => exact ⟨(_, m), rfl, hroom, .expression⟩
  | test => exact ⟨(_, m), rfl, hroom, .test⟩
  | thenBranch hc hv =>
    obtain ⟨m', rfl, hroom', hc'⟩ := eval_of_limited hroom hc
    exact ⟨(_, m'), rfl, hroom', .thenBranch hc' hv⟩
  | elseBranch hc hv =>
    obtain ⟨m', rfl, hroom', hc'⟩ := eval_of_limited hroom hc
    exact ⟨(_, m'), rfl, hroom', .elseBranch hc' hv⟩
  | printed => exact ⟨(_, m), rfl, hroom, .printed⟩
  | returned => exact ⟨(_, m), rfl, hroom, .returned⟩
  | variableValue => exact ⟨(_, m), rfl, hroom, .variableValue⟩
  | loopTest => exact ⟨(_, m), rfl, hroom, .loopTest⟩
  | loopBody hc hv =>
    obtain ⟨m', rfl, hroom', hc'⟩ := eval_of_limited hroom hc
    exact ⟨(_, m'), rfl, hroom', .loopBody hc' hv⟩
  | loopAgain hc hv hb =>
    obtain ⟨m', rfl, hroom', hc'⟩ := eval_of_limited hroom hc
    obtain ⟨m'', rfl, hroom'', hb'⟩ := exec_of_limited hroom' hb
    exact ⟨(_, m''), rfl, hroom'', .loopAgain hc' hv hb'⟩
  | firstStatement => exact ⟨(_, m), rfl, hroom, .firstStatement⟩
  | otherStatements ht =>
    obtain ⟨m', rfl, hroom', ht'⟩ := exec_of_limited hroom ht
    exact ⟨(_, m'), rfl, hroom', .otherStatements ht'⟩

theorem Visits.limited {M M' : Moment ν} (h : Visits d M M') (hsize : M'.2.output.written.size ≤ n) :
    M.2.output.Extended M'.2.output ∧
      (M.2.output.limit = none → Visits d (M.limited n) (M'.limited n)) := by
  induction h with
  | refl => exact ⟨.refl, fun _ => .refl⟩
  | tail _ hcall ih =>
    obtain ⟨hext', hcall'⟩ := hcall.limited hsize
    obtain ⟨hext, hv⟩ := ih (Nat.le_trans hext'.size_le hsize)
    exact ⟨hext.trans hext', fun hopen => (hv hopen).tail (hcall' (hext.limit.trans hopen))⟩

theorem Visits.of_limited {M N : Moment ν} (h : Visits d (M.limited n) N) (hroom : M.2.HasRoom n) :
    ∃ M', N = M'.limited n ∧ M'.2.HasRoom n ∧ Visits d M M' := by
  induction h with
  | refl => exact ⟨M, rfl, hroom, .refl⟩
  | tail _ hcall ih =>
    obtain ⟨M₁, rfl, hroom₁, hv⟩ := ih
    obtain ⟨M', rfl, hroom', hcall'⟩ := hcall.of_limited hroom₁
    exact ⟨M', rfl, hroom', hv.tail hcall'⟩

open Exec in
theorem Starts.limited {tree : List (Stmt ν)} {m : Machine ν} {S : Moment ν} (h : Starts d tree m S)
    (hsize : S.2.output.written.size ≤ n) : m.output.Extended S.2.output ∧
      (m.output.limit = none → Starts d tree (m.limited n) (S.limited n)) := by
  induction h with
  | first => exact ⟨.refl, fun _ => .first⟩
  | next hy _ ih =>
    obtain ⟨hext', hS⟩ := ih hsize
    obtain ⟨hext, hy'⟩ := exec_limited hy (Nat.le_trans hext'.size_le hsize)
    exact ⟨hext.trans hext', fun hopen => .next (hy' hopen) (hS (hext.limit.trans hopen))⟩

open Exec in
theorem Starts.of_limited {tree : List (Stmt ν)} {m : Machine ν} {N : Moment ν}
    (h : Starts d tree (m.limited n) N) (hroom : m.HasRoom n) :
    ∃ S, N = S.limited n ∧ S.2.HasRoom n ∧ Starts d tree m S := by
  generalize hm : m.limited n = m' at h
  induction h generalizing m with
  | first =>
    subst hm
    exact ⟨(_, m), rfl, hroom, .first⟩
  | next hy _ ih =>
    subst hm
    obtain ⟨m₁, rfl, hroom₁, hy'⟩ := exec_of_limited hroom hy
    obtain ⟨S, rfl, hS, hstarts⟩ := ih hroom₁ rfl
    exact ⟨S, rfl, hS, .next hy' hstarts⟩

end

/-! ## Sessions -/

namespace Session

/-- The session with an output that closes after `n` bytes. -/
def limited (n : Nat) (s : Session) : Session := { s with machine := s.machine.limited n }

theorem fresh_limited (clock : Clock) (n : Nat) :
    (Session.fresh clock).limited n = Session.fresh clock (some n) := rfl

end Session

namespace Attempt

variable {s : Session} {source : String} {n : Nat}

theorem accepted_limited : (mk (s.limited n) source).Accepted ↔ (mk s source).Accepted :=
  ⟨fun h => ⟨h.scanned, h.parsed, h.resolved⟩, fun h => ⟨h.scanned, h.parsed, h.resolved⟩⟩

/-- The moments of the run with the limit are those of the run without it that stay below. -/
theorem visits_limited_iff (hroom : s.machine.HasRoom n) (N : Moment NodeId) :
    (mk (s.limited n) source).Visits N ↔
      ∃ M, N = M.limited n ∧ M.2.output.written.size ≤ n ∧ (mk s source).Visits M := by
  constructor
  · rintro ⟨ha, S, hS, hv⟩
    obtain ⟨S, rfl, hroom', hS'⟩ := Starts.of_limited hS hroom
    obtain ⟨M, rfl, hM, hv'⟩ := hv.of_limited hroom'
    exact ⟨M, rfl, hM.size, accepted_limited.1 ha, S, hS', hv'⟩
  · rintro ⟨M, rfl, hsize, ha, S, hS, hv⟩
    obtain ⟨hext', hv'⟩ := hv.limited hsize
    obtain ⟨hext, hS'⟩ := hS.limited (Nat.le_trans hext'.size_le hsize)
    exact ⟨accepted_limited.2 ha, S.limited n, hS' hroom.unlimited, hv' (hext.limit.trans hroom.unlimited)⟩

end Attempt

namespace Session

variable {s s' : Session} {source : String} {n fuel : Nat} {outcome : Outcome}

theorem run_of_done {u : Unit} {m : Machine NodeId} (ha : (Attempt.mk s source).Accepted)
    (h : Exec.interpret (Attempt.mk s source).distances fuel (Attempt.mk s source).tree s.machine
      = .done u m) : s.run fuel source = some (.ok, { s.prepared source with machine := m }) := by
  rw [run_of_accepted ha, h]

theorem run_of_failed {e : RuntimeError} {m : Machine NodeId} (ha : (Attempt.mk s source).Accepted)
    (h : Exec.interpret (Attempt.mk s source).distances fuel (Attempt.mk s source).tree s.machine
      = .failed e m) :
    s.run fuel source = some (.runtimeError, { s.prepared source with
      machine := m, reports := Reports.empty.addRuntimeError e.blamed e.cause.message }) := by
  rw [run_of_accepted ha, h]

theorem refused_limited (s : Session) (source : String) (n : Nat) :
    (s.limited n).refused source = (s.refused source).limited n := by
  simp only [refused, apply_ite (limited n)]
  rfl

/-- A run prints a line that crosses byte `n`, and with the limit it stops there. -/
inductive StopsAtLine (s : Session) (source : String) (fuel n : Nat) (s' : Session) : Prop
  | intro : (Attempt.mk s source).Visits M → Crosses (Attempt.mk s source).distances n M kw m₁ line →
      s'.machine.output.written = m₁.output.written ++ line ++ rest →
      (s.limited n).run fuel source = some (.runtimeError, { s' with
        machine := { m₁ with env := s.machine.env, depth := s.machine.depth
                             output := ⟨s'.machine.output.written.extract 0 n, some n⟩ }
        reports := Reports.empty.addRuntimeError kw "output closed" }) →
      StopsAtLine s source fuel n s'

/-- A run with the limit ends as the one without it, or at the line that crosses the limit. -/
theorem run_limited (hroom : s.machine.HasRoom n) (hrun : s.run fuel source = some (outcome, s')) :
    s'.machine.output.written.size ≤ n ∧
        (s.limited n).run fuel source = some (outcome, s'.limited n) ∨
      s.StopsAtLine source fuel n s' := by
  by_cases ha : (Attempt.mk s source).Accepted
  · have ha' := Attempt.accepted_limited (n := n).2 ha
    have hstep := Exec.truncated_interpret (Attempt.mk s source).distances n fuel (Attempt.mk s source).tree
      s.machine
    cases hstep.agrees hroom.unlimited hroom.size with
    | fits hsame hfits =>
      left
      cases hr : Exec.interpret (Attempt.mk s source).distances fuel (Attempt.mk s source).tree s.machine with
      | done u m =>
        rw [hr] at hsame hfits
        rw [run_of_done ha hr] at hrun
        cases hrun
        exact ⟨hfits m rfl, run_of_done ha' hsame⟩
      | failed e m =>
        rw [hr] at hsame hfits
        rw [run_of_failed ha hr] at hrun
        cases hrun
        exact ⟨hfits m rfl, run_of_failed ha' hsame⟩
      | outOfFuel =>
        rw [run_of_accepted ha, hr] at hrun
        cases hrun
    | @cut kw m' M m₁ line hstop hv hcross hat hrest =>
      obtain ⟨hend, hs'⟩ := machine_of_run ha hrun
      obtain ⟨rest, hw⟩ := hrest _ hend
      have hkeeps : Exec.Keeps (.all NodeId) (Exec.interpret (Attempt.mk s source).distances fuel
          (Attempt.mk s source).tree) (s.machine.limited n) :=
        Exec.keeps_interpret _ _ fuel (fun _ _ => trivial) _
      have hlimit := hkeeps.failed (Store.holds_all _) hstop
      have hcut : (m₁.output.written ++ line).extract 0 n = s'.machine.output.written.extract 0 n := by
        rw [hw, extract_append_of_le (Nat.le_of_lt hcross.lt)]
      have hm' : m' = { m₁ with env := s.machine.env, depth := s.machine.depth
                                output := ⟨s'.machine.output.written.extract 0 n, some n⟩ } := by
        obtain ⟨store, env, depth, output, clock⟩ := m'
        simp only [Machine.mk.injEq]
        exact ⟨hat.store, hlimit.env, hlimit.depth, hat.output.trans (by rw [hcut]), hat.clock⟩
      refine .inr (.intro ⟨ha, hv⟩ hcross hw ?_)
      rw [← hm', hs']
      exact run_of_failed ha' hstop
  · rw [run_of_refused ha] at hrun
    cases hrun
    refine .inl ⟨?_, ?_⟩
    · rw [(run_of_not_accepted ha (run_of_refused ha fuel)).1]
      exact hroom.size
    · rw [run_of_refused (mt Attempt.accepted_limited.1 ha), refused_limited]

end Session

/-- A closed output only truncates. Take a run that finishes with an open output. If what it has written
fits into `n` bytes, then with an output that closes after `n` bytes it ends with the same outcome, the
same reports and the same machine. If not, then one of its moments prints a line that crosses byte `n`:
with the limit the run ends in a runtime error that blames the keyword of this print statement, its output
is the first `n` bytes, and all the rest of its machine is as it was when the line was printed. In both
cases the moments of the run with the limit are those of the run without it at which no more than `n`
bytes are written: nothing before depends on the limit, and nothing is executed after. -/
theorem closed_output_truncates {s s' : Session} {source : String} {fuel n : Nat} {outcome : Outcome}
    (hroom : s.machine.HasRoom n) (hrun : s.run fuel source = some (outcome, s')) :
    (s'.machine.output.written.size ≤ n →
      (s.limited n).run fuel source = some (outcome, s'.limited n)) ∧
    (n < s'.machine.output.written.size →
      ∃ M kw m₁ line rest, (Attempt.mk s source).Visits M ∧
        Crosses (Attempt.mk s source).distances n M kw m₁ line ∧
        s'.machine.output.written = m₁.output.written ++ line ++ rest ∧
        (s.limited n).run fuel source = some (.runtimeError, { s' with
          machine := { m₁ with env := s.machine.env, depth := s.machine.depth
                               output := ⟨s'.machine.output.written.extract 0 n, some n⟩ }
          reports := Reports.empty.addRuntimeError kw "output closed" })) ∧
    ∀ N, (Attempt.mk (s.limited n) source).Visits N ↔
      ∃ M, N = M.limited n ∧ M.2.output.written.size ≤ n ∧ (Attempt.mk s source).Visits M := by
  have hmoments : ∀ N, (Attempt.mk (s.limited n) source).Visits N ↔ _ := Attempt.visits_limited_iff hroom
  rcases Session.run_limited hroom hrun with ⟨hsize, hsame⟩ | ⟨hv, hcross, hw, hlimited⟩
  · exact ⟨fun _ => hsame, fun hover => absurd hsize (Nat.not_le_of_lt hover), hmoments⟩
  · refine ⟨fun hsize => ?_, fun _ => ⟨_, _, _, _, _, hv, hcross, hw, hlimited⟩, hmoments⟩
    have hover := hcross.lt
    rw [hw, ByteArray.size_append] at hsize
    omega

/-- An initializer that prints in a loop. -/
def printsInLoop : String :=
  "class A{init(){while(true){print nil;print true;return;}}} A(); print false;"

/-- After six bytes the second line of the initializer is cut. -/
theorem printsInLoop_is_cut :
    ∃ s' s'', (Session.fresh ⟨fun _ => 0, 0⟩).run 20 printsInLoop = some (.ok, s') ∧
      (Machine.initial ⟨fun _ => 0, 0⟩ : Machine NodeId).HasRoom 6 ∧
      6 < s'.machine.output.written.size ∧
      (Session.fresh ⟨fun _ => 0, 0⟩ (some 6)).run 20 printsInLoop = some (.runtimeError, s'') ∧
      s''.machine.output.written = "nil\ntr".toUTF8 := by
  have hw : ((Session.fresh ⟨fun _ => 0, 0⟩).run 20 printsInLoop).map
      (fun r => (r.1, r.2.machine.output.written)) = some (.ok, "nil\ntrue\nfalse\n".toUTF8) := by
    decide +kernel
  obtain ⟨⟨outcome, s'⟩, hrun, hend⟩ := Option.map_eq_some_iff.1 hw
  simp only [Prod.mk.injEq] at hend
  obtain ⟨rfl, hwritten⟩ := hend
  have hroom : (Machine.initial ⟨fun _ => 0, 0⟩ : Machine NodeId).HasRoom 6 := ⟨rfl, by decide⟩
  have hover : 6 < s'.machine.output.written.size := by
    rw [hwritten]
    decide +kernel
  have hcut := (closed_output_truncates (s := .fresh ⟨fun _ => 0, 0⟩) hroom hrun).2.1 hover
  obtain ⟨M, kw, m₁, line, rest, _, _, _, hlimited⟩ := hcut
  rw [Session.fresh_limited] at hlimited
  refine ⟨s', _, hrun, hroom, hover, hlimited, ?_⟩
  simp only [hwritten]
  decide +kernel

end Lox
