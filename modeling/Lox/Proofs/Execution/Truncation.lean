import Lox.Proofs.Execution.Changes
import Lox.Proofs.Execution.Raises

/-!
# An output that closes

A run looks at its output only when it prints. So a run whose output closes after `n` bytes goes on as
with an output that never closes, up to the line that crosses byte `n`; there it stops, and no branch of
the evaluator catches the error on its way out. `Truncated` says this of a step, `truncatedRuns` of
everything that the evaluator is asked to do, and `truncated_interpret` of a program.
-/

namespace Lox

/-- The second output is the first one with more bytes written. -/
structure Output.Extended (o o' : Output) : Prop where
  limit : o'.limit = o.limit
  written : ∃ bytes, o'.written = o.written ++ bytes

namespace Output.Extended

variable {o o' o'' : Output}

theorem refl : o.Extended o := ⟨rfl, .empty, ByteArray.append_empty.symm⟩

theorem trans (h : o.Extended o') (h' : o'.Extended o'') : o.Extended o'' := by
  obtain ⟨bytes, hb⟩ := h.written
  obtain ⟨bytes', hb'⟩ := h'.written
  exact ⟨h'.limit.trans h.limit, bytes ++ bytes', by rw [hb', hb, ByteArray.append_assoc]⟩

theorem write (o : Output) (bytes : ByteArray) : o.Extended (o.write bytes).2 := ⟨rfl, _, rfl⟩

end Output.Extended

/-- The machine with an output that closes after `n` bytes. -/
def Machine.limited (n : Nat) (m : Machine ν) : Machine ν := { m with output.limit := some n }

namespace Machine

variable {n : Nat} {m : Machine ν} {line : ByteArray}

/-- A line that fits is written as with an open output. -/
theorem write_limited_of_le (h : (m.output.written ++ line).size ≤ n) :
    (m.limited n).output.write line = (true, ⟨m.output.written ++ line, some n⟩) := by
  have hroom : (m.limited n).output.room line.size = line.size := by
    simp only [ByteArray.size_append, limited, Output.room] at h ⊢
    omega
  simp only [Output.write, hroom, decide_true, ByteArray.extract_zero_size]
  rfl

/-- Of a line that does not fit, the first bytes are written. -/
theorem write_limited_of_lt (hsize : m.output.written.size ≤ n)
    (h : n < (m.output.written ++ line).size) :
    (m.limited n).output.write line = (false, ⟨(m.output.written ++ line).extract 0 n, some n⟩) := by
  have hroom : (m.limited n).output.room line.size = n - m.output.written.size := by
    simp only [ByteArray.size_append, limited, Output.room] at h ⊢
    omega
  have hshort : n - m.output.written.size ≠ line.size := by
    simp only [ByteArray.size_append] at h
    omega
  have hwhole : m.output.written.extract 0 n = m.output.written := by
    ext1
    simp [hsize]
  simp only [Output.write, hroom, hshort, decide_false, ByteArray.extract_append, hwhole, Nat.zero_sub]
  rfl

end Machine

/-- The result with another machine. -/
def Result.onMachine (g : Machine ν → Machine ν) : Result ν α → Result ν α
  | .done a m => .done a (g m)
  | .failed e m => .failed e (g m)
  | .outOfFuel => .outOfFuel

/-- A machine is left as it was when it printed a line, with what fits of that line into `n` bytes. -/
structure Machine.StoppedAt (n : Nat) (line : ByteArray) (m m' : Machine ν) : Prop where
  store : m'.store = m.store
  clock : m'.clock = m.clock
  output : m'.output = ⟨(m.output.written ++ line).extract 0 n, some n⟩

open Exec in
/-- A moment prints a line that crosses byte `n`: the keyword, the machine on which the line is printed,
and the line. -/
inductive Crosses (d : Distances ν) (n : Nat) : Moment ν → Token → Machine ν → ByteArray → Prop
  | print : Yields (eval d · e) m v m₁ → line = (m₁.store.text v ++ "\n").toUTF8 →
      m₁.output.written.size ≤ n → n < (m₁.output.written ++ line).size →
      Crosses d n (.exec (.print kw e), m) kw m₁ line

/-- How a step ends that goes through the moments `V`: with an open output as the first result says, with
one that closes after `n` bytes as the second result says. -/
inductive Agrees (d : Distances ν) (n : Nat) (V : Moment ν → Prop) (r r' : Result ν α) : Prop
  /-- All that is printed fits, and no difference is seen. -/
  | fits : r' = r.onMachine (.limited n) → (∀ m', r.machine? = some m' → m'.output.written.size ≤ n) →
      Agrees d n V r r'
  /-- A line crosses byte `n`, and the run with the limit is stopped there. -/
  | cut : r' = .failed ⟨kw, .outputClosed⟩ m' → V M → Crosses d n M kw m₁ line → m₁.StoppedAt n line m' →
      (∀ m'', r.machine? = some m'' → ∃ rest, m''.output.written = m₁.output.written ++ line ++ rest) →
      Agrees d n V r r'

namespace Exec

/-! ## Steps that do not look at the output -/

/-- A step does the same whatever the output is, and leaves it alone. -/
def Silent (x : Exec ν α) : Prop :=
  ∀ m o, x { m with output := o } = (x m).onMachine fun m' => { m' with output := o }

namespace Silent

variable {x : Exec ν α} {f : α → Exec ν β}

theorem pure (a : α) : Silent (Pure.pure a : Exec ν α) := fun _ _ => rfl

theorem read {f : Machine ν → α} (h : ∀ m o, f { m with output := o } = f m) : Silent (Exec.read f) := by
  intro m o
  simp only [Exec.read, h m o, Result.onMachine]

theorem throwAt (t : Token) (cause : RuntimeFault) : Silent (Exec.throwAt t cause : Exec ν α) :=
  fun _ _ => rfl

theorem updateStore (f : Store ν → α × Store ν) : Silent (Exec.updateStore f) := fun _ _ => rfl

theorem define (x : String) (v : Value) : Silent (Exec.define x v : Exec ν Unit) := fun _ _ => rfl

theorem assignIn (x : Token) (locate : Frames → Except RuntimeFault FrameId) (v : Value) :
    Silent (Exec.assignIn x locate v : Exec ν Unit) := by
  intro m o
  simp only [Exec.assignIn]
  cases locate m.store.frames <;> rfl

theorem readClock : Silent (Exec.readClock : Exec ν Value) := fun _ _ => rfl

theorem bind (hx : Silent x) (hf : ∀ a, Silent (f a)) : Silent (x >>= f) := by
  intro m o
  rw [bind_apply, bind_apply, hx m o]
  cases x m with
  | done a m' => exact hf a m' o
  | failed e m' => rfl
  | outOfFuel => rfl

/-- The output is left alone. -/
theorem output_eq (hx : Silent x) {m m' : Machine ν} (h : (x m).machine? = some m') :
    m'.output = m.output := by
  have hsame := hx m m.output
  cases hr : x m with
  | done a m₁ =>
    simp only [hr, Result.onMachine, Result.done.injEq, true_and] at hsame h
    cases h
    rw [hsame]
  | failed e m₁ =>
    simp only [hr, Result.onMachine, Result.failed.injEq, true_and] at hsame h
    cases h
    rw [hsame]
  | outOfFuel =>
    rw [hr] at h
    cases h

/-- A limit makes no difference. -/
theorem limited (hx : Silent x) (n : Nat) (m : Machine ν) :
    x (m.limited n) = (x m).onMachine (.limited n) := by
  have hsame : x (m.limited n) = _ := hx m ⟨m.output.written, some n⟩
  rw [hsame]
  cases hr : x m with
  | done a m' => simp only [Result.onMachine, Machine.limited, hx.output_eq (congrArg Result.machine? hr)]
  | failed e m' => simp only [Result.onMachine, Machine.limited, hx.output_eq (congrArg Result.machine? hr)]
  | outOfFuel => rfl

end Silent

theorem Plain.silent {x : Exec ν α} (h : Plain x) : Silent x := by
  induction h with
  | pure a => exact .pure a
  | read hg => exact .read hg
  | throwAt t cause => exact .throwAt t cause
  | define x v => exact .define x v
  | assignIn x locate v => exact .assignIn x locate v
  | readClock => exact .readClock
  | bind _ _ ihx ihf => exact .bind ihx ihf
  | _ => exact .updateStore _

/-! ## Truncation -/

/-- A step that goes through the moments `V` only adds to the output, and stops early if that closes. -/
structure Truncated (d : Distances ν) (n : Nat) (V : Moment ν → Prop) (x : Exec ν α) (m : Machine ν) :
    Prop where
  extended : ∀ m', (x m).machine? = some m' → m.output.Extended m'.output
  agrees : m.output.limit = none → m.output.written.size ≤ n → Agrees d n V (x m) (x (m.limited n))

namespace Truncated

variable {d : Distances ν} {n : Nat} {V V' : Moment ν → Prop} {x : Exec ν α} {f : α → Exec ν β}
  {m : Machine ν}

theorem of_silent (hx : Silent x) : Truncated d n V x m where
  extended m' h := by
    rw [hx.output_eq h]
    exact .refl
  agrees _ hsize := .fits (hx.limited n m) fun m' h => by
    rw [hx.output_eq h]
    exact hsize

theorem outOfFuel : Truncated d n V (Exec.outOfFuel : Exec ν α) m :=
  of_silent fun _ _ => rfl

/-- Once the line is out, whatever follows only adds to it. -/
theorem bind (hx : Truncated d n V x m) (hf : ∀ a m', x m = .done a m' → Truncated d n V (f a) m') :
    Truncated d n V (x >>= f) m where
  extended m' h := by
    rcases machine?_bind h with h | ⟨a, m₁, hr, h⟩
    · exact hx.extended m' h
    · exact (hx.extended m₁ (congrArg Result.machine? hr)).trans ((hf a m₁ hr).extended m' h)
  agrees hopen hsize := by
    cases hx.agrees hopen hsize with
    | fits hsame hfits =>
      rw [bind_apply, bind_apply, hsame]
      cases hr : x m with
      | done a m₁ =>
        have hext := hx.extended m₁ (by rw [hr]; rfl)
        exact (hf a m₁ hr).agrees (hext.limit.trans hopen) (hfits m₁ (by rw [hr]; rfl))
      | failed e m₁ =>
        refine .fits rfl fun m' h => hfits m' ?_
        rw [hr]
        exact h
      | outOfFuel => exact .fits rfl fun m' h => nomatch h
    | cut hstop hv hcross hat hrest =>
      rw [bind_apply x f (m.limited n), hstop]
      refine .cut rfl hv hcross hat fun m' h => ?_
      rcases machine?_bind h with h | ⟨a, m₁, hr, h⟩
      · exact hrest m' h
      · obtain ⟨rest, hw⟩ := hrest m₁ (congrArg Result.machine? hr)
        obtain ⟨bytes, hb⟩ := ((hf a m₁ hr).extended m' h).written
        exact ⟨rest ++ bytes, by rw [hb, hw, ByteArray.append_assoc]⟩

theorem mono (hV : ∀ M, V M → V' M) (hx : Truncated d n V x m) : Truncated d n V' x m where
  extended := hx.extended
  agrees hopen hsize := by
    cases hx.agrees hopen hsize with
    | fits hsame hfits => exact .fits hsame hfits
    | cut hstop hv hcross hat hrest => exact .cut hstop (hV _ hv) hcross hat hrest

/-- What a moment starts belongs to its course. -/
theorem of_calls {M M' : Moment ν} (hc : Calls d M M') (hx : Truncated d n (Visits d M') x m) :
    Truncated d n (Visits d M) x m :=
  hx.mono fun _ hv => hv.head hc

/-- A step that is run in another frame or at another depth, and these put back. -/
theorem within {y : Exec ν α} {e : FrameId} {k : Nat} (place : FrameId → FrameId) (back : Nat → Nat)
    (hx : Truncated d n V x { m with env := e, depth := k })
    (hy : ∀ o, y { m with output := o } = (x { m with env := e, depth := k, output := o }).onMachine
      fun m' => { m' with env := place m'.env, depth := back m'.depth }) : Truncated d n V y m := by
  have hopen : y m = _ := hy m.output
  have hlimited : y (m.limited n) = _ := hy ⟨m.output.written, some n⟩
  have hends : ∀ m', (y m).machine? = some m' →
      ∃ m₁, (x { m with env := e, depth := k }).machine? = some m₁ ∧ m'.output = m₁.output := by
    intro m' h
    rw [hopen] at h
    cases hr : x { m with env := e, depth := k } <;> rw [hr] at h <;> cases h <;> exact ⟨_, rfl, rfl⟩
  constructor
  · intro m' h
    obtain ⟨m₁, h₁, ho⟩ := hends m' h
    rw [ho]
    exact hx.extended m₁ h₁
  · intro hnone hsize
    cases hx.agrees hnone hsize with
    | fits hsame hfits =>
      refine .fits ?_ fun m' h => ?_
      · rw [hlimited, hopen]
        refine (congrArg _ hsame).trans ?_
        cases x { m with env := e, depth := k } <;> rfl
      · obtain ⟨m₁, h₁, ho⟩ := hends m' h
        rw [ho]
        exact hfits m₁ h₁
    | cut hstop hv hcross hat hrest =>
      refine .cut (hlimited.trans (congrArg _ hstop)) hv hcross
        ⟨hat.store, hat.clock, hat.output⟩ fun m' h => ?_
      obtain ⟨m₁, h₁, ho⟩ := hends m' h
      rw [ho]
      exact hrest m₁ h₁

theorem inFrame {frame : FrameId} (hx : Truncated d n V x { m with env := frame }) :
    Truncated d n V (Exec.inFrame frame x) m := by
  refine hx.within (fun _ => m.env) id fun o => ?_
  simp only [Exec.inFrame]
  cases x { m with env := frame, output := o } <;> rfl

theorem deeper (hx : Truncated d n V x { m with depth := m.depth + 1 }) :
    Truncated d n V (Exec.deeper x) m := by
  refine hx.within id (· - 1) fun o => ?_
  simp only [Exec.deeper]
  cases x { m with depth := m.depth + 1, output := o } <;> rfl

/-- A line that does not fit stops the run at its moment. -/
theorem printLine {e : Expr ν} {m₁ : Machine ν} {v : Value} {kw : Token}
    (hy : Yields (eval d · e) m v m₁) :
    Truncated d n (Visits d (.exec (.print kw e), m)) (Exec.printLine kw (m₁.store.text v)) m₁ where
  extended m' h := by
    have houtput : m'.output = (m₁.output.write (m₁.store.text v ++ "\n").toUTF8).2 := by
      simp only [Exec.printLine] at h
      split at h <;> cases h <;> rfl
    rw [houtput]
    exact .write _ _
  agrees hopen hsize := by
    generalize hline : (m₁.store.text v ++ "\n").toUTF8 = line
    simp only [Exec.printLine, hline, Output.write_of_limit_none _ line hopen, if_true]
    by_cases hfit : (m₁.output.written ++ line).size ≤ n
    · rw [Machine.write_limited_of_le hfit]
      exact .fits rfl fun m' h => by
        cases h
        exact hfit
    · rw [Machine.write_limited_of_lt hsize (Nat.lt_of_not_le hfit)]
      refine .cut rfl .refl (.print hy hline.symm hsize (Nat.lt_of_not_le hfit)) ⟨rfl, rfl, rfl⟩ fun m' h => ?_
      cases h
      exact ⟨.empty, ByteArray.append_empty.symm⟩

end Truncated

theorem truncated_law (d : Distances ν) (n : Nat) : Law d fun M _ x m => Truncated d n (Visits d M) x m where
  outOfFuel := .outOfFuel
  plain hx _ := .of_silent hx.silent
  printLine := .printLine
  bind := .bind
  inFrame := .inFrame
  deeper := .deeper
  calls := .of_calls

/-- What the evaluator does with some fuel is truncated, whatever it is asked to do. -/
theorem truncatedRuns (d : Distances ν) (k n : Nat) : Runs d (fun M _ x m => Truncated d k (Visits d M) x m) n :=
  (truncated_law d k).runs n

/-- A program goes through the moments of its statements. -/
theorem truncated_interpret (d : Distances ν) (k n : Nat) (tree : List (Stmt ν)) (m : Machine ν) :
    Truncated d k (fun M => ∃ S, Starts d tree m S ∧ Visits d S M) (interpret d n tree) m := by
  induction tree generalizing m with
  | nil => exact .of_silent (.pure ())
  | cons t ts ih =>
    rw [interpret]
    have hfirst := (truncatedRuns d k n).exec t m
    refine .bind (hfirst.mono fun M hv => ⟨_, .first, hv⟩) fun flow m₁ h => (ih m₁).mono ?_
    rintro M ⟨S, hS, hv⟩
    exact ⟨S, .next ⟨n, h⟩ hS, hv⟩

end Exec

end Lox
