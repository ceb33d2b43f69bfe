import Lox.Proofs.Execution.Renaming
import Lox.Proofs.Execution.Truncation
import Lox.Proofs.Scoping.Violations
import Lox.Proofs.Session.Loopless
import Lox.Proofs.Tree.Receivers

/-!
# Evaluating and printing

An expression can be evaluated on its own, or printed by a program that consists of a single `print`. The
program is parsed by other functions and resolved, but at the top level nothing is local, so no distance
is recorded, and a receiver is the only thing to complain of.
-/

namespace Lox

/-- The program that prints the value of an expression. -/
def printing (source : String) : String := "print " ++ source ++ "\n" ++ ";"

def Token.printAt (line : Nat) : Token := .ofSymbol .printKw "print" line

def Token.semicolonAt (line : Nat) : Token := .ofSymbol .semicolon ";" line

namespace Scan

variable {source : String}

theorem items_print (source : String) :
    items ("print " ++ source) = .token (.printAt 1) :: items source := by
  have hchars : ("print " ++ source).toList = 'p' :: 'r' :: 'i' :: 'n' :: 't' :: ' ' :: source.toList := by simp
  have hword : Lexeme.of 'p' ('r' :: 'i' :: 'n' :: 't' :: ' ' :: source.toList) =
      ⟨['p', 'r', 'i', 'n', 't'], .ok (.symbol .printKw), ' ' :: source.toList⟩ := rfl
  rw [items, hchars, itemsFrom_of_cons rfl, hword]
  exact congrArg _ (itemsFrom_congr rfl)

/-- The tokens of the printing program are those of the expression, in between its own. -/
theorem tokens_printing (h : reports source = []) :
    ∃ body last, tokens source = body ++ [.endAt last] ∧ (∀ t ∈ body, t.is .eof = false) ∧
      tokens (printing source) = .printAt 1 :: body ++ [.semicolonAt (last + 1), .endAt (last + 1)] ∧
      reports (printing source) = [] := by
  have hsemicolon : tokens ";" = [.semicolonAt 1, .endAt 1] ∧ reports ";" = [] := by decide +kernel
  have htokens : tokens ("print " ++ source) = .printAt 1 :: tokens source := by
    simp [tokens, items_print, Item.token?]
  have hreports : reports ("print " ++ source) = [] := by
    simpa [reports, items_print, Item.report?] using h
  obtain ⟨body, last, hbody, heof, _⟩ := tokens_pieces h
  obtain ⟨body', last', hbody', _, hmore⟩ := tokens_pieces hreports
  rw [htokens, hbody, ← List.cons_append] at hbody'
  obtain ⟨rfl, hlast⟩ := List.append_inj' hbody' rfl
  obtain ⟨ht, hr⟩ := hmore ";"
  refine ⟨body, last, hbody, heof, ?_, ?_⟩
  · have hline : last' = last := by simpa [Token.endAt, Token.ofSymbol] using hlast.symm
    rw [printing, ht, hsemicolon.1, hline, Nat.add_comm last 1]
    rfl
  · rw [printing, hr, hsemicolon.2]
    rfl

end Scan

namespace Parser

variable {source : String} {e : Expr NodeId}

/-- A program of the shape of one `print` is one `print`. -/
theorem eq_print_of_unmarkedAll {tree : List (Stmt ν)} {kw : Token} {u : Expr Unit}
    (h : Stmt.unmarkedAll tree = [.print kw u]) : ∃ e', tree = [.print kw e'] ∧ e'.unmarked = u := by
  cases tree with
  | nil => cases h
  | cons t rest =>
    obtain ⟨ht, hrest⟩ := List.cons.inj h
    cases rest with
    | nil =>
      cases t with
      | print kw' e' =>
        cases ht
        exact ⟨e', rfl, rfl⟩
      | _ => cases ht
    | cons => cases hrest

/-- The printing program is parsed to a single `print` of the same expression, up to its marks. -/
theorem program_printing (nextId : NodeId) (hscan : Scan.reports source = [])
    (he : (single 0 (Scan.tokens source)).tree = some e)
    (hparse : (single 0 (Scan.tokens source)).reports = []) :
    (program nextId (Scan.tokens (printing source))).reports = [] ∧
      ∃ e', (program nextId (Scan.tokens (printing source))).tree = [.print (.printAt 1) e'] ∧
        e'.unmarked = e.unmarked := by
  obtain ⟨body, last, htokens, heof, hprinting, _⟩ := Scan.tokens_printing hscan
  have hd := single_sound he hparse
  rw [htokens, upToEnd_closed heof] at hd
  have hwords : ∀ t ∈ .printAt 1 :: body ++ [.semicolonAt (last + 1)], t.is .eof = false := by
    simp only [List.cons_append, List.mem_cons, List.mem_append, List.not_mem_nil, or_false]
    rintro t (rfl | ht | rfl)
    · rfl
    · exact heof t ht
    · rfl
  have hup : upToEnd (Scan.tokens (printing source)) = .printAt 1 :: body ++ [.semicolonAt (last + 1)] := by
    rw [hprinting, ← upToEnd_closed hwords (last + 1), List.append_assoc]
    rfl
  have hforms : Grammar.Forms .declaration (.printAt 1 :: body ++ [.semicolonAt (last + 1)])
      (.print (.printAt 1) e) := .statement (.print rfl hd rfl)
  have hprogram : Grammar.Program (upToEnd (Scan.tokens (printing source))) [.print (.printAt 1) e] := by
    rw [hup, ← List.append_nil (_ ++ _)]
    exact .mk [(_, _)] (by simpa using hforms)
  exact ⟨(program_complete hprogram).1, eq_print_of_unmarkedAll (program_complete hprogram).2⟩

end Parser

/-! ## Expressions at the top level -/

theorem bindName_of_scopes_nil {w : Walk} (h : w.scopes = []) (k : NodeId) (x : String) :
    w.bindName k x = w := by
  simp [Walk.bindName, distanceOf?, h]

theorem noteIf_bindings (w : Walk) (b : Bool) (fault : ScopeFault) (t : Token) :
    (w.noteIf b fault t).bindings = w.bindings := by
  unfold Walk.noteIf
  split <;> rfl

mutual

/-- With no scope around it, no distance is recorded. -/
theorem expr_bindings (c : Context) : ∀ (e : Expr NodeId) {w : Walk}, w.scopes = [] →
    (Resolve.expr c e w).bindings = w.bindings
  | .assign k x e, w, h => by
    rw [Resolve.expr, bindName_of_scopes_nil ((expr_scopes c e w).trans h), expr_bindings c e h]
  | .binary l _ r, w, h => by
    rw [Resolve.expr, expr_bindings c r ((expr_scopes c l w).trans h), expr_bindings c l h]
  | .call f _ args, w, h => by
    rw [Resolve.expr, exprs_bindings c args ((expr_scopes c f w).trans h), expr_bindings c f h]
  | .get o _, _, h => expr_bindings c o h
  | .grouping e, _, h => expr_bindings c e h
  | .literal _, _, _ => rfl
  | .logical l _ r, w, h => by
    rw [Resolve.expr, expr_bindings c r ((expr_scopes c l w).trans h), expr_bindings c l h]
  | .set o _ e, w, h => by
    rw [Resolve.expr, expr_bindings c o ((expr_scopes c e w).trans h), expr_bindings c e h]
  | .superRef k kw _, w, h => by
    rw [Resolve.expr]
    cases Resolve.superFault? c.inClass with
    | none => exact congrArg Walk.bindings (bindName_of_scopes_nil h k kw.lexeme)
    | some fault =>
      have hname := bindName_of_scopes_nil (w := w.note fault kw) h k kw.lexeme
      exact (congrArg Walk.bindings hname).trans rfl
  | .thisRef _ _, w, h => by
    rw [Resolve.expr]
    split
    · rfl
    · rw [bindName_of_scopes_nil h]
  | .unary _ e, _, h => expr_bindings c e h
  | .variable _ x, w, h => by
    rw [Resolve.expr, bindName_of_scopes_nil ((noteIf_scopes _ _ _ _).trans h), noteIf_bindings]

theorem exprs_bindings (c : Context) : ∀ (es : List (Expr NodeId)) {w : Walk}, w.scopes = [] →
    (Resolve.exprs c es w).bindings = w.bindings
  | [], _, _ => rfl
  | e :: es, w, h => by
    rw [Resolve.exprs, exprs_bindings c es ((expr_scopes c e w).trans h), expr_bindings c e h]

end

theorem reports_super (kw : Token) :
    Occurrence.reports ⟨.super, kw, []⟩ = [ScopeFault.superOutsideClass.report kw] := rfl

theorem reports_this (kw : Token) :
    Occurrence.reports ⟨.this, kw, []⟩ = [ScopeFault.thisOutsideClass.report kw] := rfl

theorem reports_read (x : Token) : Occurrence.reports ⟨.read, x, []⟩ = [] := rfl

mutual

/-- Only a receiver is forbidden at the top level. -/
theorem Expr.reports_eq_nil_iff : ∀ e : Expr ν,
    (e.uses []).flatMap Occurrence.reports = [] ↔ e.usesReceiver = false
  | .assign _ _ e => e.reports_eq_nil_iff
  | .binary l _ r => by
    simp only [uses, usesReceiver, List.flatMap_append, List.append_eq_nil_iff, Bool.or_eq_false_iff,
      l.reports_eq_nil_iff, r.reports_eq_nil_iff]
  | .call f _ args => by
    simp only [uses, usesReceiver, List.flatMap_append, List.append_eq_nil_iff, Bool.or_eq_false_iff,
      f.reports_eq_nil_iff, Expr.reportsAll_eq_nil_iff args]
  | .get o _ => o.reports_eq_nil_iff
  | .grouping e => e.reports_eq_nil_iff
  | .literal _ => by simp [uses, usesReceiver]
  | .logical l _ r => by
    simp only [uses, usesReceiver, List.flatMap_append, List.append_eq_nil_iff, Bool.or_eq_false_iff,
      l.reports_eq_nil_iff, r.reports_eq_nil_iff]
  | .set o _ e => by
    simp only [uses, usesReceiver, List.flatMap_append, List.append_eq_nil_iff, Bool.or_eq_false_iff,
      e.reports_eq_nil_iff, o.reports_eq_nil_iff, and_comm]
  | .superRef _ _ _ => by simp [uses, usesReceiver, reports_super]
  | .thisRef _ _ => by simp [uses, usesReceiver, reports_this]
  | .unary _ e => e.reports_eq_nil_iff
  | .variable _ _ => by simp [uses, usesReceiver, reports_read]

theorem Expr.reportsAll_eq_nil_iff : ∀ es : List (Expr ν),
    (Expr.usesAll [] es).flatMap Occurrence.reports = [] ↔ Expr.usesReceiverAll es = false
  | [] => by simp [usesAll, usesReceiverAll]
  | e :: es => by
    simp only [usesAll, usesReceiverAll, List.flatMap_append, List.append_eq_nil_iff, Bool.or_eq_false_iff,
      e.reports_eq_nil_iff, Expr.reportsAll_eq_nil_iff es]

end

theorem resolve_print (bindings : Bindings) (kw : Token) (e : Expr NodeId) :
    (Resolve.program bindings [.print kw e]).1 = bindings ∧
      ((Resolve.program bindings [.print kw e]).2 = [] ↔ e.usesReceiver = false) := by
  refine ⟨expr_bindings {} e rfl, ?_⟩
  rw [← e.reports_eq_nil_iff]
  have hreports := (moves_expr e (stands_program bindings)).reports
  exact iff_of_eq (congrArg (· = []) hreports)

/-! ## What an expression does -/

/-- Code in which no statement stands: on a fresh machine, that of an expression. -/
def Code.statementless (ν : Type) : Code ν :=
  { all ν with
    stmt := fun _ => False
    block := fun h => h.elim
    classDecl := fun h => h.elim
    expression := fun h => h.elim
    function := fun h => h.elim
    conditional := fun h => h.elim
    print := fun h => h.elim
    returning := fun h => h.elim
    varDecl := fun h => h.elim
    loop := fun h => h.elim }

namespace Exec

section
variable {d : Distances ν} {n : Nat} {e : Expr ν} {m m' : Machine ν}

/-- Where no function can be called, evaluating an expression prints nothing: not even the first byte
would be let through otherwise. -/
theorem output_of_eval (hs : m.store.Holds (Code.statementless ν)) (hopen : m.output = {})
    (h : (eval d n e m).machine? = some m') : m'.output = {} := by
  have htruncated := (truncatedRuns d 0 n).eval e m
  have hlimit : m'.output.limit = none := by
    rw [(htruncated.extended m' h).limit, hopen]
  have hempty : m'.output.written = .empty := by
    cases htruncated.agrees (by rw [hopen]) (by rw [hopen]; exact Nat.le_refl 0) with
    | fits _ hsize => exact ByteArray.size_eq_zero_iff.1 (Nat.le_zero.1 (hsize m' h))
    | cut _ hv hcross =>
      cases hcross with
      | print => exact (hv.runsCode (C := .statementless ν) trivial hs).1.elim
  generalize m'.output = o at hlimit hempty
  cases o
  simp_all

/-- Without distances, two expressions that differ in their marks only have the same value. -/
theorem eval_of_unmarked {e' : Expr ν} (h : e'.unmarked = e.unmarked) (n : Nat) (m : Machine ν) :
    (eval (fun _ => none) n e' m).rename (.shape id) id = (eval (fun _ => none) n e m).rename (.shape id) id := by
  have hruns : RenamedRuns (.shape id) (fun _ : ν => none) (fun _ => none) n :=
    @renamedRuns _ _ _ (fun _ => none) (fun _ => none) (fun _ => rfl) n
  have hshape := fun e : Expr ν => hruns.eval e m
  rw [← hshape e', ← hshape e, ← e'.unmarked_eq, ← e.unmarked_eq, h]

end

end Exec

namespace Exec

/-- A program that is one `print` ends as its expression does, and prints the text of its value. -/
theorem interpret_print (d : Distances ν) (n : Nat) (kw : Token) (e : Expr ν) {m : Machine ν}
    (hs : m.store.Holds (Code.statementless ν)) (hopen : m.output = {}) :
    interpret d (n + 1) [.print kw e] m = match eval d n e m with
      | .done v m' => .done () { m' with output := ⟨(m'.store.text v ++ "\n").toUTF8, none⟩ }
      | .failed err m' => .failed err m'
      | .outOfFuel => .outOfFuel := by
  simp only [interpret, exec, bind_apply, read]
  cases hr : eval d n e m with
  | done v m' =>
    have houtput := output_of_eval hs hopen (congrArg Result.machine? hr)
    simp [printLine, houtput, Output.write_of_limit_none]
  | failed err m' => rfl
  | outOfFuel => rfl

end Exec

/-! ## Evaluating and running -/

/-- A source that is one expression, scanned and parsed without a report. -/
structure IsExpression (source : String) (e : Expr NodeId) : Prop where
  scanned : Scan.reports source = []
  tree : (Parser.single 0 (Scan.tokens source)).tree = some e
  parsed : (Parser.single 0 (Scan.tokens source)).reports = []

namespace IsExpression

variable {source : String} {e : Expr NodeId}

theorem usesReceiver_iff (h : IsExpression source e) :
    e.usesReceiver = true ↔ ∃ t ∈ Scan.tokens source, t.is .thisKw = true ∨ t.is .superKw = true := by
  obtain ⟨body, last, htokens, heof, _⟩ := Scan.tokens_pieces h.scanned
  have hd := Parser.single_sound h.tree h.parsed
  rw [htokens, Parser.upToEnd_closed heof] at hd
  have hend : (Token.endAt last).is .thisKw = false ∧ (Token.endAt last).is .superKw = false := ⟨rfl, rfl⟩
  simp [← hd.usesReceiver, htokens, Token.namesReceiver, hend, or_and_right, exists_or]

variable (clock : Clock)

/-- The printing program is one `print` of the same expression, and nothing is recorded for it. -/
theorem attempt (h : IsExpression source e) : ∃ e', e'.unmarked = e.unmarked ∧
    (Attempt.mk (.fresh clock) (printing source)).tree = [.print (.printAt 1) e'] ∧
    (Attempt.mk (.fresh clock) (printing source)).distances = (fun _ => none) ∧
    ((Attempt.mk (.fresh clock) (printing source)).Accepted ↔ e.usesReceiver = false) := by
  obtain ⟨_, _, _, _, _, hscanned⟩ := Scan.tokens_printing h.scanned
  obtain ⟨hparsed, e', htree, hu⟩ := Parser.program_printing 0 h.scanned h.tree h.parsed
  have htree' : (Attempt.mk (.fresh clock) (printing source)).tree = [.print (.printAt 1) e'] := htree
  obtain ⟨hbindings, hreports⟩ := resolve_print {} (.printAt 1) e'
  have hresolved : (Attempt.mk (.fresh clock) (printing source)).resolved =
      Resolve.program {} [.print (.printAt 1) e'] := by
    rw [Attempt.resolved, htree']
    rfl
  have hreceiver : e'.usesReceiver = e.usesReceiver := by
    rw [← e'.usesReceiver_unmarked, hu, e.usesReceiver_unmarked]
  refine ⟨e', hu, htree', ?_, ?_⟩
  · funext k
    rw [Attempt.distances, hresolved, hbindings]
    exact Bindings.find?_empty k
  · rw [← hreceiver, ← hreports, ← hresolved]
    exact ⟨fun ha => ha.resolved, fun hr => ⟨hscanned, hparsed, hr⟩⟩

theorem evaluate_eq (h : IsExpression source e) (fuel : Nat) :
    evaluate clock fuel source = match Exec.eval (fun _ => none) fuel e (.initial clock) with
      | .done value machine => some (.ok (value, machine))
      | .failed err _ => some (.error (Reports.empty.addRuntimeError err.blamed err.cause.message))
      | .outOfFuel => none := by
  unfold evaluate
  simp only [h.tree, h.scanned, h.parsed]
  rfl

/-- Both ways end alike. -/
inductive EndAlike : Option (Except Reports (Value × Machine NodeId)) → Option (Outcome × Session) → Prop
  | unfinished : EndAlike none none
  | value : s.machine.output.written = (m.store.text v ++ "\n").toUTF8 →
      EndAlike (some (.ok (v, m))) (some (.ok, s))
  | error : s.reports = Reports.empty.addRuntimeError t message →
      EndAlike (some (.error (Reports.empty.addRuntimeError t message))) (some (.runtimeError, s))

namespace EndAlike

variable {a : Option (Except Reports (Value × Machine NodeId))} {b : Option (Outcome × Session)}

theorem unfinished_iff (h : EndAlike a b) : a = none ↔ b = none := by
  cases h <;> simp

theorem value_iff (h : EndAlike a b) (text : String) :
    (∃ v m, a = some (.ok (v, m)) ∧ m.store.text v = text) ↔
      ∃ s, b = some (.ok, s) ∧ s.machine.output.written = (text ++ "\n").toUTF8 := by
  cases h with
  | value hw => simp [hw, and_assoc, String.toByteArray_inj]
  | _ => simp

theorem error_iff (h : EndAlike a b) (reports : Reports) :
    a = some (.error reports) ↔ ∃ s, b = some (.runtimeError, s) ∧ s.reports = reports := by
  cases h with
  | error hr => simp [hr]
  | _ => simp

end EndAlike

/-- The marks of the two trees differ, so the machines do; what is seen of them does not. -/
theorem text_eq_of_rename {ρ : Renaming ν ν'} {m m' : Machine ν} (h : m'.rename ρ = m.rename ρ) (v : Value) :
    m'.store.text v = m.store.text v := by
  rw [← m'.store.text_rename ρ, ← m.store.text_rename ρ]
  exact congrArg (fun m => m.store.text v) h

theorem endAlike (h : IsExpression source e) (hr : e.usesReceiver = false) (fuel : Nat) :
    EndAlike (evaluate clock fuel source) ((Session.fresh clock).run (fuel + 1) (printing source)) := by
  obtain ⟨e', hu, htree, hd, ha⟩ := h.attempt clock
  have hprint : Exec.interpret (fun _ => none) (fuel + 1) [.print (.printAt 1) e'] (Session.fresh clock).machine
      = _ := Exec.interpret_print _ fuel _ e' (Machine.initial_holds _ clock none) rfl
  rw [h.evaluate_eq, Session.run_of_accepted (ha.2 hr), htree, hd, hprint]
  have hsame : Result.rename _ id (Exec.eval _ fuel e' (Session.fresh clock).machine) = _ :=
    Exec.eval_of_unmarked hu fuel (.initial clock)
  generalize Exec.eval _ fuel e' (Session.fresh clock).machine = r' at hsame ⊢
  generalize Exec.eval _ fuel e _ = r at hsame ⊢
  cases r with
  | done v m =>
    cases r' with
    | done v' m' =>
      obtain ⟨hv, hm⟩ := Result.done.inj hsame
      obtain rfl : v' = v := hv
      exact .value (by rw [text_eq_of_rename hm])
    | _ => cases hsame
  | failed err m =>
    cases r' with
    | failed err' m' =>
      obtain ⟨herr, _⟩ := Result.failed.inj hsame
      obtain rfl : err' = err := herr
      exact .error rfl
    | _ => cases hsame
  | outOfFuel =>
    cases r' with
    | outOfFuel => exact .unfinished
    | _ => cases hsame

end IsExpression

section
variable {p q : Nat → Prop}

theorem forall_iff_of_succ (h₀ : q 0) (h : ∀ n, p n ↔ q (n + 1)) : (∀ n, p n) ↔ ∀ n, q n := by
  rw [← Nat.and_forall_add_one (p := q), and_iff_right h₀]
  exact forall_congr' h

theorem exists_iff_of_succ (h₀ : ¬ q 0) (h : ∀ n, p n ↔ q (n + 1)) : (∃ n, p n) ↔ ∃ n, q n := by
  rw [← Nat.or_exists_add_one (p := q), or_iff_right h₀]
  exact exists_congr h

end

/-- Evaluating an expression in a fresh interpreter, without resolving it, and running the program that
prints it in a fresh session agree, if no receiver stands in it: neither finishes; or there is a value, and
what is printed is its text and a newline; or both fail, and report the same error about the same token.
If a receiver stands in it, the run ends in a static error. -/
theorem evaluation_agrees_with_printing (clock : Clock) {source : String} {e : Expr NodeId}
    (h : IsExpression source e) :
    ((∀ t ∈ Scan.tokens source, t.is .thisKw = false ∧ t.is .superKw = false) →
      ((∀ fuel, evaluate clock fuel source = none) ↔
        ∀ fuel, (Session.fresh clock).run fuel (printing source) = none) ∧
      (∀ text, (∃ fuel v m, evaluate clock fuel source = some (.ok (v, m)) ∧ m.store.text v = text) ↔
        ∃ fuel s, (Session.fresh clock).run fuel (printing source) = some (.ok, s) ∧
          s.machine.output.written = (text ++ "\n").toUTF8) ∧
      ∀ reports, (∃ fuel, evaluate clock fuel source = some (.error reports)) ↔
        ∃ fuel s, (Session.fresh clock).run fuel (printing source) = some (.runtimeError, s) ∧
          s.reports = reports) ∧
    ((∃ t ∈ Scan.tokens source, t.is .thisKw = true ∨ t.is .superKw = true) →
      ∀ fuel, ∃ s, (Session.fresh clock).run fuel (printing source) = some (.staticError, s)) := by
  obtain ⟨e', _, htree, _, ha⟩ := h.attempt clock
  refine ⟨fun hwords => ?_, fun hwords fuel => ?_⟩
  · have hr : e.usesReceiver = false := by
      rw [← Bool.not_eq_true, h.usesReceiver_iff]
      rintro ⟨t, ht, hthis | hsuper⟩
      · simp [hwords t ht] at hthis
      · simp [hwords t ht] at hsuper
    have hzero : (Session.fresh clock).run 0 (printing source) = none := by
      rw [Session.run_of_accepted (ha.2 hr), htree]
      rfl
    have halike := h.endAlike clock hr
    refine ⟨?_, fun text => ?_, fun reports => ?_⟩
    · exact forall_iff_of_succ hzero fun fuel => (halike fuel).unfinished_iff
    · exact exists_iff_of_succ (by simp [hzero]) fun fuel => (halike fuel).value_iff text
    · exact exists_iff_of_succ (by simp [hzero]) fun fuel => (halike fuel).error_iff reports
  · have hr := h.usesReceiver_iff.2 hwords
    exact ⟨_, Session.run_of_refused (fun hacc => by simp [ha.1 hacc] at hr) fuel⟩

/-- An expression that ends in a comment. -/
def joined : String := "(nil or \"a\") + \"b\" // joined"

theorem joined_is_printed :
    (∃ e, IsExpression joined e) ∧
      (∀ t ∈ Scan.tokens joined, t.is .thisKw = false ∧ t.is .superKw = false) ∧
      (∃ fuel v m, evaluate ⟨fun _ => 0, 0⟩ fuel joined = some (.ok (v, m)) ∧ m.store.text v = "ab") ∧
      ∃ fuel s, (Session.fresh ⟨fun _ => 0, 0⟩).run fuel (printing joined) = some (.ok, s) ∧
        s.machine.output.written = ("ab" ++ "\n").toUTF8 := by
  obtain ⟨e, he⟩ : ∃ e, (Parser.single 0 (Scan.tokens joined)).tree = some e :=
    Option.isSome_iff_exists.1 (by decide +kernel)
  have h : IsExpression joined e := ⟨by decide +kernel, he, by decide +kernel⟩
  have hwords : ∀ t ∈ Scan.tokens joined, t.is .thisKw = false ∧ t.is .superKw = false := by
    decide +kernel
  have htext : ((evaluate ⟨fun _ => 0, 0⟩ 5 joined).bind Except.toOption).map
      (fun r => r.2.store.text r.1) = some "ab" := by
    decide +kernel
  have hvalue : ∃ fuel v m, evaluate ⟨fun _ => 0, 0⟩ fuel joined = some (.ok (v, m)) ∧
      m.store.text v = "ab" := by
    obtain ⟨⟨v, m⟩, hvalue, hab⟩ := Option.map_eq_some_iff.1 htext
    obtain ⟨r, hr, hok⟩ := Option.bind_eq_some_iff.1 hvalue
    cases r with
    | error reports => cases hok
    | ok r =>
      cases hok
      exact ⟨5, v, m, hr, hab⟩
  have hagrees := ((evaluation_agrees_with_printing ⟨fun _ => 0, 0⟩ h).1 hwords).2.1 "ab"
  exact ⟨⟨e, h⟩, hwords, hvalue, hagrees.1 hvalue⟩

end Lox
