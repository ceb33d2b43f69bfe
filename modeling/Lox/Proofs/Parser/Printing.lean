import Lox.Proofs.Parser.Exact
import Lox.Proofs.Scoping.Formed
import Lox.Proofs.Token.Rescanning
import Lox.Proofs.Tree.Printable

/-!
# The text of what was parsed

Two parsed expressions with the same text are the same but for their marks and lines, unless they hold strings
or infinite numbers: their tokens are spelled as their kinds say and stand where the grammar has them, so the
expressions are printable.
-/

namespace Lox

/-! ## What a tree holds -/

/-- The expressions that stand directly in an expression. -/
def Expr.parts : Expr ν → List (Expr ν)
  | .assign _ _ e | .get e _ | .grouping e | .unary _ e => [e]
  | .binary l _ r | .logical l _ r | .set l _ r => [l, r]
  | .call f _ args => f :: args
  | .literal _ | .superRef _ _ _ | .thisRef _ _ | .variable _ _ => []

mutual

/-- The literals in an expression, in order. -/
def Expr.literals : Expr ν → List Literal
  | .assign _ _ e | .get e _ | .grouping e | .unary _ e => e.literals
  | .binary l _ r | .logical l _ r | .set l _ r => l.literals ++ r.literals
  | .call f _ args => f.literals ++ Expr.literalsAll args
  | .literal v => [v]
  | .superRef _ _ _ | .thisRef _ _ | .variable _ _ => []

def Expr.literalsAll : List (Expr ν) → List Literal
  | [] => []
  | e :: es => e.literals ++ Expr.literalsAll es

end

/-- Neither a string nor an infinite number. -/
def Literal.isLegible : Literal → Bool
  | .number x => !x.isInf
  | .string _ => false
  | .bool _ | .nil => true

/-- Neither a string nor an infinite number is in the expression. -/
def Expr.Legible (e : Expr ν) : Prop := ∀ v ∈ e.literals, v.isLegible = true

theorem Expr.subset_literalsAll {es : List (Expr ν)} {p : Expr ν} (hp : p ∈ es) :
    p.literals ⊆ Expr.literalsAll es := by
  induction es with
  | nil => cases hp
  | cons e es ih =>
    rcases List.mem_cons.1 hp with rfl | hp
    · exact List.subset_append_left _ _
    · exact List.subset_append_of_subset_right _ (ih hp)

theorem Expr.Legible.part {e p : Expr ν} (h : e.Legible) (hp : p ∈ e.parts) : p.Legible := by
  have hsub : p.literals ⊆ e.literals := by
    cases e with
    | assign | get | grouping | unary =>
      obtain rfl := List.mem_singleton.1 hp
      exact List.Subset.refl _
    | binary l _ r | logical l _ r | set l _ r =>
      simp only [parts, List.mem_cons, List.not_mem_nil, or_false] at hp
      rcases hp with rfl | rfl
      · exact List.subset_append_left _ _
      · exact List.subset_append_right _ _
    | call f _ args =>
      rcases List.mem_cons.1 hp with rfl | hp
      · exact List.subset_append_left _ _
      · exact List.subset_append_of_subset_right _ (subset_literalsAll hp)
    | _ => cases hp
  exact fun v hv => h v (hsub hv)

/-- The expressions that stand directly in a statement. -/
def Stmt.expressions : Stmt ν → List (Expr ν)
  | .block _ | .function _ => []
  | .classDecl _ parent _ => parent.toList
  | .expression e | .print _ e => [e]
  | .returning _ e | .varDecl _ e => e.toList
  | .conditional c _ _ | .loop c _ => [c]

/-- The statements that stand directly in a statement. -/
def Stmt.parts : Stmt ν → List (Stmt ν)
  | .block body => body
  | .classDecl _ _ methods => methods.flatMap FunDecl.body
  | .function decl => decl.body
  | .conditional _ s t => s :: t.toList
  | .loop _ s => [s]
  | .expression _ | .print _ _ | .returning _ _ | .varDecl _ _ => []

/-- An expression is in the statement that it stands in, and in what that statement is in. -/
inductive Stmt.Holds : Stmt ν → Expr ν → Prop
  | here {s : Stmt ν} {e : Expr ν} : e ∈ s.expressions → Stmt.Holds s e
  | part {s t : Stmt ν} {e : Expr ν} : t ∈ s.parts → Stmt.Holds t e → Stmt.Holds s e

theorem Stmt.holds_iff {s : Stmt ν} {e : Expr ν} : s.Holds e ↔ e ∈ s.expressions ∨ ∃ t ∈ s.parts, t.Holds e := by
  constructor
  · rintro (he | ⟨ht, he⟩)
    · exact .inl he
    · exact .inr ⟨_, ht, he⟩
  · rintro (he | ⟨t, ht, he⟩)
    · exact .here he
    · exact .part ht he

/-- A statement with no statements in it holds the expressions that stand in it. -/
theorem Stmt.mem_of_holds {s : Stmt ν} {e : Expr ν} (h : s.Holds e) (hs : s.parts = []) : e ∈ s.expressions := by
  rcases holds_iff.1 h with he | ⟨t, ht, _⟩
  · exact he
  · rw [hs] at ht
    cases ht

/-- A `for` loop holds what its clauses and its body hold, and `true` where it has no condition. -/
theorem Stmt.of_holds_forLoop {i : Option (Stmt ν)} {c u : Option (Expr ν)} {s : Stmt ν} {e : Expr ν}
    (h : (Stmt.forLoop i c u s).Holds e) :
    (∃ t, i = some t ∧ t.Holds e) ∨ e = c.getD (.literal (.bool true)) ∨ u = some e ∨ s.Holds e := by
  have hbody : ∀ {c : Expr ν} {b : Stmt ν}, (Stmt.loop c b).Holds e → e = c ∨ b.Holds e := by
    intro c b h
    rcases holds_iff.1 h with he | ⟨t, ht, hte⟩
    · exact .inl (List.mem_singleton.1 he)
    · rw [List.mem_singleton.1 ht] at hte
      exact .inr hte
  have hblock : ∀ {a b : Stmt ν}, (Stmt.block [a, b]).Holds e → a.Holds e ∨ b.Holds e := by
    intro a b h
    rcases holds_iff.1 h with he | ⟨t, ht, hte⟩
    · cases he
    · simp only [parts, List.mem_cons, List.not_mem_nil, or_false] at ht
      rcases ht with rfl | rfl
      · exact .inl hte
      · exact .inr hte
  have hloop : (Stmt.forLoop none c u s).Holds e →
      e = c.getD (.literal (.bool true)) ∨ u = some e ∨ s.Holds e := by
    intro h
    refine (hbody h).imp_right fun h => ?_
    cases u with
    | none => exact .inr h
    | some u =>
      rcases hblock h with h | h
      · exact .inr h
      · rw [List.mem_singleton.1 (mem_of_holds h rfl)]
        exact .inl rfl
  cases i with
  | none => exact .inr (hloop h)
  | some t => exact (hblock h).imp (fun h => ⟨t, rfl, h⟩) hloop

/-! ## Derived from spelled tokens -/

namespace Grammar

variable {ts : List Token} {e p : Expr ν}

/-- The expression is derived from tokens that are spelled as their kinds say. -/
def Written (e : Expr ν) : Prop := ∃ l, ∃ ts : List Token, (∀ t ∈ ts, t.Scanned) ∧ Derives l ts e

theorem Derives.written {l : Level} {us : List Token} (h : Derives l us e) (hus : us ⊆ ts)
    (hts : ∀ t ∈ ts, t.Scanned) : Written e := ⟨l, us, fun t ht => hts t (hus ht), h⟩

/-- The parts of a derived expression are derived from some of its tokens. -/
theorem written_of_part {l : Level} (h : Derives l ts e) (hts : ∀ t ∈ ts, t.Scanned) (hp : p ∈ e.parts) :
    Written p := by
  induction h with
  | tighter _ _ ih => exact ih hts hp
  | assign _ _ _ hd =>
    obtain rfl := List.mem_singleton.1 hp
    exact hd.written (by simp) hts
  | set ho _ _ _ hd =>
    simp only [Expr.parts, List.mem_cons, List.not_mem_nil, or_false] at hp
    rcases hp with rfl | rfl
    · exact ho.written (by simp) hts
    · exact hd.written (fun t ht => by simp [ht]) hts
  | logical _ ha hb | binary _ ha hb =>
    simp only [Expr.parts, List.mem_cons, List.not_mem_nil, or_false] at hp
    rcases hp with rfl | rfl
    · exact ha.written (by simp) hts
    · exact hb.written (fun t ht => by simp [ht]) hts
  | unary _ hd =>
    obtain rfl := List.mem_singleton.1 hp
    exact hd.written (by simp) hts
  | @call _ _ _ us _ args hf _ hargs _ hcommas =>
    rcases List.mem_cons.1 hp with rfl | hp
    · exact hf.written (fun t ht => by simp [ht]) hts
    · obtain ⟨arg, harg, rfl⟩ := List.mem_map.1 hp
      refine (hargs arg harg).written (fun t ht => ?_) hts
      have hus : t ∈ us := hcommas.mem (List.mem_map_of_mem harg) t ht
      simp [hus]
  | get ho =>
    obtain rfl := List.mem_singleton.1 hp
    exact ho.written (by simp) hts
  | grouping _ hd =>
    obtain rfl := List.mem_singleton.1 hp
    exact hd.written (fun t ht => by simp [ht]) hts
  | _ => cases hp

theorem written_of_optional {e : Option (Expr ν)} (h : Optional ts e) (hts : ∀ t ∈ ts, t.Scanned)
    (hp : p ∈ e.toList) : Written p := by
  cases h with
  | none => cases hp
  | some hd =>
    obtain rfl := List.mem_singleton.1 hp
    exact hd.written (List.Subset.refl _) hts

theorem written_of_varPhrase {s : Stmt ν} (h : VarPhrase ts s) (hts : ∀ t ∈ ts, t.Scanned) (he : s.Holds e) :
    Written e := by
  cases h with
  | bare => cases Stmt.mem_of_holds he rfl
  | valued _ _ _ hd =>
    obtain rfl := List.mem_singleton.1 (Stmt.mem_of_holds he rfl)
    exact hd.written (fun t ht => by simp [ht]) hts

theorem written_of_exprPhrase {s : Stmt ν} (h : ExprPhrase ts s) (hts : ∀ t ∈ ts, t.Scanned) (he : s.Holds e) :
    Written e := by
  cases h with
  | mk hd =>
    obtain rfl := List.mem_singleton.1 (Stmt.mem_of_holds he rfl)
    exact hd.written (by simp) hts

/-- The word `true` stands for the condition that a `for` loop leaves out. -/
theorem written_true : Written (.literal (.bool true) : Expr ν) := by
  refine ⟨.primary, [⟨.symbol .trueKw, "true", 0⟩], fun t ht => ?_, .literal rfl⟩
  obtain rfl := List.mem_singleton.1 ht
  exact .keyword (by decide)

/-- What a derived statement holds is derived. -/
theorem written_of_forms {r : Rank} {s : Stmt ν} (h : Forms r ts s) (hts : ∀ t ∈ ts, t.Scanned)
    (he : s.Holds e) : Written e := by
  induction h with
  | classDecl _ _ hparent _ _ _ ih =>
    rcases Stmt.holds_iff.1 he with hhere | ⟨s, hs, hpart⟩
    · cases hparent with
      | none => cases hhere
      | some k _ hx =>
        obtain rfl := List.mem_singleton.1 hhere
        exact (Derives.variable k hx).written (by simp) hts
    · obtain ⟨decl, hdecl, hs⟩ := List.mem_flatMap.1 hs
      obtain ⟨f, hf, rfl⟩ := List.mem_map.1 hdecl
      obtain ⟨p, hp, rfl⟩ := List.mem_map.1 hs
      refine ih f hf p hp (fun t ht => hts t ?_) hpart
      have hflat := mem_flatten_phrases hf (f.mem_tokens hp ht)
      exact List.mem_append_left _ (List.mem_append_right _ (List.mem_cons_of_mem _ hflat))
  | function f _ _ ih =>
    rcases Stmt.holds_iff.1 he with hhere | ⟨s, hs, hpart⟩
    · cases hhere
    · obtain ⟨p, hp, rfl⟩ := List.mem_map.1 hs
      exact ih p hp (fun t ht => hts t (by simp [f.mem_tokens hp ht])) hpart
  | varDecl h => exact written_of_varPhrase h hts he
  | statement _ ih => exact ih hts he
  | expression h => exact written_of_exprPhrase h hts he
  | print _ hd =>
    obtain rfl := List.mem_singleton.1 (Stmt.mem_of_holds he rfl)
    exact hd.written (fun t ht => by simp [ht]) hts
  | returning _ ho =>
    exact written_of_optional ho (fun t ht => hts t (by simp [ht])) (Stmt.mem_of_holds he rfl)
  | block _ _ _ ih =>
    rcases Stmt.holds_iff.1 he with hhere | ⟨s, hs, hpart⟩
    · cases hhere
    · obtain ⟨p, hp, rfl⟩ := List.mem_map.1 hs
      refine ih p hp (fun t ht => hts t ?_) hpart
      exact List.mem_append_left _ (List.mem_cons_of_mem _ (mem_flatten_phrases hp ht))
  | loop _ _ hd _ _ ih =>
    rcases Stmt.holds_iff.1 he with hhere | ⟨s, hs, hpart⟩
    · obtain rfl := List.mem_singleton.1 hhere
      exact hd.written (fun t ht => by simp [ht]) hts
    · obtain rfl := List.mem_singleton.1 hs
      exact ih (fun t ht => hts t (by simp [ht])) hpart
  | @forLoop _ _ _ _ _ _ _ _ _ _ c _ _ _ _ _ hi hc _ hu _ _ htree ih =>
    obtain rfl := forTree_iff.1 htree
    rcases Stmt.of_holds_forLoop he with ⟨i, rfl, hfirst⟩ | rfl | rfl | hbody
    · cases hi with
      | declared h => exact written_of_varPhrase h (fun t ht => hts t (by simp [ht])) hfirst
      | evaluated h => exact written_of_exprPhrase h (fun t ht => hts t (by simp [ht])) hfirst
    · cases c with
      | none => exact written_true
      | some c => exact written_of_optional hc (fun t ht => hts t (by simp [ht])) (List.mem_singleton.2 rfl)
    · exact written_of_optional hu (fun t ht => hts t (by simp [ht])) (List.mem_singleton.2 rfl)
    · exact ih (fun t ht => hts t (by simp [ht])) hbody
  | ifThen _ _ hd _ _ ih =>
    rcases Stmt.holds_iff.1 he with hhere | ⟨s, hs, hpart⟩
    · obtain rfl := List.mem_singleton.1 hhere
      exact hd.written (fun t ht => by simp [ht]) hts
    · obtain rfl := List.mem_singleton.1 hs
      exact ih (fun t ht => hts t (by simp [ht])) hpart
  | ifElse _ _ hd _ _ _ _ ihs iht =>
    rcases Stmt.holds_iff.1 he with hhere | ⟨s, hs, hpart⟩
    · obtain rfl := List.mem_singleton.1 hhere
      exact hd.written (fun t ht => by simp [ht]) hts
    · rcases List.mem_cons.1 hs with rfl | hs
      · exact ihs (fun t ht => hts t (by simp [ht])) hpart
      · obtain rfl := List.mem_singleton.1 hs
        exact iht (fun t ht => hts t (by simp [ht])) hpart

/-! ## Printable -/

theorem printable_of_literal {t : Token} {v : Literal} (ht : t.Scanned) (hv : literal? t.kind = some v)
    (h : v.isLegible = true) : v.Printable := by
  cases v with
  | number x =>
    have hkind : t.kind = .number x := by
      revert hv
      generalize t.kind = kind
      fun_cases literal? <;> simp
    have hfinite : x.isInf = false := by simpa [Literal.isLegible] using h
    rw [Token.Scanned, hkind] at ht
    generalize t.lexeme.toList = cs at ht
    cases ht with
    | whole | fraction => exact Number.toBits_ofDecimal_lt hfinite
  | string s => cases h
  | bool b => trivial
  | nil => trivial

/-- A symbol of the grammar, spelled so. -/
theorem scans_of_mem {t : Token} {symbols more : List Symbol} (ht : t.Scanned) (h : symbols.any t.is)
    (hmore : symbols ⊆ more) : t.Scans more := by
  obtain ⟨a, ha, hkind⟩ := List.any_eq_true.1 h
  exact ⟨List.any_eq_true.2 ⟨a, hmore ha, hkind⟩, ht⟩

theorem printableAll_of_forall {es : List (Expr ν)} (h : ∀ e ∈ es, e.Printable) : Expr.PrintableAll es := by
  induction es with
  | nil => trivial
  | cons e es ih => exact ⟨h e (by simp), ih fun e' he => h e' (List.mem_cons_of_mem _ he)⟩

/-- A derived expression is printable if its literals are. -/
theorem printable_of_derives {l : Level} (h : Derives l ts e) (hts : ∀ t ∈ ts, t.Scanned) (he : e.Legible) :
    e.Printable := by
  induction h with
  | tighter _ _ ih => exact ih hts he
  | assign _ hx _ _ ih =>
    exact ⟨(hts _ (by simp)).scans hx, ih (fun t ht => hts t (by simp [ht])) (he.part (by simp [Expr.parts]))⟩
  | set _ _ hx _ _ iho ihe =>
    exact ⟨(hts _ (by simp)).scans hx, iho (fun t ht => hts t (by simp [ht])) (he.part (by simp [Expr.parts])),
      ihe (fun t ht => hts t (by simp [ht])) (he.part (by simp [Expr.parts]))⟩
  | @logical l _ _ _ _ _ hop _ _ iha ihb =>
    have hsub : l.connectives ⊆ [.orKw, .andKw] := by cases l <;> decide
    exact ⟨scans_of_mem (hts _ (by simp)) hop hsub,
      iha (fun t ht => hts t (by simp [ht])) (he.part (by simp [Expr.parts])),
      ihb (fun t ht => hts t (by simp [ht])) (he.part (by simp [Expr.parts]))⟩
  | @binary l _ _ _ _ _ hop _ _ iha ihb =>
    have hsub : l.operators ⊆ binaryOperators := by cases l <;> decide
    exact ⟨scans_of_mem (hts _ (by simp)) hop hsub,
      iha (fun t ht => hts t (by simp [ht])) (he.part (by simp [Expr.parts])),
      ihb (fun t ht => hts t (by simp [ht])) (he.part (by simp [Expr.parts]))⟩
  | unary hop _ ih =>
    exact ⟨⟨by simpa using hop, hts _ (by simp)⟩,
      ih (fun t ht => hts t (by simp [ht])) (he.part (by simp [Expr.parts]))⟩
  | @call _ _ _ us _ args _ _ _ _ hcommas hclosing ihf ihargs =>
    refine ⟨(hts _ (by simp)).scans hclosing,
      ihf (fun t ht => hts t (by simp [ht])) (he.part (by simp [Expr.parts])),
      printableAll_of_forall fun e' he' => ?_⟩
    obtain ⟨arg, harg, rfl⟩ := List.mem_map.1 he'
    refine ihargs arg harg (fun t ht => hts t ?_) (he.part (List.mem_cons_of_mem _ he'))
    have hus : t ∈ us := hcommas.mem (List.mem_map_of_mem harg) t ht
    simp [hus]
  | get _ _ hx ih =>
    exact ⟨(hts _ (by simp)).scans hx, ih (fun t ht => hts t (by simp [ht])) (he.part (by simp [Expr.parts]))⟩
  | literal hv => exact printable_of_literal (hts _ (by simp)) hv (he _ (by simp [Expr.literals]))
  | superRef _ hkw _ hx => exact ⟨(hts _ (by simp)).scans hkw, (hts _ (by simp)).scans hx⟩
  | thisRef _ hkw => exact (hts _ (by simp)).scans hkw
  | «variable» _ hx => exact (hts _ (by simp)).scans hx
  | grouping _ _ _ ih =>
    have hinner : Expr.Printable _ := ih (fun t ht => hts t (by simp [ht])) (he.part (by simp [Expr.parts]))
    exact hinner

end Grammar

/-! ## Parsed sources -/

/-- The expressions that come out of a source that is parsed without a report: the source as one expression,
what the statements of a program hold, and the parts of these. -/
inductive Parser.Produces (source : String) : Expr NodeId → Prop
  | single {i : NodeId} {e : Expr NodeId} : (Parser.single i (Scan.tokens source)).reports = [] →
      (Parser.single i (Scan.tokens source)).tree = some e → Parser.Produces source e
  | program {i : NodeId} {s : Stmt NodeId} {e : Expr NodeId} :
      (Parser.program i (Scan.tokens source)).reports = [] →
      s ∈ (Parser.program i (Scan.tokens source)).tree → s.Holds e → Parser.Produces source e
  | part {e p : Expr NodeId} : Parser.Produces source e → p ∈ e.parts → Parser.Produces source p

/-- The tokens that are parsed are spelled as their kinds say. -/
theorem Scan.scanned_of_mem {source : String} {t : Token} (ht : t ∈ Parser.upToEnd (tokens source)) :
    t.Scanned := by
  refine @spells_of_mem source t (List.mem_filter.2 ⟨(List.takeWhile_sublist _).subset ht, ?_⟩)
  exact List.mem_takeWhile_imp (p := fun t : Token => ! t.is .eof) ht

theorem Parser.Produces.written {source : String} {e : Expr NodeId} (h : Parser.Produces source e) :
    Grammar.Written e := by
  induction h with
  | single hreports htree => exact ⟨_, _, fun _ => Scan.scanned_of_mem, Parser.single_sound htree hreports⟩
  | @program i s e hreports hs he =>
    have hprogram := (Parser.program_sound hreports).1
    have hscanned : ∀ t ∈ Parser.upToEnd (Scan.tokens source), t.Scanned := fun _ => Scan.scanned_of_mem
    generalize (Parser.program i (Scan.tokens source)).tree = tree at hprogram hs
    generalize Parser.upToEnd (Scan.tokens source) = ts at hprogram hscanned
    cases hprogram with
    | mk parts hparts =>
      obtain ⟨p, hp, rfl⟩ := List.mem_map.1 hs
      exact Grammar.written_of_forms (hparts p hp)
        (fun t ht => hscanned t (Grammar.mem_flatten_phrases hp ht)) he
  | part _ hp ih =>
    obtain ⟨l, ts, hts, hd⟩ := ih
    exact Grammar.written_of_part hd hts hp

/-- Expressions of one text, from any two sources, are one expression on other lines and with other marks. -/
theorem text_unambiguous {a b : String} {e e' : Expr NodeId} (he : Parser.Produces a e) (he' : Parser.Produces b e')
    (hlegible : e.Legible) (hlegible' : e'.Legible) (h : e.text = e'.text) : e.bare = e'.bare := by
  obtain ⟨l, ts, hts, hd⟩ := he.written
  obtain ⟨l', ts', hts', hd'⟩ := he'.written
  exact Expr.bare_of_text (Grammar.printable_of_derives hd hts hlegible)
    (Grammar.printable_of_derives hd' hts' hlegible') h

/-- The tokens of `o.call = group(-x)`, the last ones on line `n`. -/
def assignedCallTokens (x : Float) (spelling : String) (n : Nat) : List Token :=
  [.ident "o" 1, .ofSymbol .dot "." 1, .ident "call" 1, .ofSymbol .equal "=" 1, .ident "group" n,
    .ofSymbol .leftParen "(" n, .ofSymbol .minus "-" n, ⟨.number x, spelling, n⟩, .ofSymbol .rightParen ")" n,
    .endAt n]

/-- The assignment of `group(-x)` to `o.call`, with its names marked from `i` on. -/
def assignedCall (x : Float) (i : NodeId) (n : Nat) : Expr NodeId :=
  .set (.variable i (.ident "o" 1)) (.ident "call" 1)
    (.call (.variable (i + 1) (.ident "group" n)) (.ofSymbol .rightParen ")" n)
      [.unary (.ofSymbol .minus "-" n) (.literal (.number x))])

theorem produces_assignedCall {source spelling : String} {x : Float} {n : Nat} (i : NodeId)
    (h : Scan.tokens source = assignedCallTokens x spelling n) : Parser.Produces source (assignedCall x i n) := by
  have hparsed : Parser.single i (assignedCallTokens x spelling n) = ⟨some (assignedCall x i n), [], i + 2⟩ := rfl
  rw [← h] at hparsed
  exact .single (congrArg Parser.Result.reports hparsed) (congrArg Parser.Result.tree hparsed)

/-- A property called `call`, a function called `group` and a sign, in two layouts and with two spellings of the
number. -/
theorem assignedCall_text :
    Parser.Produces "o.call = group(-1.5)" (assignedCall 1.5 0 1) ∧
      Parser.Produces "o .call=// c\n group( -1.50 )" (assignedCall 1.5 7 2) ∧
      (assignedCall 1.5 0 1).Legible ∧ (assignedCall 1.5 7 2).Legible ∧
      (assignedCall 1.5 0 1).text = (assignedCall 1.5 7 2).text ∧
      (assignedCall 1.5 0 1).bare = (assignedCall 1.5 7 2).bare := by
  have hscan : Scan.tokens "o.call = group(-1.5)" = assignedCallTokens 1.5 "1.5" 1 := by decide +kernel
  have hscan' : Scan.tokens "o .call=// c\n group( -1.50 )" = assignedCallTokens 1.5 "1.50" 2 := by decide +kernel
  have hlegible : ∀ i n, (assignedCall 1.5 i n).Legible := by
    intro i n v hv
    obtain rfl := List.mem_singleton.1 hv
    decide +kernel
  have htext : (assignedCall 1.5 0 1).text = (assignedCall 1.5 7 2).text := rfl
  have he := produces_assignedCall 0 hscan
  have he' := produces_assignedCall 7 hscan'
  exact ⟨he, he', hlegible 0 1, hlegible 7 2, htext,
    text_unambiguous he he' (hlegible 0 1) (hlegible 7 2) htext⟩

end Lox
