import Lox.Proofs.Parser.Embedding
import Lox.Proofs.Parser.FirstError
import Lox.Proofs.Parser.Renaming

/-!
# Broken statements are isolated

A statement that is broken off at its only semicolon is stuck at one of its own tokens, since everything
up to the first semicolon of a statement is a statement (`declaration_of_begins`). What is reported there
does not depend on what follows, and what is dropped is the rest of that statement. So a list of sound
and broken statements is parsed as each of them would be alone.
-/

namespace Lox.Loose

open Grammar (Commas)

variable {p : Part} {ts us vs b more : List Token} {t semicolon : Token}

/-! ## Up to the first semicolon -/

/-- Every phrase has a semicolon or a closing brace. -/
theorem closes_of_forms (h : Forms p ts) : ¬ (Free .semicolon ts ∧ Free .rightBrace ts) := by
  have hvar : ∀ {ts}, VarPhrase ts → ¬ Free .semicolon ts := by
    rintro _ (⟨_, _, hs⟩ | ⟨_, _, _, _, hs⟩) h <;> simp [hs] at h
  have hexpr : ∀ {ts}, ExprPhrase ts → ¬ Free .semicolon ts := by
    rintro _ ⟨_, hs⟩ h
    simp [hs] at h
  induction h with
  | classDecl _ _ _ _ _ hright => simp [hright]
  | function _ _ ih => exact fun h => ih ⟨(free_cons.1 h.1).2, (free_cons.1 h.2).2⟩
  | varDecl h => exact fun hfree => hvar h hfree.1
  | statement _ ih => exact ih
  | signature _ _ _ _ _ _ ih => simp_all
  | block _ _ hright => simp [hright]
  | braces _ ih => exact ih
  | expression h => exact fun hfree => hexpr h hfree.1
  | print _ _ hs => simp [hs]
  | returning _ _ hs => simp [hs]
  | loop _ _ _ _ _ ih => simp_all
  | forLoop _ _ _ _ hs => simp [hs]
  | ifThen _ _ _ _ _ ih => simp_all
  | ifElse _ _ _ _ _ _ _ ih => simp_all

/-- The symbols that let a phrase go on behind a semicolon, and the semicolon. -/
def joints : List Symbol := [.semicolon, .leftBrace, .rightBrace, .forKw]

/-- None of these symbols occurs. -/
def Plain (ts : List Token) : Prop := ∀ k ∈ joints, Free k ts

/-- What stands before the first semicolon begins with what has none. -/
theorem split_plain (h : us ++ vs = b ++ semicolon :: more) (hs : semicolon.is .semicolon = true)
    (hb : Plain b) (hus : Free .semicolon us) :
    ∃ b', b = us ++ b' ∧ vs = b' ++ semicolon :: more ∧ Plain b' := by
  rcases List.append_eq_append_iff.1 h with ⟨b', rfl, hvs⟩ | ⟨us', hus', hmore⟩
  · exact ⟨b', rfl, hvs, fun k hk => (free_append.1 (hb k hk)).2⟩
  · cases us' with
    | nil => exact ⟨[], by simpa using hus'.symm, by simpa using hmore.symm, fun _ _ => free_nil⟩
    | cons t us' =>
      obtain ⟨rfl, -⟩ : semicolon = t ∧ _ := by simpa using hmore
      simp [hus', hs] at hus

/-- The semicolon that ends a phrase is its first one. -/
theorem end_plain {last : Token} (h : us ++ [last] = b ++ semicolon :: more)
    (hs : semicolon.is .semicolon = true) (hb : Plain b) (hus : Free .semicolon us) :
    us ++ [last] = b ++ [semicolon] := by
  obtain ⟨b', rfl, hrest, -⟩ := split_plain h hs hb hus
  cases b' with
  | nil =>
    obtain ⟨rfl, -⟩ : last = semicolon ∧ _ := by simpa using hrest
    simp
  | cons t b' => simp at hrest

/-- A brace or a `for` does not come before the first semicolon. -/
theorem not_begins {k : Symbol} (h : t :: us = b ++ semicolon :: more) (hs : semicolon.is .semicolon = true)
    (hb : Plain b) (ht : t.is k = true) (hk : k ∈ joints ∧ k ≠ .semicolon) : False := by
  cases b with
  | nil =>
    obtain ⟨rfl, -⟩ : t = semicolon ∧ _ := by simpa using h
    exact hk.2 (by simpa [Parser.is_eq_decide ht] using hs)
  | cons u b =>
    obtain ⟨rfl, -⟩ : t = u ∧ _ := by simpa using h
    have hfree := hb k hk.1
    simp [ht] at hfree

/-- Before the first semicolon of a loop or an `if` there is its condition. -/
theorem split_condition {keyword opening closing : Token} {k : Symbol}
    (h : keyword :: opening :: ts ++ closing :: us = b ++ semicolon :: more)
    (hs : semicolon.is .semicolon = true) (hb : Plain b) (hk : keyword.is k = true) (hne : k ≠ .semicolon)
    (ho : opening.is .leftParen = true) (hd : Derives .assignment ts) (hc : closing.is .rightParen = true) :
    ∃ b', b = keyword :: opening :: ts ++ closing :: b' ∧ us = b' ++ semicolon :: more ∧ Plain b' := by
  have hsplit : (keyword :: opening :: ts ++ [closing]) ++ us = b ++ semicolon :: more := by simpa using h
  obtain ⟨b', rfl, hrest, hb'⟩ := split_plain hsplit hs hb (by
    simp [free_of_derives (k := .semicolon) (by decide) hd, not_is_of_is hk hne, not_is_of_is ho,
      not_is_of_is hc])
  exact ⟨b', by simp, hrest, hb'⟩

/-- A phrase that goes on behind its first semicolon is a statement up to there, unless a brace or a
`for` comes before. -/
theorem forms_of_begins (h : Forms p ts) (heq : ts = b ++ semicolon :: more)
    (hs : semicolon.is .semicolon = true) (hb : Plain b) :
    Forms p (b ++ [semicolon]) ∧ p ≠ .function ∧ p ≠ .braces := by
  have hexpr : ∀ {l ts}, Derives l ts → Free .semicolon ts := free_of_derives (by decide)
  induction h generalizing b more with
  | @classDecl keyword x left right ts methods hk hx hparent hleft _ hright _ =>
    have hsuper : Free .semicolon ts := by
      cases hparent with
      | none => exact free_nil
      | some hless hx => simp [not_is_of_is hless, not_is_of_is hx]
    have hsplit : (keyword :: x :: ts) ++ (left :: methods.flatten ++ [right]) =
        b ++ semicolon :: more := by simpa using heq
    obtain ⟨b', -, hrest, hb'⟩ := split_plain hsplit hs hb
      (by simp [hsuper, not_is_of_is hk, not_is_of_is hx])
    exact (not_begins hrest hs hb' hleft (by decide)).elim
  | @function keyword ts hk _ ih =>
    have hsplit : [keyword] ++ ts = b ++ semicolon :: more := heq
    obtain ⟨b', -, hrest, hb'⟩ := split_plain hsplit hs hb (by simp [not_is_of_is hk])
    exact absurd rfl (ih hrest hb').2.1
  | varDecl h =>
    refine ⟨.varDecl ?_, by decide, by decide⟩
    cases h with
    | @bare keyword x last hk hx hlast =>
      have hsplit : [keyword, x] ++ [last] = b ++ semicolon :: more := heq
      have hend := end_plain hsplit hs hb (by simp [not_is_of_is hk, not_is_of_is hx])
      exact hend ▸ .bare hk hx hlast
    | @valued keyword x equal last ts hk hx he hd hlast =>
      have hend := end_plain heq hs hb
        (by simp [hexpr hd, not_is_of_is hk, not_is_of_is hx, not_is_of_is he])
      exact hend ▸ .valued hk hx he hd hlast
  | statement _ ih =>
    exact ⟨.statement (ih heq hb).1, by decide, by decide⟩
  | @signature name opening closing params listed body hx ho hparams hcommas hc _ ih =>
    have hlisted : Free .semicolon listed := free_of_commas hcommas (by decide) fun ts hts => by
      obtain ⟨x, hmem, rfl⟩ := List.mem_map.1 hts
      simp [not_is_of_is (hparams x hmem)]
    have hsplit : (name :: opening :: listed ++ [closing]) ++ body = b ++ semicolon :: more := by
      simpa using heq
    obtain ⟨b', -, hrest, hb'⟩ := split_plain hsplit hs hb
      (by simp [hlisted, not_is_of_is hx, not_is_of_is ho, not_is_of_is hc])
    exact absurd rfl (ih hrest hb').2.2
  | block hleft =>
    exact (not_begins heq hs hb hleft (by decide)).elim
  | braces _ ih =>
    exact absurd rfl (ih heq hb).2.2
  | expression h =>
    refine ⟨.expression ?_, by decide, by decide⟩
    cases h with
    | mk hd hlast => exact end_plain heq hs hb (hexpr hd) ▸ .mk hd hlast
  | print hk hd hlast =>
    have hend := end_plain heq hs hb (by simp [hexpr hd, not_is_of_is hk])
    exact ⟨hend ▸ .print hk hd hlast, by decide, by decide⟩
  | @returning _ _ ts hk ho hlast =>
    have hvalue : Free .semicolon ts := by
      cases ho with
      | none => exact free_nil
      | some hd => exact hexpr hd
    have hend := end_plain heq hs hb (by simp [hvalue, not_is_of_is hk])
    exact ⟨hend ▸ .returning hk ho hlast, by decide, by decide⟩
  | loop hk ho hd hc _ ih =>
    obtain ⟨b', rfl, hrest, hb'⟩ := split_condition heq hs hb hk (by decide) ho hd hc
    have hloop := Forms.loop hk ho hd hc (ih hrest hb').1
    exact ⟨by simpa using hloop, by decide, by decide⟩
  | forLoop hk =>
    simp only [List.cons_append, List.append_assoc] at heq
    exact (not_begins heq hs hb hk (by decide)).elim
  | ifThen hk ho hd hc _ ih =>
    obtain ⟨b', rfl, hrest, hb'⟩ := split_condition heq hs hb hk (by decide) ho hd hc
    have hif := Forms.ifThen hk ho hd hc (ih hrest hb').1
    exact ⟨by simpa using hif, by decide, by decide⟩
  | @ifElse keyword opening closing other ts us vs hk ho hd hc hus he _ ih _ =>
    rw [List.append_assoc, List.cons_append] at heq
    obtain ⟨b', rfl, hrest, hb'⟩ := split_condition heq hs hb hk (by decide) ho hd hc
    -- the first branch does not end before the semicolon, so that it is in this branch
    obtain ⟨more', hbranch⟩ : ∃ more', us = b' ++ semicolon :: more' := by
      rcases List.append_eq_append_iff.1 hrest with ⟨c, rfl, -⟩ | ⟨c, rfl, hmore⟩
      · refine absurd ⟨?_, ?_⟩ (closes_of_forms hus)
        · exact (free_append.1 (hb' .semicolon (by decide))).1
        · exact (free_append.1 (hb' .rightBrace (by decide))).1
      · cases c with
        | nil =>
          obtain ⟨rfl, -⟩ : semicolon = other ∧ _ := by simpa using hmore
          simp [Parser.is_eq_decide he] at hs
        | cons t c =>
          obtain ⟨rfl, -⟩ : semicolon = t ∧ _ := by simpa using hmore
          exact ⟨c, rfl⟩
    have hif := Forms.ifThen hk ho hd hc (ih hbranch hb').1
    exact ⟨by simpa using hif, by decide, by decide⟩

theorem declaration_of_begins (h : Forms .declaration (b ++ semicolon :: more))
    (hs : semicolon.is .semicolon = true) (hb : Plain b) : Forms .declaration (b ++ [semicolon]) :=
  (forms_of_begins h rfl hs hb).1

end Lox.Loose

namespace Lox.Parser

variable {c ts v body : List Token} {i : NodeId} {n : Nat} {eof t semicolon : Token}

/-! ## Broken statements -/

/-- A statement broken off at its only semicolon, with no word inside that starts another one. -/
structure Broken (c : List Token) : Prop where
  ends : ∃ t ∈ c.getLast?, t.is .semicolon = true
  once : Loose.Free .semicolon c.dropLast
  plain : ∀ k ∈ [Symbol.leftBrace, .rightBrace, .eof, .forKw], Loose.Free k c
  words : ∀ k ∈ [Symbol.classKw, .funKw, .varKw, .ifKw, .whileKw, .printKw, .returnKw],
    Loose.Free k c.tail
  underivable : ¬ Loose.Forms .declaration c

theorem then_nothing {L : Expected} {w : List Token} : Then L Nothing w ↔ L w := by
  constructor
  · rintro ⟨us, vs, rfl, hus, rfl⟩
    rwa [List.append_nil]
  · exact fun h => ⟨w, [], by simp, h, rfl⟩

namespace Broken

theorem split (h : Broken c) : ∃ body semicolon, c = body ++ [semicolon] ∧
    semicolon.is .semicolon = true ∧ Loose.Free .semicolon body := by
  obtain ⟨semicolon, hlast, hs⟩ := h.ends
  obtain ⟨body, rfl⟩ := List.getLast?_eq_some_iff.1 hlast
  exact ⟨body, semicolon, rfl, hs, by simpa using h.once⟩

theorem plain_body (h : Broken (body ++ [semicolon])) (hbody : Loose.Free .semicolon body) :
    Loose.Plain body := by
  have hfree : ∀ k ∈ [Symbol.leftBrace, .rightBrace, .eof, .forKw], Loose.Free k body :=
    fun k hk => (Loose.free_append.1 (h.plain k hk)).1
  simp [Loose.Plain, Loose.joints, hbody, hfree]

/-- No declaration is read from it: the parser is stuck at one of its tokens. -/
theorem stuck (h : Broken c) (heof : eof.is .eof = true) (hn : 16 * c.length + 12 ≤ n) (i : NodeId) :
    ∃ ts t v cause i' notes, c = ts ++ t :: v ∧ SyntaxFault.inPassing cause = false ∧
      (∀ r ∈ notes, r.inPassing = true) ∧
      declaration n eof ⟨c, i, []⟩ = .fault t cause ⟨t :: v, i', notes⟩ := by
  obtain ⟨body, semicolon, rfl, hs, hbody⟩ := h.split
  have hplain := h.plain_body hbody
  have habsorbs : Absorbs Nothing := fun t w hw => absurd hw (List.cons_ne_nil _ _)
  have hmeets := (stmtMeets heof n).declaration (K := Nothing) ⟨body ++ [semicolon], i, []⟩ ⟨[], rfl⟩ habsorbs
  have hends := (stmtSound heof n).declaration ⟨body ++ [semicolon], i, []⟩
  have hunbraced : ∀ {s}, ¬ Recovered eof true ⟨body ++ [semicolon], i, []⟩ s
      (Then (Loose.Forms .declaration) Nothing) := by
    rintro s ⟨s₁, -, -, -, -, -, hbraced⟩
    obtain ⟨ts, hts, t, ht, hleft⟩ := hbraced rfl
    have hmem : t ∈ body ++ [semicolon] := by
      rw [show body ++ [semicolon] = ts ++ s₁.rest from hts]
      exact List.mem_append_left _ ht
    simp [h.plain .leftBrace (by decide) t hmem] at hleft
  cases hr : declaration n eof ⟨body ++ [semicolon], i, []⟩ with
  | ok s s' =>
    rw [hr] at hmeets
    obtain ⟨-, ts, hts, hin, -⟩ := hmeets.resolve_right hunbraced
    have hforms : Loose.Forms .declaration ts := by simpa using then_nothing.1 (hin [] rfl)
    -- what ends before the semicolon has neither a semicolon nor a closing brace
    rcases List.eq_nil_or_concat s'.rest with hrest | ⟨us, last, hrest⟩
    · have hall : body ++ [semicolon] = ts := by simpa [hrest] using hts
      exact absurd (hall ▸ hforms) h.underivable
    · obtain ⟨rfl, -⟩ : body = ts ++ us ∧ [semicolon] = [last] :=
        List.append_inj' (by simpa [hrest] using hts) rfl
      refine absurd ⟨?_, ?_⟩ (Loose.closes_of_forms hforms)
      · exact (Loose.free_append.1 hbody).1
      · exact (Loose.free_append.1 (hplain .rightBrace (by decide))).1
  | fault t cause s' =>
    rw [hr] at hmeets
    obtain ⟨⟨⟨notes, hnotes, hpassing⟩, ts, hts, ⟨w, hw⟩, -⟩, rfl, hcause⟩ := hmeets.resolve_right hunbraced
    obtain ⟨rest, i', reports⟩ := s'
    -- behind the semicolon nothing is missing any more
    cases rest with
    | nil =>
      have hall : body ++ [semicolon] = ts := by simpa using hts
      have hforms := then_nothing.1 hw
      rw [← hall, List.append_assoc, List.singleton_append] at hforms
      exact absurd (Loose.declaration_of_begins hforms hs hplain) h.underivable
    | cons t v =>
      obtain rfl : reports = notes := by simpa using hnotes
      exact ⟨ts, t, v, cause, i', reports, hts, hcause, hpassing, rfl⟩
  | outOfFuel =>
    rw [hr] at hends
    have hlow : n < 16 * (body ++ [semicolon]).length + 12 := hends
    omega

end Broken

/-- What is dropped of a statement is the rest of it, up to its only semicolon. -/
theorem dropBroken_semicolon (rest : List Token) (hs : semicolon.is .semicolon = true)
    (hbody : Loose.Free .semicolon body) (hwords : ∀ t ∈ (body ++ [semicolon]).tail, startsStatement t = false) :
    dropBroken (body ++ semicolon :: rest) = rest := by
  induction body with
  | nil => cases rest <;> simp [dropBroken, hs]
  | cons t body ih =>
    obtain ⟨ht, hbody⟩ := Loose.free_cons.1 hbody
    replace hwords : ∀ u ∈ body ++ [semicolon], startsStatement u = false := hwords
    have hdrop := ih hbody fun u hu => hwords u (List.mem_of_mem_tail hu)
    cases body with
    | nil => simpa [dropBroken, ht, hwords semicolon (by simp)] using hdrop
    | cons u body => simpa [dropBroken, ht, hwords u (by simp)] using hdrop

theorem Broken.dropped (h : Broken (ts ++ t :: v)) (rest : List Token) :
    dropBroken (t :: v ++ rest) = rest := by
  obtain ⟨body, semicolon, hc, hs, hbody⟩ := h.split
  have hwords : ∀ u ∈ v, startsStatement u = false := by
    intro u hu
    have htail : u ∈ (ts ++ t :: v).tail := by
      cases ts with
      | nil => exact hu
      | cons x ts => exact List.mem_append_right _ (List.mem_cons_of_mem _ hu)
    have hfor := h.plain .forKw (by decide) u (List.mem_of_mem_tail htail)
    have hword : ∀ k ∈ [Symbol.classKw, .funKw, .varKw, .ifKw, .whileKw, .printKw, .returnKw],
        u.is k = false := fun k hk => h.words k hk u htail
    simp_all [startsStatement]
  obtain ⟨b, last, hb⟩ := (List.eq_nil_or_concat (t :: v)).resolve_left (List.cons_ne_nil _ _)
  rw [List.concat_eq_append] at hb
  obtain ⟨rfl, hlast⟩ : body = ts ++ b ∧ [semicolon] = [last] :=
    List.append_inj' (by rw [← hc, hb, List.append_assoc]) rfl
  obtain rfl : semicolon = last := by simpa using hlast
  have hdrop := dropBroken_semicolon rest hs (Loose.free_append.1 hbody).2 (by rw [← hb]; exact hwords)
  rw [hb, List.append_assoc]
  exact hdrop

theorem upToEnd_of_unended (h : Loose.Free .eof c) : upToEnd c = c := by
  have hsplit : upToEnd (c ++ []) = c ++ [] := upToEnd_append h
  simpa using hsplit

/-- A token list with a fault that is not in passing is no declaration. -/
theorem underivable_of_report {r : Report} (hc : Loose.Free .eof c) (hmem : r ∈ (program i c).reports)
    (hr : r.inPassing = false) : ¬ Loose.Forms .declaration c := by
  intro hforms
  have hprogram : Loose.Program (upToEnd c) := by
    rw [upToEnd_of_unended hc]
    simpa using Loose.Program.mk [c] (by simpa using hforms)
  simp [passes_of_program i hprogram r hmem] at hr

/-! ## One statement after another -/

/-- A single declaration or statement that parses alone without an error. -/
structure Whole (nextId : NodeId) (c : List Token) : Prop where
  unended : Loose.Free .eof c
  clean : (program nextId c).reports = []
  single : ∃ s, (program nextId c).tree = [s]

theorem declarations_cons {first : Option (Stmt NodeId)} {statements : List (Stmt NodeId)}
    {s s' s'' : ParseState} (hne : s.rest ≠ [])
    (hfirst : recover (declaration n) dropBroken eof s = .ok first s')
    (hrest : declarations n false eof s' = .ok statements s'') :
    declarations (n + 1) false eof s = .ok (first.toList ++ statements) s'' := by
  have hatEnd : atEnd eof s = .ok false s := by
    rw [atEnd, List.isEmpty_eq_false_iff.2 hne]
  obtain ⟨b, hcheck⟩ : ∃ b, check .rightBrace eof s = .ok b s := ⟨_, rfl⟩
  rw [declarations, bind_of_ok hatEnd, bind_of_ok hcheck]
  simp only [Bool.false_and, Bool.or_self, Bool.false_eq_true, if_false]
  exact (bind_of_ok hfirst).trans (bind_of_ok hrest)

theorem program_of_run {statements : List (Stmt NodeId)} {s : ParseState}
    (h : programRun i c = .ok statements s) : program i c = ⟨statements, s.reports, s.nextId⟩ := by
  rw [program_eq, h]

/-- Reports do not depend on the identities that are given out. -/
theorem reports_eq (a b : NodeId) (hc : c ≠ []) : (program a c).reports = (program b c).reports := by
  have hzero : ∀ i, (program i c).reports = (program 0 c).reports := fun i => by
    simpa using congrArg Result.reports (program_renamed i id 0 hc)
  rw [hzero a, hzero b]

theorem Broken.ne_nil (h : Broken c) : c ≠ [] := by
  obtain ⟨body, semicolon, rfl, -⟩ := h.split
  simp

/-- A broken statement is reported once and dropped, whatever follows. -/
theorem Broken.recovers (h : Broken c) (i : NodeId) : ∃ notes r i', r.inPassing = false ∧
    (∀ note ∈ notes, note.inPassing = true) ∧ ∀ {n eof rest before}, 16 * c.length + 12 ≤ n →
      recover (declaration n) dropBroken eof ⟨c ++ rest, i, before⟩ =
        .ok none ⟨rest, i', before ++ (notes ++ [r])⟩ := by
  have heof : (Token.endAt 1).is .eof = true := rfl
  obtain ⟨ts, t, v, cause, i', notes, rfl, hcause, hnotes, hrun⟩ := h.stuck heof (Nat.le_refl _) i
  refine ⟨notes, cause.report t, i', ?_, hnotes, fun {n eof rest before} hn => ?_⟩
  · rw [SyntaxFault.inPassing_report, hcause]
  · have hembeds := (embedsStmts hn).declaration (.endAt 1) eof ⟨ts ++ t :: v, i, []⟩ before rest
    have hembedded := (hembeds (by rw [hrun]; exact List.cons_ne_nil _ _)).2
    rw [hrun] at hembedded
    simp only [ParseState.within, Parsed.within, List.append_nil] at hembedded
    rw [recover, hembedded]
    simp only [h.dropped rest, List.append_assoc]

/-- Alone, it gives no statement and one report that is not in passing; and the same reports in any
other place. -/
theorem Broken.alone (h : Broken c) (i : NodeId) : (program i c).tree = [] ∧
    (∃ r, (program i c).reports.filter (fun r => !r.inPassing) = [r]) ∧
    ∀ {n eof rest before}, 16 * c.length + 12 ≤ n → recover (declaration n) dropBroken eof
      ⟨c ++ rest, i, before⟩ = .ok none ⟨rest, (program i c).nextId, before ++ (program i c).reports⟩ := by
  obtain ⟨notes, r, i', hr, hnotes, hrecovers⟩ := h.recovers i
  have hprogram : program i c = ⟨[], notes ++ [r], i'⟩ := by
    obtain ⟨n, hn⟩ : ∃ n, fuelFor c = n + 2 := ⟨16 * c.length + 30, by rw [fuelFor]; omega⟩
    have hfirst := @hrecovers (n + 1) (splitEnd c).2 [] [] (by rw [fuelFor] at hn; omega)
    refine program_of_run (s := ⟨[], i', notes ++ [r]⟩) ?_
    rw [programRun, upToEnd_of_unended (h.plain .eof (by decide)), hn]
    exact declarations_cons h.ne_nil (by simpa using hfirst) rfl
  have hfilter : notes.filter (fun r => !r.inPassing) = [] :=
    List.filter_eq_nil_iff.2 fun note hnote => by simp [hnotes note hnote]
  rw [hprogram]
  exact ⟨rfl, ⟨r, by simp [hfilter, hr]⟩, hrecovers⟩

/-- A whole statement is derived by the grammar. -/
theorem Whole.forms {alone : NodeId} (h : Whole alone c) :
    ∃ s, (program alone c).tree = [s] ∧ Grammar.Forms .declaration c s := by
  obtain ⟨s, hs⟩ := h.single
  have hprogram := (program_sound h.clean).1
  rw [hs, upToEnd_of_unended h.unended] at hprogram
  generalize htree : [s] = tree at hprogram
  cases hprogram with
  | mk parts hparts =>
    obtain ⟨p, rfl⟩ : ∃ p, parts = [p] := List.length_eq_one_iff.1 (by simpa using congrArg List.length htree.symm)
    obtain rfl : s = p.2 := by simpa using htree
    exact ⟨p.2, by simpa using hs, by simpa using hparts p (by simp)⟩

/-- What comes of one statement, whole or broken, is what comes of it alone, unless an `else` follows. -/
theorem statement_isolated {alone : NodeId} (h : Whole alone c ∨ Broken c) {rest : List Token}
    (hrest : Ended [.elseKw] rest) (eof : Token) (i : NodeId) (before : List Report)
    (hn : 16 * (c.length + rest.length) + 12 ≤ n) :
    ∃ first i', Stmt.unmarkedAll first.toList = Stmt.unmarkedAll (program alone c).tree ∧
      recover (declaration n) dropBroken eof ⟨c ++ rest, i, before⟩ =
        .ok first ⟨rest, i', before ++ (program alone c).reports⟩ := by
  rcases h with h | h
  · obtain ⟨s, hs, hforms⟩ := h.forms
    obtain ⟨s', i', hunmarked, hrun⟩ := accepted_of_forms hforms eof rest n i before hrest hn
    refine ⟨some s', i', by simp [hs, Stmt.unmarkedAll, hunmarked], ?_⟩
    rw [recover, hrun, h.clean, List.append_nil]
  · obtain ⟨htree, -, hrecovers⟩ := h.alone i
    refine ⟨none, (program i c).nextId, by simp [(h.alone alone).1], ?_⟩
    rw [reports_eq alone i h.ne_nil]
    exact hrecovers (by omega)

theorem ne_nil_of_statement {alone : NodeId} (h : Whole alone c ∨ Broken c) : c ≠ [] := by
  rcases h with h | h
  · obtain ⟨s, -, hforms⟩ := h.forms
    exact ne_nil_of_forms hforms
  · exact h.ne_nil

/-- Statements one after another give what each of them gives. -/
theorem declarations_isolated {alone : NodeId} {chunks : List (List Token)}
    (hchunks : ∀ c ∈ chunks, Whole alone c ∨ Broken c) (helse : ∀ c ∈ chunks, Ended [.elseKw] c)
    (eof : Token) (i : NodeId) (before : List Report) (hn : 16 * chunks.flatten.length + 13 ≤ n) :
    ∃ statements i',
      Stmt.unmarkedAll statements = chunks.flatMap (fun c => Stmt.unmarkedAll (program alone c).tree) ∧
      declarations n false eof ⟨chunks.flatten, i, before⟩ =
        .ok statements ⟨[], i', before ++ chunks.flatMap fun c => (program alone c).reports⟩ := by
  induction chunks generalizing n i before with
  | nil =>
    obtain ⟨n, rfl⟩ : ∃ m, n = m + 1 := ⟨n - 1, by omega⟩
    refine ⟨[], i, rfl, ?_⟩
    rw [List.flatMap_nil, List.append_nil]
    rfl
  | cons c chunks ih =>
    rw [List.forall_mem_cons] at hchunks helse
    obtain ⟨n, rfl⟩ : ∃ m, n = m + 1 := ⟨n - 1, by omega⟩
    rw [List.flatten_cons, List.length_append] at hn
    have hne := ne_nil_of_statement hchunks.1
    have hlen : 1 ≤ c.length := List.length_pos_iff.2 hne
    have hnext : Ended [.elseKw] chunks.flatten := by
      cases chunks with
      | nil => exact fun t ht => nomatch ht
      | cons d chunks =>
        obtain ⟨t, d, rfl⟩ := List.exists_cons_of_ne_nil (ne_nil_of_statement (hchunks.2 d (by simp)))
        exact helse.2 (t :: d) List.mem_cons_self
    obtain ⟨first, i₁, htree, hfirst⟩ := statement_isolated hchunks.1 hnext eof i before (n := n) (by omega)
    obtain ⟨statements, i₂, htrees, hrun⟩ := ih hchunks.2 helse.2 i₁ (before ++ (program alone c).reports)
      (n := n) (by omega)
    refine ⟨first.toList ++ statements, i₂, ?_, ?_⟩
    · rw [List.flatMap_cons, Stmt.unmarkedAll_append, htree, htrees]
    · rw [List.flatten_cons, List.flatMap_cons, ← List.append_assoc]
      have hrest : c ++ chunks.flatten ≠ [] := by simp [hne]
      exact declarations_cons hrest hfirst hrun

/-- Error recovery keeps to the broken statement. A list of statements, each of them whole or broken off
at its semicolon, gives the statements of the whole ones in their order and the reports that each of them
gives alone; for a broken one this is one report, apart from those in passing. -/
theorem broken_statements_are_isolated (nextId alone : NodeId) {tokens : List Token}
    {chunks : List (List Token)} (hinput : upToEnd tokens = chunks.flatten)
    (hchunks : ∀ c ∈ chunks, Whole alone c ∨ Broken c) (helse : ∀ c ∈ chunks, Ended [.elseKw] c) :
    Stmt.unmarkedAll (program nextId tokens).tree =
        chunks.flatMap (fun c => Stmt.unmarkedAll (program alone c).tree) ∧
      (program nextId tokens).reports = chunks.flatMap (fun c => (program alone c).reports) ∧
      ∀ c ∈ chunks, Broken c → (program alone c).tree = [] ∧
        ∃ r, (program alone c).reports.filter (fun r => !r.inPassing) = [r] := by
  have hlen := length_upToEnd_le tokens
  obtain ⟨statements, i', htree, hrun⟩ := declarations_isolated hchunks helse (splitEnd tokens).2 nextId []
    (n := fuelFor tokens) (by rw [fuelFor, ← hinput]; omega)
  rw [← hinput] at hrun
  rw [program_of_run hrun]
  exact ⟨htree, rfl, fun c hc h => ⟨(h.alone alone).1, (h.alone alone).2.1⟩⟩

/-- `var = a;`, `print (;`, `print b;` and `var ok;`. -/
def twoBroken : List (List Token) :=
  [[.ofSymbol .varKw "var" 1, .ofSymbol .equal "=" 1, .ident "a" 1, .ofSymbol .semicolon ";" 1],
    [.ofSymbol .printKw "print" 2, .ofSymbol .leftParen "(" 2, .ofSymbol .semicolon ";" 2],
    [.ofSymbol .printKw "print" 3, .ident "b" 3, .ofSymbol .semicolon ";" 3],
    [.ofSymbol .varKw "var" 4, .ident "ok" 4, .ofSymbol .semicolon ";" 4]]

theorem twoBroken_statements : ∀ c ∈ twoBroken, Whole 0 c ∨ Broken c := by
  simp only [twoBroken, List.forall_mem_cons]
  refine ⟨.inr ?_, .inr ?_, .inl ?_, .inl ?_, by simp⟩
  · refine ⟨⟨_, rfl, rfl⟩, by decide, by decide, by decide, ?_⟩
    exact underivable_of_report (i := 0) (by decide) (List.mem_singleton_self _) rfl
  · refine ⟨⟨_, rfl, rfl⟩, by decide, by decide, by decide, ?_⟩
    exact underivable_of_report (i := 0) (by decide) (List.mem_singleton_self _) rfl
  · exact ⟨by decide, rfl, _, rfl⟩
  · exact ⟨by decide, rfl, _, rfl⟩

/-- Each of the two broken statements is reported where it breaks off, and the others are kept. -/
theorem twoBroken_are_isolated : upToEnd (twoBroken.flatten ++ [.endAt 4]) = twoBroken.flatten ∧
    (∀ c ∈ twoBroken, Whole 0 c ∨ Broken c) ∧ (∀ c ∈ twoBroken, Ended [.elseKw] c) ∧
    (program 0 (twoBroken.flatten ++ [.endAt 4])).reports =
      [SyntaxFault.variableName.report (.ofSymbol .equal "=" 1),
        SyntaxFault.expression.report (.ofSymbol .semicolon ";" 2)] ∧
    Stmt.unmarkedAll (program 0 (twoBroken.flatten ++ [.endAt 4])).tree =
      [.print (.ofSymbol .printKw "print" 3) (.variable () (.ident "b" 3)), .varDecl (.ident "ok" 4) none] := by
  have helse : ∀ c ∈ twoBroken, Ended [.elseKw] c := by simp [twoBroken, Ended, Token.is, Token.ofSymbol]
  have hinput : upToEnd (twoBroken.flatten ++ [.endAt 4]) = twoBroken.flatten := rfl
  obtain ⟨htree, hreports, -⟩ := broken_statements_are_isolated 0 0 hinput twoBroken_statements helse
  exact ⟨hinput, twoBroken_statements, helse, hreports.trans rfl, htree.trans rfl⟩

end Lox.Parser
