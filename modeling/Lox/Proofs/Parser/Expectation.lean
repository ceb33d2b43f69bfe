import Lox.Proofs.Parser.CompleteExpressions

/-!
# What is expected next

At every point of a run there is a set of token lists that the grammar lets come next. A step that takes
tokens takes them off the front of such lists, and what is left is what is expected behind it
(`Advances`); where no expected list begins with the next token, the parser stops there (`Stuck`). Both
are put together by `Meets`, with one rule for each operation: the rules compute the expectation of a
parser from that of what is behind it, by one token of lookahead, and never mention how a list is
derived.
-/

namespace Lox

/-- The faults that are noted in passing: they are against rules of the grammar that the looser one
does not have. -/
def SyntaxFault.inPassing : SyntaxFault → Bool
  | .assignmentTarget | .tooManyArguments | .tooManyParameters => true
  | _ => false

/-- Whether a report says one of the three things that are noted in passing. -/
def Report.inPassing : Report → Bool
  | .syntactic _ message =>
    [SyntaxFault.assignmentTarget, .tooManyArguments, .tooManyParameters].any (·.message = message)
  | _ => false

/-- The messages tell the faults in passing from the others. -/
theorem SyntaxFault.inPassing_report (cause : SyntaxFault) (t : Token) :
    (cause.report t).inPassing = cause.inPassing := by
  have hrole : ∀ role : Role, (∀ cause ∈ [SyntaxFault.functionName role, .parameterList role,
      .functionBody role], (cause.report t).inPassing = cause.inPassing) := by
    intro role
    cases role <;> simp only [List.forall_mem_cons, List.not_mem_nil, false_imp_iff, implies_true,
      and_true] <;> exact ⟨by rfl, by rfl, by rfl⟩
  cases cause with
  | functionName role => exact hrole role _ (by simp)
  | parameterList role => exact hrole role _ (by simp)
  | functionBody role => exact hrole role _ (by simp)
  | _ => rfl

namespace Parser

/-- The token lists that may come next. -/
abbrev Expected := List Token → Prop

/-- Something may come next. -/
def Live (K : Expected) : Prop := ∃ w, K w

/-- No list begins with one of the symbols. -/
def Avoids (K : Expected) (ks : List Symbol) : Prop := ∀ w, K w → Ended ks w

/-- A token of a kind, and then more. -/
def Sym (k : Symbol) (K : Expected) : Expected
  | t :: w => t.is k = true ∧ K w
  | [] => False

/-- A phrase, and then more. -/
def Then (L K : Expected) : Expected := fun w => ∃ us vs, w = us ++ vs ∧ L us ∧ K vs

/-- One or the other. -/
def Either (M N : Expected) : Expected := fun w => M w ∨ N w

section
variable {K M N L : Expected} {ks : List Symbol} {k : Symbol} {t : Token} {w : List Token}

@[simp] theorem sym_cons : Sym k K (t :: w) ↔ t.is k = true ∧ K w := Iff.rfl

@[simp] theorem sym_nil : ¬ Sym k K [] := id

theorem exists_of_sym (h : Sym k K w) : ∃ t v, w = t :: v ∧ t.is k = true ∧ K v := by
  cases w with
  | nil => exact h.elim
  | cons t v => exact ⟨t, v, rfl, h⟩

theorem head_of_sym (h : Sym k K w) : ∃ t ∈ w.head?, t.is k = true := by
  obtain ⟨t, v, rfl, ht, _⟩ := exists_of_sym h
  exact ⟨t, rfl, ht⟩

theorem Live.sym (h : Live K) : Live (Sym k K) := by
  obtain ⟨w, hw⟩ := h
  exact ⟨.ofSymbol k "" 1 :: w, by simp [Token.is, Token.ofSymbol], hw⟩

theorem Live.then (hL : Live L) (h : Live K) : Live (Then L K) := by
  obtain ⟨us, hus⟩ := hL
  obtain ⟨vs, hvs⟩ := h
  exact ⟨us ++ vs, us, vs, rfl, hus, hvs⟩

theorem Live.left (h : Live M) : Live (Either M N) := h.imp fun _ => .inl

theorem Live.right (h : Live N) : Live (Either M N) := h.imp fun _ => .inr

theorem Avoids.mono {ls : List Symbol} (h : Avoids K ks) (hl : ∀ a ∈ ls, a ∈ ks) : Avoids K ls :=
  fun w hw => (h w hw).mono hl

theorem Avoids.sym (hk : k ∉ ks) : Avoids (Sym k K) ks := by
  intro w hw
  obtain ⟨t, v, rfl, ht, _⟩ := exists_of_sym hw
  exact .of_is ht hk

theorem Avoids.not_cons (h : Avoids K ks) (ht : ks.any t.is = true) : ¬ K (t :: w) := fun hw => by
  simpa [ht] using h _ hw t rfl

/-- Where one of the symbols comes next, no list goes on. -/
theorem Avoids.not_of_head {ts : List Token} (h : Avoids K ks) (hk : k ∈ ks)
    (hts : ∃ t ∈ ts.head?, t.is k = true) : ∀ w, w.head? = ts.head? → ¬ K w := by
  rintro w hw hK
  obtain ⟨t, ht, hkt⟩ := hts
  exact absurd hkt (List.any_eq_false.1 (h w hK t (hw ▸ ht)) k hk)

theorem not_of_nil {ts : List Token} (h : ¬ K []) (hts : ts = []) : ∀ w, w.head? = ts.head? → ¬ K w := by
  intro w hw hK
  rw [hts, List.head?_nil, List.head?_eq_none_iff] at hw
  exact h (hw ▸ hK)

/-- What a list is ended by does not come next. -/
theorem not_sym_of_ended (h : Ended ks w) (hk : k ∈ ks) : ¬ Sym k K w := by
  intro hw
  obtain ⟨t, v, rfl, ht, _⟩ := exists_of_sym hw
  exact absurd ht (List.any_eq_false.1 (h t rfl) k hk)

theorem Avoids.either (h : Avoids M ks) (h' : Avoids N ks) : Avoids (Either M N) ks
  | w, .inl hw => h w hw
  | w, .inr hw => h' w hw

end

/-! ## Steps -/

section
variable {eof : Token} {s s₁ s₂ : ParseState} {M N K : Expected}

/-- Only reports in passing were added. -/
def Passes (s s' : ParseState) : Prop :=
  ∃ notes, s'.reports = s.reports ++ notes ∧ ∀ r ∈ notes, r.inPassing = true

theorem Passes.refl (h : s₁.reports = s.reports) : Passes s s₁ := ⟨[], by simp [h], by simp⟩

theorem Passes.trans (h : Passes s s₁) (h' : Passes s₁ s₂) : Passes s s₂ := by
  obtain ⟨notes, hr, hn⟩ := h
  obtain ⟨notes', hr', hn'⟩ := h'
  refine ⟨notes ++ notes', by rw [hr', hr, List.append_assoc], fun r hr => ?_⟩
  rcases List.mem_append.1 hr with hr | hr
  · exact hn r hr
  · exact hn' r hr

/-- From one state to a later one: what was expected, behind the tokens between them, is what is
expected now, as far as the next token tells. -/
structure Advances (s s' : ParseState) (M K : Expected) : Prop where
  passes : Passes s s'
  tokens : ∃ ts, s.rest = ts ++ s'.rest ∧ (∀ w, K w → M (ts ++ w)) ∧
    ∀ w, w.head? = s'.rest.head? → M (ts ++ w) → K w

/-- The next token is the first one with which nothing goes on that was expected. -/
structure Stuck (s s' : ParseState) (M : Expected) : Prop where
  passes : Passes s s'
  tokens : ∃ ts, s.rest = ts ++ s'.rest ∧ Live (fun w => M (ts ++ w)) ∧
    ∀ w, w.head? = s'.rest.head? → ¬ M (ts ++ w)

/-- The parser was stuck on the way, reported that and went on; and if it is asked for, a brace had
been opened before. -/
def Recovered (eof : Token) (braced : Bool) (s s' : ParseState) (M : Expected) : Prop :=
  ∃ s₁ cause later, Stuck s s₁ M ∧ SyntaxFault.inPassing cause = false ∧
    s'.reports = s₁.reports ++ cause.report (s₁.rest.headD eof) :: later ∧
    (braced = true → ∃ ts, s.rest = ts ++ s₁.rest ∧ ∃ t ∈ ts, t.is .leftBrace = true)

/-- Lists with the same head go on alike. -/
theorem head?_append_eq {ts us vs : List Token} (h : us.head? = vs.head?) :
    (ts ++ us).head? = (ts ++ vs).head? := by
  cases ts with
  | nil => exact h
  | cons t ts => rfl

theorem Advances.refl (h : s₁.rest = s.rest) (hp : Passes s s₁) : Advances s s₁ K K :=
  ⟨hp, [], by simp [h], fun _ hw => hw, fun _ _ hw => hw⟩

theorem Advances.token {t : Token} {rest : List Token} (h : s.rest = t :: rest) :
    Advances s { s with rest } M fun w => M (t :: w) :=
  ⟨.refl rfl, [t], h, fun _ hw => hw, fun _ _ hw => hw⟩

theorem Advances.trans (h : Advances s s₁ M N) (h' : Advances s₁ s₂ N K) : Advances s s₂ M K := by
  obtain ⟨hp, ts, hts, hin, hout⟩ := h
  obtain ⟨hp', us, hus, hin', hout'⟩ := h'
  refine ⟨hp.trans hp', ts ++ us, by rw [hts, hus, List.append_assoc], fun w hw => ?_, fun w hw hM => ?_⟩
  · rw [List.append_assoc]
    exact hin _ (hin' w hw)
  · rw [List.append_assoc] at hM
    refine hout' w hw (hout _ ?_ hM)
    rw [hus]
    exact head?_append_eq hw

theorem Advances.stuck (h : Advances s s₁ M N) (h' : Stuck s₁ s₂ N) : Stuck s s₂ M := by
  obtain ⟨hp, ts, hts, hin, hout⟩ := h
  obtain ⟨hp', us, hus, ⟨w, hw⟩, hno⟩ := h'
  refine ⟨hp.trans hp', ts ++ us, by rw [hts, hus, List.append_assoc], ⟨w, ?_⟩, fun w hw hM => ?_⟩
  · show M (ts ++ us ++ w)
    rw [List.append_assoc]
    exact hin _ hw
  · rw [List.append_assoc] at hM
    refine hno w hw (hout _ ?_ hM)
    rw [hus]
    exact head?_append_eq hw

theorem Advances.recovered {braced : Bool} (h : Advances s s₁ M N)
    (h' : Recovered eof braced s₁ s₂ N) : Recovered eof braced s s₂ M := by
  obtain ⟨s₃, cause, later, hstuck, hcause, hreports, hbrace⟩ := h'
  refine ⟨s₃, cause, later, h.stuck hstuck, hcause, hreports, fun hb => ?_⟩
  obtain ⟨us, hus, t, ht, hleft⟩ := hbrace hb
  obtain ⟨ts, hts, _⟩ := h.tokens
  exact ⟨ts ++ us, by rw [hts, hus, List.append_assoc], t, List.mem_append_right _ ht, hleft⟩

/-- What is reported later makes no difference. -/
theorem Recovered.later {braced : Bool} (h : Recovered eof braced s s₁ M)
    (h' : ∃ more, s₂.reports = s₁.reports ++ more) : Recovered eof braced s s₂ M := by
  obtain ⟨s₃, cause, later, hstuck, hcause, hreports, hbrace⟩ := h
  obtain ⟨more, hmore⟩ := h'
  exact ⟨s₃, cause, later ++ more, hstuck, hcause, by simp [hmore, hreports], hbrace⟩

theorem Recovered.reports {braced : Bool} (h : Recovered eof braced s s₁ M) :
    ∃ more, s₁.reports = s.reports ++ more := by
  obtain ⟨s₃, cause, later, hstuck, _, hreports, _⟩ := h
  obtain ⟨notes, hnotes, _⟩ := hstuck.passes
  exact ⟨notes ++ cause.report (s₃.rest.headD eof) :: later, by simp [hreports, hnotes]⟩

end

/-! ## Runs -/

/-- How a run ends that began where one thing was expected and is to end where another one is. -/
def Meets (eof : Token) (braced : Bool) (M K : Expected) (s : ParseState) : Parsed α → Prop
  | .ok _ s' => Advances s s' M K ∨ Recovered eof braced s s' M
  | .fault t cause s' =>
    Stuck s s' M ∧ t = s'.rest.headD eof ∧ cause.inPassing = false ∨ Recovered eof braced s s' M
  | .outOfFuel => True

namespace Meets

variable {eof t : Token} {braced : Bool} {s s' : ParseState} {M M' N N' K : Expected} {k : Symbol}
  {ks : List Symbol} {cause : SyntaxFault} {rest : List Token}

theorem pure (a : α) : Meets eof braced K K s (Pure.pure (f := Parser) a eof s) :=
  .inl (.refl rfl (.refl rfl))

theorem outOfFuel : Meets eof braced M K s (Parser.outOfFuel (α := α) eof s) := trivial

theorem after (h : Advances s s' M N) {r : Parsed α} (h' : Meets eof braced N K s' r) :
    Meets eof braced M K s r := by
  cases r with
  | ok a s₂ => exact h'.imp h.trans h.recovered
  | fault t cause s₂ => exact h'.imp (fun hs => ⟨h.stuck hs.1, hs.2⟩) h.recovered
  | outOfFuel => trivial

/-- Behind a recovery it does not matter what was expected. -/
theorem recovered (h : Recovered eof braced s s' M) {r : Parsed α} (h' : Meets eof braced N K s' r) :
    Meets eof braced M N' s r := by
  cases r with
  | ok a s₂ =>
    refine .inr (h.later ?_)
    rcases h' with h' | h'
    · obtain ⟨notes, hnotes, _⟩ := h'.passes
      exact ⟨notes, hnotes⟩
    · exact h'.reports
  | fault t cause s₂ =>
    refine .inr (h.later ?_)
    rcases h' with h' | h'
    · obtain ⟨notes, hnotes, _⟩ := h'.1.passes
      exact ⟨notes, hnotes⟩
    · exact h'.reports
  | outOfFuel => trivial

theorem bind {x : Parser α} {f : α → Parser β} (h : Meets eof braced M N s (x eof s))
    (hf : ∀ a s', Meets eof braced N K s' (f a eof s')) :
    Meets eof braced M K s ((x >>= f) eof s) := by
  have hx : (x >>= f) eof s = Parser.bind x f eof s := rfl
  rw [hx, Parser.bind]
  cases hr : x eof s with
  | ok a s' =>
    rw [hr] at h
    rcases h with h | h
    · exact after h (hf a s')
    · exact recovered h (hf a s')
  | fault t cause s' =>
    rw [hr] at h
    exact h
  | outOfFuel => trivial

/-- The expectation may be replaced by another one that is the same as far as the next token tells. -/
theorem weaken (hsub : ∀ w, M' w → M w) (hhead : ∀ w, w.head? = s.rest.head? → M w → M' w)
    {r : Parsed α} (h : Meets eof braced M' K s r) : Meets eof braced M K s r :=
  after ⟨.refl rfl, [], rfl, hsub, hhead⟩ h

theorem congr (hiff : ∀ w, M w ↔ M' w) {r : Parsed α} (h : Meets eof braced M' K s r) :
    Meets eof braced M K s r :=
  h.weaken (fun w => (hiff w).2) (fun w _ => (hiff w).1)

/-- Where none of the symbols comes next, lists that begin with one may be left out. -/
theorem without (hend : Ended ks s.rest) (hsub : ∀ w, M' w → M w)
    (hhead : ∀ w, Ended ks w → M w → M' w) {r : Parsed α} (h : Meets eof braced M' K s r) :
    Meets eof braced M K s r :=
  h.weaken hsub fun w hw => hhead w fun t ht => hend t (hw ▸ ht)

/-- A token is taken. -/
theorem token (hs : s.rest = t :: rest) {r : Parsed α}
    (h : Meets eof braced (fun w => M (t :: w)) K { s with rest } r) : Meets eof braced M K s r :=
  after (Advances.token hs) h

/-- An opening brace is taken. -/
theorem brace (hs : s.rest = t :: rest) (ht : t.is .leftBrace = true) {r : Parsed α}
    (h : Meets eof false (fun w => M (t :: w)) K { s with rest } r) : Meets eof braced M K s r := by
  have hstep : Advances s { s with rest } M fun w => M (t :: w) := .token hs
  have hbrace : ∀ s₂, Recovered eof false { s with rest } s₂ (fun w => M (t :: w)) →
      Recovered eof braced s s₂ M := by
    rintro s₂ ⟨s₃, cause, later, hstuck, hcause, hreports, _⟩
    refine ⟨s₃, cause, later, hstep.stuck hstuck, hcause, hreports, fun _ => ?_⟩
    obtain ⟨us, hus, _⟩ := hstuck.tokens
    exact ⟨t :: us, by rw [hs, List.cons_append]; exact congrArg _ hus, t, List.mem_cons_self, ht⟩
  cases r with
  | ok a s₂ => exact h.imp hstep.trans (hbrace s₂)
  | fault t cause s₂ => exact h.imp (fun hs => ⟨hstep.stuck hs.1, hs.2⟩) (hbrace s₂)
  | outOfFuel => trivial

theorem stuck (hcause : cause.inPassing = false) (hlive : Live M)
    (hno : ∀ w, w.head? = s.rest.head? → ¬ M w) :
    Meets eof braced M K s (.fault (s.rest.headD eof) cause s : Parsed α) :=
  .inl ⟨⟨.refl rfl, [], rfl, hlive, hno⟩, rfl, hcause⟩

/-! ## Operations -/

theorem freshId : Meets eof braced K K s (Parser.freshId eof s) :=
  .inl (.refl rfl (.refl rfl))

theorem peek : Meets eof braced K K s (Parser.peek eof s) :=
  .inl (.refl rfl (.refl rfl))

theorem note (t : Token) (h : cause.inPassing = true) :
    Meets eof braced K K s (Parser.note t cause eof s) :=
  .inl (.refl rfl ⟨[cause.report t], rfl, by simp [SyntaxFault.inPassing_report, h]⟩)

theorem ite {b : Prop} [Decidable b] {x y : Parser α} (hx : b → Meets eof braced M K s (x eof s'))
    (hy : ¬ b → Meets eof braced M K s (y eof s')) :
    Meets eof braced M K s ((if b then x else y) eof s') := by
  by_cases h : b
  · rw [if_pos h]; exact hx h
  · rw [if_neg h]; exact hy h

section
variable {f : Option Token → Parser β} {g : Token → Parser β} {q : Bool → Parser β}

theorem takeAny
    (hsome : ∀ t rest, s.rest = t :: rest → ks.any t.is = true →
      Meets eof braced M K s (f (some t) eof { s with rest }))
    (hnone : Ended ks s.rest → Meets eof braced M K s (f none eof s)) :
    Meets eof braced M K s ((takeAny? ks >>= f) eof s) := by
  obtain ⟨ts, i, reports⟩ := s
  cases ts with
  | nil => exact hnone (by simp [Ended])
  | cons t rest =>
    cases ht : ks.any t.is with
    | true =>
      rw [bind_of_ok (takeAny_of_any ht)]
      exact hsome t rest rfl ht
    | false =>
      have hend : ∀ u ∈ (t :: rest).head?, ks.any u.is = false := by simpa using ht
      rw [bind_of_ok (takeAny_of_head hend)]
      exact hnone hend

/-- A token may be taken, and what is expected without it does not begin with it. -/
theorem take (hN : Avoids N [k])
    (hsome : ∀ t s', t.is k = true → Meets eof braced M K s' (f (some t) eof s'))
    (hnone : ∀ s', Meets eof braced N K s' (f none eof s')) :
    Meets eof braced (Either (Sym k M) N) K s ((take? k >>= f) eof s) := by
  refine takeAny (fun t rest hs ht => ?_) fun hend => ?_
  · have hk : t.is k = true := by simpa using ht
    refine token hs (congr (fun w => ?_) (hsome t _ hk))
    have hno : ¬ N (t :: w) := hN.not_cons ht
    simp [Either, hk, hno]
  · refine (hnone s).without hend (fun _ => .inr) fun w hw hM => ?_
    exact hM.resolve_left (not_sym_of_ended hw List.mem_cons_self)

/-- What has to come next is taken, or the parser is stuck. -/
theorem consumed {inner : Bool} (hcause : cause.inPassing = false) (hlive : Live M)
    (hok : ∀ t rest, s.rest = t :: rest → t.is k = true →
      Meets eof inner M K { s with rest } (g t eof { s with rest }))
    (hinner : ∀ {t rest} {r : Parsed β}, s.rest = t :: rest → t.is k = true →
      Meets eof inner (fun w => Sym k M (t :: w)) K { s with rest } r →
        Meets eof braced (Sym k M) K s r) :
    Meets eof braced (Sym k M) K s ((Parser.consume k cause >>= g) eof s) := by
  obtain ⟨ts, i, reports⟩ := s
  cases ts with
  | nil =>
    refine stuck hcause hlive.sym fun w hw => ?_
    rw [List.head?_eq_none_iff.1 hw]
    exact sym_nil
  | cons t rest =>
    cases ht : t.is k with
    | true =>
      rw [bind_of_ok (consume_of_is ht)]
      exact hinner rfl ht (congr (fun w => by simp [ht]) (hok t rest rfl ht))
    | false =>
      have hfault : (Parser.consume k cause >>= g) eof ⟨t :: rest, i, reports⟩ =
          .fault t cause ⟨t :: rest, i, reports⟩ := by
        simp [Bind.bind, Parser.bind, Parser.consume, ht]
      rw [hfault]
      refine stuck hcause hlive.sym fun w hw hsym => ?_
      obtain ⟨u, v, rfl, hu, _⟩ := exists_of_sym hsym
      obtain rfl : u = t := by simpa using hw
      simp [ht] at hu

theorem consume (hcause : cause.inPassing = false) (hlive : Live M)
    (hok : ∀ t s', t.is k = true → Meets eof braced M K s' (g t eof s')) :
    Meets eof braced (Sym k M) K s ((Parser.consume k cause >>= g) eof s) :=
  consumed hcause hlive (fun t _ _ ht => hok t _ ht) fun hs _ h => token hs h

theorem consumeBrace (hcause : cause.inPassing = false) (hlive : Live M)
    (hok : ∀ t s', Meets eof false M K s' (g t eof s')) :
    Meets eof braced (Sym .leftBrace M) K s ((Parser.consume .leftBrace cause >>= g) eof s) :=
  consumed hcause hlive (fun t _ _ _ => hok t _) fun hs ht h => brace hs ht h

theorem check (htrue : (∃ t ∈ s.rest.head?, t.is k = true) → Meets eof braced M K s (q true eof s))
    (hfalse : Ended [k] s.rest → Meets eof braced M K s (q false eof s)) :
    Meets eof braced M K s ((Parser.check k >>= q) eof s) := by
  obtain ⟨ts, i, reports⟩ := s
  cases ts with
  | nil => exact hfalse (by simp [Ended])
  | cons t rest =>
    have hx : (Parser.check k >>= q) eof ⟨t :: rest, i, reports⟩ =
        q (t.is k) eof ⟨t :: rest, i, reports⟩ := rfl
    rw [hx]
    cases ht : t.is k with
    | true => exact htrue ⟨t, rfl, ht⟩
    | false => exact hfalse (by simp [Ended, ht])

theorem atEnd (hend : s.rest = [] → Meets eof braced M K s (q true eof s))
    (hmore : s.rest ≠ [] → Meets eof braced M K s (q false eof s)) :
    Meets eof braced M K s ((Parser.atEnd >>= q) eof s) := by
  obtain ⟨ts, i, reports⟩ := s
  cases ts with
  | nil => exact hend rfl
  | cons t rest => exact hmore (List.cons_ne_nil _ _)

/-- One of two things is expected, and a token tells which. -/
theorem checkOr (hM : ∀ w, M w → ∃ t ∈ w.head?, t.is k = true) (hN : Avoids N [k])
    (htrue : Meets eof braced M K s (q true eof s)) (hfalse : Meets eof braced N K s (q false eof s)) :
    Meets eof braced (Either M N) K s ((Parser.check k >>= q) eof s) := by
  refine check (fun hk => ?_) fun hend => ?_
  · refine htrue.weaken (fun _ => .inl) fun w hw hE => ?_
    exact hE.resolve_right (hN.not_of_head List.mem_cons_self hk w hw)
  · refine hfalse.without hend (fun _ => .inr) fun w hw hE => hE.resolve_left fun hm => ?_
    obtain ⟨t, ht, hk⟩ := hM w hm
    simpa [hk] using hw t ht

end

/-- A fault is reported and made good. -/
theorem recover {x : Parser α} (repair : List Token → List Token)
    (h : Meets eof braced M K s (x eof s)) :
    Meets eof false M K s (Parser.recover x repair eof s) := by
  have hweak : ∀ {s'}, Recovered eof braced s s' M → Recovered eof false s s' M := by
    rintro s' ⟨s₁, cause, later, hstuck, hcause, hreports, _⟩
    exact ⟨s₁, cause, later, hstuck, hcause, hreports, by simp⟩
  unfold Parser.recover
  cases hr : x eof s with
  | ok a s' =>
    rw [hr] at h
    exact h.imp_right hweak
  | fault t cause s' =>
    rw [hr] at h
    rcases h with ⟨hstuck, rfl, hcause⟩ | h
    · exact .inr ⟨s', cause, [], hstuck, hcause, rfl, by simp⟩
    · exact .inr ((hweak h).later ⟨[cause.report t], rfl⟩)
  | outOfFuel => trivial

end Meets

end Parser

end Lox
