import Lox.Proofs.Parser.Expectation
import Lox.Proofs.Parser.Loose

/-!
# Where an expression goes wrong

Each parser of expressions meets its expectation: with a phrase of its level expected and something else
behind it, it ends where only the latter is expected, or it is stuck at the first token with which no
such list goes on. For this the lists of each level are taken apart from the left, the way they are read
(`then_assignment` to `then_call`).
-/

namespace Lox.Parser

open Grammar (Level Commas literal?)

variable {K J P : Expected} {l : Level} {w ts rest : List Token} {ks : List Symbol}

/-! ## First tokens -/

/-- An expression has a first token, and it is one that starts its level. -/
theorem starts_of_loose (h : Loose.Derives l ts) : ∃ t us, ts = t :: us ∧ starts l t := by
  induction h with
  | tighter _ _ ih =>
    obtain ⟨t, us, rfl, ht⟩ := ih
    exact ⟨t, us, rfl, starts_of_tighter ht⟩
  | assign _ _ _ ih _ =>
    obtain ⟨t, us, rfl, ht⟩ := ih
    exact ⟨t, _, rfl, starts_assignment ht⟩
  | operator _ _ _ ih _ =>
    obtain ⟨t, us, rfl, ht⟩ := ih
    exact ⟨t, _, rfl, ht⟩
  | unary hop =>
    refine ⟨_, _, rfl, ?_⟩
    rcases hop with hop | hop
    · rw [starts, kind_eq_of_is hop]
      exact .inr ⟨by simp, by simp, .inl rfl⟩
    · rw [starts, kind_eq_of_is hop]
      exact .inr ⟨by simp, by simp, .inr rfl⟩
  | call _ _ _ _ _ ih =>
    obtain ⟨t, us, rfl, ht⟩ := ih
    exact ⟨t, _, rfl, ht⟩
  | get _ _ _ ih =>
    obtain ⟨t, us, rfl, ht⟩ := ih
    exact ⟨t, _, rfl, ht⟩
  | @literal t hv =>
    refine ⟨t, [], rfl, ?_⟩
    unfold starts
    cases hk : t.kind with
    | symbol a =>
      rw [hk] at hv
      cases a <;> first | exact .inl (by decide) | cases hv
    | _ => trivial
  | superRef hk => exact ⟨_, _, rfl, starts_of_primary hk (by decide) _⟩
  | thisRef hk => exact ⟨_, _, rfl, starts_of_primary hk (by decide) _⟩
  | «variable» hx => exact ⟨_, _, rfl, starts_of_primary hx (by decide) _⟩
  | grouping ho => exact ⟨_, _, rfl, starts_of_primary ho (by decide) _⟩

/-- A symbol that starts no expression does not come before one. -/
theorem avoids_expression
    (hks : ∀ a ∈ ks, a ∉ primaryStarts ∧ (a ≠ .bang ∧ a ≠ .minus ∨ l = .call ∨ l = .primary)) :
    Avoids (Then (Loose.Derives l) K) ks := by
  rintro _ ⟨us, vs, rfl, hus, _⟩
  obtain ⟨t, us, rfl, ht⟩ := starts_of_loose hus
  exact .of_not_is fun a ha => not_is_of_starts ht (hks a ha).1 (hks a ha).2

/-- There is an expression of every level. -/
theorem live_expression : ∀ l, Live (Loose.Derives l) := by
  have hx : (Token.ident "" 1).is .identifier = true := rfl
  have hprimary : Live (Loose.Derives .primary) := ⟨_, .variable hx⟩
  have hup : ∀ {l : Level}, l ≠ .primary → Live (Loose.Derives l.tighter) → Live (Loose.Derives l) :=
    fun hl h => h.imp fun _ => .tighter hl
  have hcall := hup (l := .call) (by decide) hprimary
  have hunary := hup (l := .unary) (by decide) hcall
  have hfactor := hup (l := .factor) (by decide) hunary
  have hterm := hup (l := .term) (by decide) hfactor
  have hcomparison := hup (l := .comparison) (by decide) hterm
  have hequality := hup (l := .equality) (by decide) hcomparison
  have hconjunction := hup (l := .conjunction) (by decide) hequality
  have hdisjunction := hup (l := .disjunction) (by decide) hconjunction
  intro l
  cases l with
  | assignment => exact hup (by decide) hdisjunction
  | _ => assumption

/-! ## Expressions from the left -/

/-- What may follow the left side of an assignment, or an expression that is none. -/
abbrev AfterTarget (K : Expected) : Expected := Either (Sym .equal (Then (Loose.Derives .assignment) K)) K

/-- The operators of a level and their right operands. -/
inductive Operands (l : Level) (K : Expected) : Expected
  | stop {w : List Token} : K w → Operands l K w
  | more {op : Token} {ts w : List Token} : (l.connectives ++ l.operators).any op.is →
      Loose.Derives l.tighter ts → Operands l K w → Operands l K (op :: ts ++ w)

/-- Phrases divided by commas, one at least. -/
def Listing (P J : Expected) : Expected := fun w =>
  ∃ args us vs, args ≠ [] ∧ (∀ arg ∈ args, P arg) ∧ Commas args us ∧ J vs ∧ w = us ++ vs

/-- Calls and property accesses. -/
inductive Calls (K : Expected) : Expected
  | stop {w : List Token} : K w → Calls K w
  | call {opening closing : Token} {us w : List Token} {args : List (List Token)} :
      opening.is .leftParen → (∀ arg ∈ args, Loose.Derives .assignment arg) → Commas args us →
      closing.is .rightParen → Calls K w → Calls K (opening :: us ++ closing :: w)
  | get {dot x : Token} {w : List Token} : dot.is .dot → x.is .identifier → Calls K w →
      Calls K (dot :: x :: w)

theorem then_assignment : Then (Loose.Derives .assignment) K w ↔
    Then (Loose.Derives .disjunction) (AfterTarget K) w := by
  constructor
  · rintro ⟨us, vs, rfl, hus, hvs⟩
    cases hus with
    | tighter _ h => exact ⟨us, vs, rfl, h, .inr hvs⟩
    | @assign equal ts us h heq h' =>
      exact ⟨ts, equal :: us ++ vs, by simp, h, .inl ⟨heq, us, vs, rfl, h', hvs⟩⟩
    | operator hop => cases hop
  · rintro ⟨us, vs, rfl, hus, hvs | hvs⟩
    · obtain ⟨equal, v, rfl, heq, ts, vs, rfl, hts, hvs⟩ := exists_of_sym hvs
      exact ⟨us ++ equal :: ts, vs, by simp, .assign hus heq hts, hvs⟩
    · exact ⟨us, vs, rfl, .tighter (by decide) hus, hvs⟩

/-- At the binary levels there are only binary operators. -/
theorem then_binary {k : Nat} (hk : k < binaryLevels) :
    Then (Loose.Derives (levelOf k)) K w ↔
      Then (Loose.Derives (levelOf (k + 1))) (Operands (levelOf k) K) w := by
  have htighter := tighter_levelOf hk
  generalize levelOf (k + 1) = r at htighter ⊢
  subst htighter
  have hlevel : levelOf k ≠ .assignment ∧ levelOf k ≠ .unary ∧ levelOf k ≠ .call ∧ levelOf k ≠ .primary := by
    revert k
    decide
  generalize levelOf k = l at hlevel ⊢
  constructor
  · rintro ⟨us, vs, rfl, hus, hvs⟩
    have hvs : Operands l K vs := .stop hvs
    generalize vs = v at hvs
    induction hus generalizing v with
    | @tighter l ts _ h _ => exact ⟨ts, v, rfl, h, hvs⟩
    | @operator l op ts us hop _ h ih _ =>
      rw [List.append_assoc]
      exact ih hlevel _ (.more hop h hvs)
    | _ => simp at hlevel
  · rintro ⟨us, vs, rfl, hus, hvs⟩
    have hus : Loose.Derives l us := .tighter hlevel.2.2.2 hus
    generalize us = u at hus
    induction hvs generalizing u with
    | @stop w hw => exact ⟨u, w, rfl, hus, hw⟩
    | @more op ts w hop h _ ih =>
      have := ih (u ++ op :: ts) (.operator hop hus h)
      simpa using this

theorem then_unary : Then (Loose.Derives .unary) K w ↔
    (∃ op v, w = op :: v ∧ (op.is .bang ∨ op.is .minus) ∧ Then (Loose.Derives .unary) K v) ∨
      Then (Loose.Derives .call) K w := by
  constructor
  · rintro ⟨us, vs, rfl, hus, hvs⟩
    cases hus with
    | tighter _ h => exact .inr ⟨us, vs, rfl, h, hvs⟩
    | operator hop => cases hop
    | @unary op ts hop h => exact .inl ⟨op, ts ++ vs, rfl, hop, ts, vs, rfl, h, hvs⟩
  · rintro (⟨op, v, rfl, hop, us, vs, rfl, hus, hvs⟩ | ⟨us, vs, rfl, hus, hvs⟩)
    · exact ⟨op :: us, vs, rfl, .unary hop hus, hvs⟩
    · exact ⟨us, vs, rfl, .tighter (by decide) hus, hvs⟩

theorem then_call : Then (Loose.Derives .call) K w ↔ Then (Loose.Derives .primary) (Calls K) w := by
  constructor
  · rintro ⟨us, vs, rfl, hus, hvs⟩
    have hvs : Calls K vs := .stop hvs
    generalize vs = v at hvs
    generalize hl : Level.call = l at hus
    induction hus generalizing v with
    | @tighter l ts _ h _ =>
      subst hl
      exact ⟨ts, v, rfl, h, hvs⟩
    | @call opening closing ts us args _ ho hargs hcommas hc ih =>
      have := ih _ (.call ho hargs hcommas hc hvs) hl
      simpa using this
    | @get dot x ts _ hdot hx ih =>
      have := ih _ (.get hdot hx hvs) hl
      simpa using this
    | operator hop =>
      subst hl
      cases hop
    | _ => cases hl
  · rintro ⟨us, vs, rfl, hus, hvs⟩
    have hus : Loose.Derives .call us := .tighter (by decide) hus
    generalize us = u at hus
    induction hvs generalizing u with
    | @stop w hw => exact ⟨u, w, rfl, hus, hw⟩
    | @call opening closing us w args ho hargs hcommas hc _ ih =>
      have := ih (u ++ opening :: us ++ [closing]) (.call hus ho hargs hcommas hc)
      simpa using this
    | @get dot x w hdot hx _ ih =>
      have := ih (u ++ [dot, x]) (.get hus hdot hx)
      simpa using this

theorem listing_iff : Listing P J w ↔ Then P (Either (Sym .comma (Listing P J)) J) w := by
  constructor
  · rintro ⟨args, us, vs, hne, hargs, hcommas, hvs, rfl⟩
    cases hcommas with
    | none => exact absurd rfl hne
    | one => exact ⟨us, vs, rfl, hargs us (by simp), .inr hvs⟩
    | @more ts us vs' rest comma hcomma hcommas =>
      refine ⟨ts, comma :: vs' ++ vs, by simp, hargs ts (by simp), .inl ⟨hcomma, ?_⟩⟩
      exact ⟨us :: rest, vs', vs, by simp, fun arg harg => hargs arg (by simp_all), hcommas, hvs, rfl⟩
  · rintro ⟨us, vs, rfl, hus, hvs | hvs⟩
    · obtain ⟨comma, v, rfl, hcomma, args, ts, vs, hne, hargs, hcommas, hJ, rfl⟩ := exists_of_sym hvs
      obtain ⟨arg, rest, rfl⟩ := List.exists_cons_of_ne_nil hne
      exact ⟨us :: arg :: rest, us ++ comma :: ts, vs, by simp, List.forall_mem_cons.2 ⟨hus, hargs⟩,
        .more hcomma hcommas, hJ, by simp⟩
    · exact ⟨[us], us, vs, by simp, by simpa using hus, .one, hvs, rfl⟩

/-- What may follow a token that starts a primary expression. -/
def AfterPrimary (K : Expected) (t : Token) : Expected :=
  match t.kind with
  | .number _ => K
  | .string _ => K
  | .symbol .falseKw => K
  | .symbol .trueKw => K
  | .symbol .nilKw => K
  | .symbol .superKw => Sym .dot (Sym .identifier K)
  | .symbol .thisKw => K
  | .symbol .identifier => K
  | .symbol .leftParen => Then (Loose.Derives .assignment) (Sym .rightParen K)
  | _ => fun _ => False

theorem then_primary_cons {t : Token} :
    Then (Loose.Derives .primary) K (t :: w) ↔ AfterPrimary K t w := by
  constructor
  · rintro ⟨us, vs, hw, hus, hvs⟩
    unfold AfterPrimary
    cases hus with
    | literal hv =>
      obtain ⟨rfl, rfl⟩ : t = _ ∧ w = vs := by simpa using hw
      cases hk : t.kind with
      | symbol a =>
        rw [hk] at hv
        cases a <;> first | exact hvs | cases hv
      | _ => exact hvs
    | superRef hk hdot hx =>
      obtain ⟨rfl, rfl⟩ : t = _ ∧ w = _ := by simpa using hw
      rw [kind_eq_of_is hk]
      exact ⟨hdot, hx, hvs⟩
    | thisRef hk =>
      obtain ⟨rfl, rfl⟩ : t = _ ∧ w = vs := by simpa using hw
      rw [kind_eq_of_is hk]
      exact hvs
    | «variable» hx =>
      obtain ⟨rfl, rfl⟩ : t = _ ∧ w = vs := by simpa using hw
      rw [kind_eq_of_is hx]
      exact hvs
    | grouping ho h hc =>
      obtain ⟨rfl, rfl⟩ : t = _ ∧ w = _ := by simpa using hw
      rw [kind_eq_of_is ho]
      exact ⟨_, _, rfl, h, hc, hvs⟩
    | operator hop => cases hop
    | tighter hl => exact absurd rfl hl
  · intro h
    have hone : Loose.Derives .primary [t] → K w → Then (Loose.Derives .primary) K (t :: w) :=
      fun ht hw => ⟨[t], w, rfl, ht, hw⟩
    unfold AfterPrimary at h
    cases hk : t.kind with
    | number x => exact hone (.literal (by rw [hk]; rfl)) (by simpa [hk] using h)
    | string text => exact hone (.literal (by rw [hk]; rfl)) (by simpa [hk] using h)
    | symbol a =>
      have hta : t.is a = true := by simp [Token.is, hk]
      rw [hk] at h
      cases a
      case falseKw | trueKw | nilKw => exact hone (.literal (by rw [hk]; rfl)) h
      case thisKw => exact hone (.thisRef hta) h
      case identifier => exact hone (.variable hta) h
      case superKw =>
        obtain ⟨dot, v, rfl, hdot, hv⟩ := exists_of_sym h
        obtain ⟨x, v, rfl, hx, hv⟩ := exists_of_sym hv
        exact ⟨[t, dot, x], v, rfl, .superRef hta hdot hx, hv⟩
      case leftParen =>
        obtain ⟨us, vs, rfl, hus, hvs⟩ := h
        obtain ⟨closing, v, rfl, hc, hv⟩ := exists_of_sym hvs
        exact ⟨t :: us ++ [closing], v, by simp, .grouping hta hus hc, hv⟩
      all_goals exact h.elim

/-! ## The parsers -/

/-- What holds of the parsers of expressions with some fuel. -/
structure ExprMeets (eof : Token) (n : Nat) : Prop where
  expression {K : Expected} {braced : Bool} (s : ParseState) : Live K →
    Avoids K (followers .assignment) →
    Meets eof braced (Then (Loose.Derives .assignment) K) K s (expression n eof s)
  binary {K : Expected} {braced : Bool} (s : ParseState) {k : Nat} : k ≤ binaryLevels → Live K →
    Avoids K (followers (levelOf k)) →
    Meets eof braced (Then (Loose.Derives (levelOf k)) K) K s (binary n k eof s)
  binaryRest {K : Expected} {braced : Bool} (s : ParseState) {k : Nat} (left : Expr NodeId) :
    k < binaryLevels → Live K → Avoids K (followers (levelOf k)) →
    Meets eof braced (Operands (levelOf k) K) K s (binaryRest n k left eof s)
  unary {K : Expected} {braced : Bool} (s : ParseState) : Live K → Avoids K (followers .unary) →
    Meets eof braced (Then (Loose.Derives .unary) K) K s (unary n eof s)
  callRest {K : Expected} {braced : Bool} (s : ParseState) (callee : Expr NodeId) : Live K →
    Avoids K (followers .call) → Meets eof braced (Calls K) K s (callRest n callee eof s)
  arguments {J : Expected} {braced : Bool} (s : ParseState) (count : Nat) : Live J →
    Avoids J (.comma :: followers .assignment) →
    Meets eof braced (Listing (Loose.Derives .assignment) J) J s (arguments n count eof s)
  primary {K : Expected} {braced : Bool} (s : ParseState) : Live K →
    Meets eof braced (Then (Loose.Derives .primary) K) K s (primary n eof s)

section
variable {eof : Token} {braced : Bool} {n k : Nat} {s : ParseState}

theorem assignTo_meets (target value : Expr NodeId) (equals : Token) :
    Meets eof braced K K s (assignTo target equals value eof s) := by
  cases target with
  | «variable» k x => exact .bind .freshId fun _ _ => .pure _
  | get o x => exact .pure _
  | _ => exact .bind (.note equals rfl) fun _ _ => .pure _

theorem expression_meets (ih : ExprMeets eof n) (hK : Live K) (hend : Avoids K (followers .assignment)) :
    Meets eof braced (Then (Loose.Derives .assignment) K) K s (expression (n + 1) eof s) := by
  rw [expression]
  have hafter : Avoids (AfterTarget K) (followers .disjunction) :=
    .either (.sym (by decide)) (hend.mono (by decide))
  refine .congr (fun _ => then_assignment) (.bind (ih.binary s (Nat.zero_le _) hK.right hafter) ?_)
  intro target s₁
  refine .take (hend.mono (by decide)) (fun equals s₂ _ => ?_) fun s₂ => .pure _
  exact .bind (ih.expression s₂ hK hend) fun value s₃ => assignTo_meets target value equals

theorem operators_levelOf : ∀ k < binaryLevels,
    (levelOf k).connectives ++ (levelOf k).operators = operators k := by
  decide

theorem operators_followers : ∀ k < binaryLevels, ∀ a ∈ operators k, a ∈ followers (levelOf k) := by
  decide

theorem followers_tighter : ∀ k < binaryLevels, ∀ a ∈ followers (levelOf (k + 1)),
    a ∈ followers (levelOf k) := by
  decide

theorem avoids_operands (hk : k < binaryLevels) (hend : Avoids K (followers (levelOf k))) :
    Avoids (Operands (levelOf k) K) (followers (levelOf (k + 1))) := by
  intro w hw
  cases hw with
  | stop hw => exact (hend w hw).mono (followers_tighter k hk)
  | more hop =>
    rw [operators_levelOf k hk] at hop
    exact (ended_operator hk hop).mono (followers_bound k hk)

theorem binary_meets (ih : ExprMeets eof n) (hk : k ≤ binaryLevels) (hK : Live K)
    (hend : Avoids K (followers (levelOf k))) :
    Meets eof braced (Then (Loose.Derives (levelOf k)) K) K s (binary (n + 1) k eof s) := by
  rw [binary]
  refine .ite (fun hlt => ?_) fun hge => ?_
  · have hlive : Live (Operands (levelOf k) K) := hK.imp fun _ => .stop
    refine .congr (fun _ => then_binary hlt) (.bind (ih.binary s hlt hlive (avoids_operands hlt hend)) ?_)
    exact fun left s₁ => ih.binaryRest s₁ left hlt hK hend
  · obtain rfl : k = 6 := Nat.le_antisymm hk (Nat.le_of_not_lt hge)
    exact ih.unary s hK hend

/-- Behind an operator of a level there is an operand of the next one. -/
theorem operands_cons {op : Token} (hk : k < binaryLevels) (hop : (operators k).any op.is = true)
    (hend : Avoids K (followers (levelOf k))) : Operands (levelOf k) K (op :: w) ↔
      Then (Loose.Derives (levelOf (k + 1))) (Operands (levelOf k) K) w := by
  rw [← tighter_levelOf hk]
  constructor
  · intro hw
    generalize hv : op :: w = v at hw
    cases hw with
    | stop hw => exact absurd (hv ▸ hw) ((hend.mono (operators_followers k hk)).not_cons hop)
    | more _ hts hrest =>
      obtain ⟨rfl, rfl⟩ : op = _ ∧ w = _ := by simpa using hv
      exact ⟨_, _, rfl, hts, hrest⟩
  · rintro ⟨us, vs, rfl, hus, hvs⟩
    exact .more (by rw [operators_levelOf k hk]; exact hop) hus hvs

theorem binaryRest_meets (ih : ExprMeets eof n) (left : Expr NodeId) (hk : k < binaryLevels)
    (hK : Live K) (hend : Avoids K (followers (levelOf k))) :
    Meets eof braced (Operands (levelOf k) K) K s (binaryRest (n + 1) k left eof s) := by
  rw [binaryRest]
  refine .takeAny (fun op rest hs hop => .token hs ?_) fun hno => ?_
  · have hlive : Live (Operands (levelOf k) K) := hK.imp fun _ => .stop
    refine .congr (fun _ => operands_cons hk hop hend) (.bind (ih.binary _ hk hlive (avoids_operands hk hend)) ?_)
    exact fun right s₁ => ih.binaryRest s₁ _ hk hK hend
  · refine (Meets.pure left).without hno (fun _ => .stop) fun w hw hM => ?_
    cases hM with
    | stop h => exact h
    | more hop =>
      rw [operators_levelOf k hk] at hop
      have hno := hw _ rfl
      simp [hop] at hno

theorem unary_meets (ih : ExprMeets eof n) (hK : Live K) (hend : Avoids K (followers .unary)) :
    Meets eof braced (Then (Loose.Derives .unary) K) K s (unary (n + 1) eof s) := by
  have hcall : Avoids (Then (Loose.Derives .call) K) [.bang, .minus] := avoids_expression (by decide)
  rw [unary]
  refine .takeAny (fun op rest hs hop => .token hs (.congr (fun w => ?_) (.bind (ih.unary _ hK hend) ?_)))
    fun hno => ?_
  · rw [then_unary]
    constructor
    · rintro (⟨op', v, hv, _, h⟩ | h)
      · obtain ⟨rfl, rfl⟩ : op = op' ∧ w = v := by simpa using hv
        exact h
      · exact absurd h (hcall.not_cons hop)
    · exact fun h => .inl ⟨op, w, rfl, by simpa using hop, h⟩
  · exact fun right s₁ => .pure _
  · have hlive : Live (Calls K) := hK.imp fun _ => .stop
    have hprimary : Meets eof braced (Then (Loose.Derives .call) K) K s
        ((do callRest n (← primary n) : Parser (Expr NodeId)) eof s) :=
      .congr (fun _ => then_call) (.bind (ih.primary s hlive) fun callee s₁ => ih.callRest s₁ callee hK hend)
    refine hprimary.without hno (fun w h => then_unary.2 (.inr h)) fun w hw hM => ?_
    rcases then_unary.1 hM with ⟨op, v, rfl, hop, _⟩ | h
    · have hno := hw op rfl
      rcases hop with hop | hop <;> simp [hop] at hno
    · exact h

theorem avoids_listing (hks : ∀ a ∈ ks, a ∉ primaryStarts ∧ a ≠ .bang ∧ a ≠ .minus) :
    Avoids (Listing (Loose.Derives .assignment) J) ks := by
  intro w hw
  exact avoids_expression (fun a ha => ⟨(hks a ha).1, .inl (hks a ha).2⟩) w (listing_iff.1 hw)

/-- Behind an opening parenthesis there are the arguments, if any, and a closing one. -/
theorem calls_cons_paren {t : Token} (ht : t.is .leftParen = true) (hend : Avoids K (followers .call)) :
    Calls K (t :: w) ↔ Either (Sym .rightParen (Calls K))
      (Listing (Loose.Derives .assignment) (Sym .rightParen (Calls K))) w := by
  constructor
  · intro hw
    generalize hv : t :: w = v at hw
    cases hw with
    | stop hw =>
      exact absurd (hv ▸ hw) (hend.not_cons (by simp [followers, ht]))
    | @call opening closing us v args _ hargs hcommas hc hrest =>
      obtain ⟨rfl, rfl⟩ : t = _ ∧ w = us ++ closing :: v := by simpa using hv
      cases hne : args with
      | nil =>
        subst hne
        cases hcommas
        exact .inl ⟨hc, hrest⟩
      | cons arg args =>
        subst hne
        have hvs : Sym .rightParen (Calls K) (closing :: v) := ⟨hc, hrest⟩
        exact .inr ⟨_, us, _, by simp, hargs, hcommas, hvs, rfl⟩
    | get hdot =>
      obtain ⟨rfl, _⟩ : t = _ ∧ w = _ := by simpa using hv
      simp [is_eq_decide ht] at hdot
  · rintro (hw | ⟨args, us, vs, _, hargs, hcommas, hvs, rfl⟩)
    · obtain ⟨closing, v, rfl, hc, hv⟩ := exists_of_sym hw
      have hnone : ∀ arg ∈ ([] : List (List Token)), Loose.Derives .assignment arg := by simp
      exact .call ht hnone .none hc hv
    · obtain ⟨closing, v, rfl, hc, hv⟩ := exists_of_sym hvs
      exact .call ht hargs hcommas hc hv

theorem calls_cons_dot {t : Token} (ht : t.is .dot = true) (hend : Avoids K (followers .call)) :
    Calls K (t :: w) ↔ Sym .identifier (Calls K) w := by
  constructor
  · intro hw
    generalize hv : t :: w = v at hw
    cases hw with
    | stop hw =>
      exact absurd (hv ▸ hw) (hend.not_cons (by simp [followers, ht]))
    | call ho =>
      obtain ⟨rfl, _⟩ : t = _ ∧ w = _ := by simpa using hv
      simp [is_eq_decide ht] at ho
    | get _ hx hrest =>
      obtain ⟨rfl, rfl⟩ : t = _ ∧ w = _ := by simpa using hv
      exact ⟨hx, hrest⟩
  · intro hw
    obtain ⟨x, v, rfl, hx, hv⟩ := exists_of_sym hw
    exact .get ht hx hv

theorem callRest_meets (ih : ExprMeets eof n) (callee : Expr NodeId) (hK : Live K)
    (hend : Avoids K (followers .call)) :
    Meets eof braced (Calls K) K s (callRest (n + 1) callee eof s) := by
  have hlive : Live (Calls K) := hK.imp fun _ => .stop
  have hcall : ∀ args s', Meets eof braced (Sym .rightParen (Calls K)) K s' ((do
      let paren ← consume .rightParen .argumentsEnd
      callRest n (.call callee paren args) : Parser (Expr NodeId)) eof s') :=
    fun args s' => .consume rfl hlive fun paren s'' _ => ih.callRest s'' _ hK hend
  rw [callRest]
  refine .takeAny (fun t rest hs ht => .token hs (.ite (fun hparen => ?_) fun hother => ?_)) fun hno => ?_
  · refine .congr (fun _ => calls_cons_paren hparen hend) (.checkOr (fun _ => head_of_sym)
      (avoids_listing (by decide)) ?_ ?_)
    · exact .bind (.pure []) hcall
    · exact .bind (ih.arguments _ 0 hlive.sym (.sym (by decide))) hcall
  · have hdot : t.is .dot = true := by simpa [hother] using ht
    refine .congr (fun _ => calls_cons_dot hdot hend) (.consume rfl hlive fun name s' _ => ?_)
    exact ih.callRest s' _ hK hend
  · refine (Meets.pure callee).without hno (fun _ => .stop) fun w hw hM => ?_
    cases hM with
    | stop h => exact h
    | call ho =>
      have hno := hw _ rfl
      simp [ho] at hno
    | get hdot =>
      have hno := hw _ rfl
      simp [hdot] at hno

theorem arguments_meets (ih : ExprMeets eof n) (count : Nat) (hJ : Live J)
    (hend : Avoids J (.comma :: followers .assignment)) :
    Meets eof braced (Listing (Loose.Derives .assignment) J) J s (arguments (n + 1) count eof s) := by
  have hafter : Avoids (Either (Sym .comma (Listing (Loose.Derives .assignment) J)) J)
      (followers .assignment) := .either (.sym (by decide)) (hend.mono (by simp +contextual))
  rw [arguments]
  refine .ite (fun _ => .bind .peek fun t s₁ => .bind (.note t rfl) fun _ s₂ => ?_) fun _ => ?_
  all_goals
    refine .congr (fun _ => listing_iff) (.bind (ih.expression _ hJ.right hafter) fun first s₃ => ?_)
    refine .take (hend.mono (by simp)) (fun comma s₄ _ => ?_) fun s₄ => .pure _
    exact .bind (ih.arguments s₄ _ hJ hend) fun others s₅ => .pure _

theorem primary_meets (heof : eof.is .eof = true) (ih : ExprMeets eof n) (hK : Live K) :
    Meets eof braced (Then (Loose.Derives .primary) K) K s (primary (n + 1) eof s) := by
  have hlive : Live (Then (Loose.Derives .primary) K) := (live_expression _).then hK
  obtain ⟨ts, i, reports⟩ := s
  rw [primary]
  cases ts with
  | nil =>
    have hpeek : peek eof ⟨[], i, reports⟩ = .ok eof ⟨[], i, reports⟩ := rfl
    rw [bind_of_ok hpeek, kind_eq_of_is heof]
    refine Meets.stuck (s := ⟨[], i, reports⟩) rfl hlive fun w hw => ?_
    obtain rfl : w = [] := by simpa using hw
    rintro ⟨us, vs, hnil, hus, _⟩
    obtain ⟨t, us, rfl, _⟩ := starts_of_loose hus
    cases hnil
  | cons t rest =>
    have hpeek : peek eof ⟨t :: rest, i, reports⟩ = .ok t ⟨t :: rest, i, reports⟩ := rfl
    rw [bind_of_ok hpeek]
    have htaken : ∀ {r : Parsed (Expr NodeId)}, Meets eof braced (AfterPrimary K t) K ⟨rest, i, reports⟩ r →
        Meets eof braced (Then (Loose.Derives .primary) K) K ⟨t :: rest, i, reports⟩ r :=
      fun h => .token rfl (.congr (fun _ => then_primary_cons) h)
    have hfail : AfterPrimary K t = (fun _ => False) → Meets eof braced (Then (Loose.Derives .primary) K) K
        ⟨t :: rest, i, reports⟩ (.fault t .expression ⟨t :: rest, i, reports⟩ : Parsed (Expr NodeId)) := by
      intro hno
      refine Meets.stuck (s := ⟨t :: rest, i, reports⟩) rfl hlive fun w hw hM => ?_
      obtain ⟨v, rfl⟩ : ∃ v, w = t :: v := by
        cases w with
        | nil => simp at hw
        | cons u v => exact ⟨v, by simpa using hw⟩
      rw [then_primary_cons, hno] at hM
      exact hM
    unfold AfterPrimary at htaken hfail
    cases hk : t.kind with
    | number x =>
      simp only [hk] at htaken
      exact htaken (.pure _)
    | string text =>
      simp only [hk] at htaken
      exact htaken (.pure _)
    | symbol a =>
      simp only [hk] at htaken hfail
      cases a
      case superKw =>
        refine htaken (.consume rfl hK.sym fun dot s₁ _ => .consume rfl hK fun x s₂ _ => ?_)
        exact .bind .freshId fun k s₃ => .pure _
      case thisKw => exact htaken (.bind .freshId fun k s₁ => .pure _)
      case identifier => exact htaken (.bind .freshId fun k s₁ => .pure _)
      case leftParen =>
        refine htaken (.bind (ih.expression _ hK.sym (.sym (by decide))) fun inner s₁ => ?_)
        exact .consume rfl hK fun closing s₂ _ => .pure _
      case falseKw | trueKw | nilKw => exact htaken (.pure _)
      all_goals exact hfail rfl

end

theorem exprMeets {eof : Token} (heof : eof.is .eof = true) (n : Nat) : ExprMeets eof n := by
  induction n with
  | zero =>
    constructor <;> intros
    · rw [Parser.expression]; exact .outOfFuel
    · rw [Parser.binary]; exact .outOfFuel
    · rw [Parser.binaryRest]; exact .outOfFuel
    · rw [Parser.unary]; exact .outOfFuel
    · rw [Parser.callRest]; exact .outOfFuel
    · rw [Parser.arguments]; exact .outOfFuel
    · rw [Parser.primary]; exact .outOfFuel
  | succ n ih =>
    exact ⟨fun _ => expression_meets ih, fun _ => binary_meets ih, fun _ => binaryRest_meets ih,
      fun _ => unary_meets ih, fun _ => callRest_meets ih, fun _ => arguments_meets ih,
      fun _ => primary_meets heof ih⟩

end Lox.Parser
