import Lox.Proofs.Parser.Steps

/-!
# What the parser accepts, the grammar derives

For each parsing function: the tokens it takes derive the tree it gives, unless it reports something;
the marks of the tree are fresh and differ from one another; and it does not run out of fuel if it
starts with sixteen steps for each token and a few more. The induction is on the fuel, all functions
together.
-/

namespace Lox.Parser

open Grammar

variable {eof : Token} {s s₁ s₂ : ParseState} {n k : Nat}

/-! ## Levels -/

/-- The precedence level of a binary level. -/
def levelOf : Nat → Level
  | 0 => .disjunction
  | 1 => .conjunction
  | 2 => .equality
  | 3 => .comparison
  | 4 => .term
  | 5 => .factor
  | _ => .unary

theorem tighter_levelOf (hk : k < binaryLevels) : (levelOf k).tighter = levelOf (k + 1) := by
  match k, hk with
  | 0, _ => rfl
  | 1, _ => rfl
  | 2, _ => rfl
  | 3, _ => rfl
  | 4, _ => rfl
  | 5, _ => rfl

theorem levelOf_ne_primary (k : Nat) : levelOf k ≠ .primary := by
  unfold levelOf
  split <;> simp

theorem derives_join (hk : k < binaryLevels) {op : Token} {ts us : List Token} {a b : Expr NodeId}
    (hop : (operators k).any op.is = true) (ha : Derives (levelOf k) ts a)
    (hb : Derives (levelOf (k + 1)) us b) : Derives (levelOf k) (ts ++ op :: us) (joinAt k a op b) := by
  rw [← tighter_levelOf hk] at hb
  match k, hk with
  | 0, _ => exact .logical hop ha hb
  | 1, _ => exact .logical hop ha hb
  | 2, _ => exact .binary hop ha hb
  | 3, _ => exact .binary hop ha hb
  | 4, _ => exact .binary hop ha hb
  | 5, _ => exact .binary hop ha hb

theorem marks_joinAt (a b : Expr NodeId) (op : Token) : (joinAt k a op b).marks = a.marks ++ b.marks := by
  unfold joinAt
  split <;> rfl

/-! ## Expressions -/

/-- An expression was read, and at least one token with it. -/
def Sound (l : Level) (s : ParseState) (e : Expr NodeId) (s' : ParseState) : Prop :=
  Reads s s' (fun ts => Derives l ts e ∧ Fresh s.nextId s'.nextId e.marks) ∧
    s'.rest.length < s.rest.length

/-- An expression was made longer. -/
def Continues (l : Level) (s : ParseState) (left e : Expr NodeId) (s' : ParseState) : Prop :=
  Reads s s' fun ts => (∀ us, Derives l us left → Derives l (us ++ ts) e) ∧
    ∃ ks, e.marks = left.marks ++ ks ∧ Fresh s.nextId s'.nextId ks

/-- The tokens are arguments, after `count` others. -/
def AreArguments (count : Nat) (es : List (Expr NodeId)) (ts : List Token) : Prop :=
  ∃ args : List (List Token × Expr NodeId), es = args.map Prod.snd ∧
    (∀ p ∈ args, Derives .assignment p.1 p.2) ∧ count + args.length ≤ 255 ∧
    Commas (args.map Prod.fst) ts ∧ args ≠ []

/-- Arguments were read, after `count` others. -/
def Listed (count : Nat) (s : ParseState) (es : List (Expr NodeId)) (s' : ParseState) : Prop :=
  Reads s s' fun ts => AreArguments count es ts ∧ Fresh s.nextId s'.nextId (Expr.marksAll es)

/-- What holds of every parsing function for expressions with `n` steps of fuel. -/
structure ExprSound (eof : Token) (n : Nat) : Prop where
  expression (s : ParseState) :
    Ends (expression n eof s) (Sound .assignment s) (Stops s) (n < 16 * s.rest.length + 10)
  binary (s : ParseState) {k : Nat} : k ≤ binaryLevels →
    Ends (binary n k eof s) (Sound (levelOf k) s) (Stops s) (n < 16 * s.rest.length + (9 - k))
  binaryRest (s : ParseState) {k : Nat} (left : Expr NodeId) : k < binaryLevels →
    Ends (binaryRest n k left eof s) (Continues (levelOf k) s left) (Stops s)
      (n < 16 * s.rest.length + 1)
  unary (s : ParseState) :
    Ends (unary n eof s) (Sound .unary s) (Stops s) (n < 16 * s.rest.length + 2)
  callRest (s : ParseState) (callee : Expr NodeId) :
    Ends (callRest n callee eof s) (Continues .call s callee) (Stops s)
      (n < 16 * s.rest.length + 1)
  arguments (s : ParseState) (count : Nat) :
    Ends (arguments n count eof s) (Listed count s) (Stops s) (n < 16 * s.rest.length + 11)
  primary (s : ParseState) :
    Ends (primary n eof s) (Sound .primary s) (Stops s) (n < 16 * s.rest.length + 1)

namespace ExprSound

/-- A parsed expression followed by more tokens of the same phrase. -/
theorem binary_succ (ih : ExprSound eof n) (hk : k ≤ binaryLevels) :
    Ends (Parser.binary (n + 1) k eof s) (Sound (levelOf k) s) (Stops s)
      (n + 1 < 16 * s.rest.length + (9 - k)) := by
  rw [Parser.binary]
  by_cases h : k < binaryLevels
  · rw [if_pos h]
    refine (ih.binary s (Nat.succ_le_of_lt h)).bind ?_ (fun _ hs => hs) ?_
    · rintro left s₁ ⟨hread, hlt⟩
      refine (ih.binaryRest s₁ left h).mono ?_ (fun _ hs => hread.then_stops hs) ?_
      · intro e s₂ hcont
        refine ⟨hread.andThen hcont ?_, Nat.lt_of_le_of_lt hcont.length_le hlt⟩
        rintro us vs ⟨hd, hf⟩ ⟨hext, ks, hks, hf'⟩
        rw [← tighter_levelOf h] at hd
        refine ⟨hext us (.tighter (levelOf_ne_primary k) hd), ?_⟩
        rw [hks]
        exact hf.append hf'
      · unfold binaryLevels at h
        omega
    · unfold binaryLevels at h
      omega
  · rw [if_neg h]
    have hk6 : k = 6 := Nat.le_antisymm hk (Nat.le_of_not_lt h)
    subst hk6
    refine (ih.unary s).mono (fun _ _ hs => hs) (fun _ hs => hs) ?_
    omega

theorem binaryRest_succ (ih : ExprSound eof n) (left : Expr NodeId) (hk : k < binaryLevels) :
    Ends (Parser.binaryRest (n + 1) k left eof s) (Continues (levelOf k) s left) (Stops s)
      (n + 1 < 16 * s.rest.length + 1) := by
  rw [Parser.binaryRest]
  refine Ends.takeAny ?_ ?_
  · intro op rest hs hop
    have hlen : s.rest.length = rest.length + 1 := by rw [hs]; rfl
    have htok := Reads.token hs
    refine (ih.binary { s with rest } (Nat.succ_le_of_lt hk)).bind ?_
      (fun _ hstop => htok.then_stops hstop) ?_
    · rintro right s₁ ⟨hread, hlt⟩
      refine (ih.binaryRest s₁ (joinAt k left op right) hk).mono ?_ ?_ ?_
      · intro e s₂ hcont
        refine (htok.andThen hread (P := fun ts => ∃ us, ts = op :: us ∧
            Derives (levelOf (k + 1)) us right ∧ Fresh s.nextId s₁.nextId right.marks) ?_).andThen
          hcont ?_
        · rintro _ us rfl hus
          exact ⟨us, rfl, hus⟩
        · rintro _ vs ⟨us, rfl, hd, hf⟩ ⟨hext, ks, hks, hf'⟩
          refine ⟨?_, right.marks ++ ks, ?_, hf.append hf'⟩
          · intro ts hts
            have := hext (ts ++ op :: us) (derives_join hk hop hts hd)
            rwa [List.append_assoc] at this
          · rw [hks, marks_joinAt, List.append_assoc]
      · exact fun _ hstop => (htok.then_stops hread.stops).then_stops hstop
      · simp only at hlt
        omega
    · simp only
      omega
  · intro _
    exact Reads.refl ⟨fun us hus => by rwa [List.append_nil], [], by simp, .nil (Nat.le_refl _)⟩

theorem unary_succ (ih : ExprSound eof n) :
    Ends (Parser.unary (n + 1) eof s) (Sound .unary s) (Stops s) (n + 1 < 16 * s.rest.length + 2) := by
  rw [Parser.unary]
  refine Ends.takeAny ?_ ?_
  · intro op rest hs hop
    have hlen : s.rest.length = rest.length + 1 := by rw [hs]; rfl
    have htok := Reads.token hs
    refine (ih.unary { s with rest }).bind ?_ (fun _ hstop => htok.then_stops hstop) ?_
    · rintro e s₁ ⟨hread, hlt⟩
      refine ⟨htok.andThen hread ?_, ?_⟩
      · rintro _ us rfl ⟨hd, hf⟩
        exact ⟨.unary (by simpa using hop) hd, hf⟩
      · simp only at hlt
        omega
    · simp only
      omega
  · intro _
    refine (ih.primary s).bind ?_ (fun _ hstop => hstop) (fun hd => by omega)
    rintro callee s₁ ⟨hread, hlt⟩
    refine (ih.callRest s₁ callee).mono ?_ (fun _ hstop => hread.then_stops hstop)
      (fun hd => by omega)
    intro e s₂ hcont
    refine ⟨hread.andThen hcont ?_, Nat.lt_of_le_of_lt hcont.length_le hlt⟩
    rintro us vs ⟨hd, hf⟩ ⟨hext, ks, hks, hf'⟩
    refine ⟨.tighter (by simp) (hext us (.tighter (by simp) hd)), ?_⟩
    rw [hks]
    exact hf.append hf'

/-- The arguments of a call, none if the parenthesis closes at once. -/
theorem callRest_arguments (ih : ExprSound eof n) (callee : Expr NodeId) (es : List (Expr NodeId))
    {opening : Token} {rest : List Token} (hs : s.rest = opening :: rest)
    (ho : opening.is .leftParen = true)
    (hs₁ : Reads { s with rest } s₁ fun ts => ∃ args : List (List Token × Expr NodeId),
      es = args.map Prod.snd ∧ (∀ p ∈ args, Derives .assignment p.1 p.2) ∧ args.length ≤ 255 ∧
      Commas (args.map Prod.fst) ts ∧ Fresh s.nextId s₁.nextId (Expr.marksAll es))
    (hd : n + 1 < 16 * s₁.rest.length + 17 → D) :
    Ends ((do
        let paren ← consume .rightParen .argumentsEnd
        Parser.callRest n (.call callee paren es) : Parser (Expr NodeId)) eof s₁)
      (Continues .call s callee) (Stops s) D := by
  have htok := Reads.token hs
  refine Ends.consume ?_ (htok.then_stops hs₁.stops)
  intro closing rest' hs' hc
  have htok' := Reads.token hs'
  have hlen : s₁.rest.length = rest'.length + 1 := by rw [hs']; rfl
  refine (ih.callRest { s₁ with rest := rest' } (.call callee closing es)).mono ?_ ?_ ?_
  · intro e s₂ hcont
    refine ((htok.trans hs₁).trans htok').andThen hcont ?_
    rintro _ vs ⟨_, _, rfl, ⟨_, us, rfl, rfl, args, rfl, hargs, hlen, hcommas, hf⟩, rfl⟩
      ⟨hext, ks, hks, hf'⟩
    refine ⟨?_, Expr.marksAll (args.map Prod.snd) ++ ks, ?_, hf.append hf'⟩
    · intro ts hts
      have := hext _ (.call hts ho hargs hlen hcommas hc)
      simpa using this
    · rw [hks, Expr.marks, List.append_assoc]
  · exact fun _ hstop => ((htok.trans hs₁).trans htok').then_stops hstop
  · intro hn
    apply hd
    simp only at hn
    omega

theorem callRest_succ (ih : ExprSound eof n) (callee : Expr NodeId) :
    Ends (Parser.callRest (n + 1) callee eof s) (Continues .call s callee) (Stops s)
      (n + 1 < 16 * s.rest.length + 1) := by
  rw [Parser.callRest]
  refine Ends.takeAny ?_ ?_
  · intro t rest hs ht
    have hlen : s.rest.length = rest.length + 1 := by rw [hs]; rfl
    have htok := Reads.token hs
    by_cases ho : t.is .leftParen = true
    · simp only [ho, ↓reduceIte]
      refine Ends.check ?_ ?_
      · intro _ _ _ _
        refine ih.callRest_arguments callee [] hs ho
          (.refl ⟨[], rfl, by simp, by simp, .none, .nil (Nat.le_refl _)⟩) ?_
        simp only
        omega
      · intro _
        refine (ih.arguments { s with rest } 0).bind ?_ (fun _ hstop => htok.then_stops hstop) ?_
        · intro es s₁ hlist
          have hle := Reads.length_le hlist
          refine ih.callRest_arguments callee _ hs ho (hlist.mono ?_) ?_
          · rintro ts ⟨⟨args, hes, hargs, hcount, hcommas, _⟩, hf⟩
            exact ⟨args, hes, hargs, by omega, hcommas, hf⟩
          · intro hn
            simp only at hle
            omega
        · simp only
          omega
    · simp only [ho, Bool.false_eq_true, ↓reduceIte]
      have hdot : t.is .dot = true := by simpa [ho] using ht
      refine Ends.consume ?_ htok.stops
      intro x rest' hs' hx
      have htok' := Reads.token hs'
      have hlen' : rest.length = rest'.length + 1 := by
        simp only at hs'
        rw [hs']
        rfl
      refine (ih.callRest { s with rest := rest' } (.get callee x)).mono ?_ ?_ ?_
      · intro e s₂ hcont
        refine (htok.trans htok').andThen hcont ?_
        rintro _ vs ⟨_, _, rfl, rfl, rfl⟩ ⟨hext, ks, hks, hf⟩
        refine ⟨?_, ks, by rw [hks, Expr.marks], hf⟩
        intro ts hts
        have := hext _ (.get hts hdot hx)
        simpa using this
      · exact fun _ hstop => (htok.trans htok').then_stops hstop
      · simp only
        omega
  · intro _
    exact Reads.refl ⟨fun us hus => by rwa [List.append_nil], [], by simp, .nil (Nat.le_refl _)⟩

/-- One argument, and the others if a comma follows. -/
theorem arguments_first (ih : ExprSound eof n) (count : Nat) :
    Ends ((do
        let first ← Parser.expression n
        match ← take? .comma with
        | some _ => do return first :: (← Parser.arguments n (count + 1))
        | none => pure [first] : Parser (List (Expr NodeId))) eof s)
      (fun es s' => Reads s s' fun ts => count < 255 →
        AreArguments count es ts ∧ Fresh s.nextId s'.nextId (Expr.marksAll es))
      (Stops s) (n + 1 < 16 * s.rest.length + 11) := by
  refine (ih.expression s).bind ?_ (fun _ hstop => hstop) (fun hd => by omega)
  rintro first s₁ ⟨hread, hlt⟩
  refine Ends.take ?_ ?_
  · intro comma rest hs hcomma
    have htok := Reads.token hs
    have hlen : s₁.rest.length = rest.length + 1 := by rw [hs]; rfl
    refine (ih.arguments { s₁ with rest } (count + 1)).bind ?_
      (fun _ hstop => (hread.trans htok).then_stops hstop) ?_
    · intro es s₂ hlist
      refine (hread.trans htok).andThen hlist ?_
      rintro _ vs ⟨us, _, rfl, ⟨hd, hf⟩, rfl⟩ ⟨⟨args, rfl, hargs, hcount, hcommas, hne⟩, hf'⟩ _
      refine ⟨⟨(us, first) :: args, rfl, ?_, ?_, ?_, by simp⟩, hf.append hf'⟩
      · intro p hp
        rcases List.mem_cons.1 hp with rfl | hp
        · exact hd
        · exact hargs p hp
      · rw [List.length_cons]
        omega
      · cases args with
        | nil => exact absurd rfl hne
        | cons q args =>
          rw [List.append_assoc]
          exact .more hcomma hcommas
    · simp only
      omega
  · intro _
    refine Ends.returned (hread.mono ?_)
    rintro ts ⟨hd, hf⟩ hc
    refine ⟨⟨[(ts, first)], rfl, by simpa using hd, hc, .one, by simp⟩, ?_⟩
    simpa [Expr.marksAll] using hf

theorem arguments_succ (ih : ExprSound eof n) (count : Nat) :
    Ends (Parser.arguments (n + 1) count eof s) (Listed count s) (Stops s)
      (n + 1 < 16 * s.rest.length + 11) := by
  rw [Parser.arguments]
  by_cases hc : maxArguments ≤ count
  · rw [if_pos hc]
    -- one argument too many is reported, so nothing is claimed of the tokens
    have hnote := Reads.noted (s := s) (Q := fun _ => False) (s.rest.headD eof) .tooManyArguments
    refine (ih.arguments_first count).mono (fun es s' hread => ?_)
      (fun _ hstop => hnote.then_stops hstop) (fun hd => hd)
    exact hnote.andThen hread fun _ _ hf _ => hf.elim
  · rw [if_neg hc]
    exact (ih.arguments_first count).mono
      (fun es s' hread => hread.mono fun ts h => h (Nat.lt_of_not_le hc)) (fun _ hstop => hstop)
      (fun hd => hd)

/-- A primary expression that is one token. -/
theorem sound_of_token {t : Token} {rest : List Token} {e : Expr NodeId} {i : NodeId}
    (hs : s.rest = t :: rest) (hi : s.nextId ≤ i) (hd : Derives .primary [t] e)
    (hf : Fresh s.nextId i e.marks) :
    Sound .primary s e { s with rest, nextId := i } := by
  refine ⟨⟨hi, .refl _, [t], hs, fun _ => ⟨hd, hf⟩⟩, ?_⟩
  rw [hs]
  exact Nat.lt_succ_self _

theorem primary_succ (ih : ExprSound eof n) (heof : eof.is .eof = true) :
    Ends (Parser.primary (n + 1) eof s) (Sound .primary s) (Stops s)
      (n + 1 < 16 * s.rest.length + 1) := by
  rw [Parser.primary]
  obtain ⟨ts, i, reports⟩ := s
  cases ts with
  | nil =>
    have hk := kind_eq_of_is heof
    have hfail : Stops ⟨[], i, reports⟩ ⟨[], i, reports⟩ := .refl trivial
    simpa [Bind.bind, Parser.bind, peek, hk, Ends, fail] using hfail
  | cons t rest =>
    refine Ends.bind (x := peek) (P := fun a s' => a = t ∧ s' = ⟨t :: rest, i, reports⟩)
      (F := fun _ => False) (D := False) ⟨rfl, rfl⟩ ?_ (fun _ h => h.elim) (fun h => h.elim)
    rintro a _ ⟨ha, rfl⟩
    subst ha
    have hlit : ∀ v, literal? a.kind = some v →
        Sound .primary ⟨a :: rest, i, reports⟩ (.literal v) ⟨rest, i, reports⟩ :=
      fun v hv => sound_of_token rfl (Nat.le_refl i) (.literal hv) (.nil (Nat.le_refl i))
    have htok : Reads ⟨a :: rest, i, reports⟩ ⟨rest, i, reports⟩ (· = [a]) := Reads.token rfl
    have hfail : Stops ⟨a :: rest, i, reports⟩ ⟨a :: rest, i, reports⟩ := .refl trivial
    cases hk : a.kind with
    | number v => exact hlit _ (by rw [hk]; rfl)
    | string v => exact hlit _ (by rw [hk]; rfl)
    | symbol sy =>
      have his : a.is sy = true := by simp [Token.is, hk]
      cases sy with
      | falseKw => exact hlit _ (by rw [hk]; rfl)
      | trueKw => exact hlit _ (by rw [hk]; rfl)
      | nilKw => exact hlit _ (by rw [hk]; rfl)
      | superKw =>
        refine Ends.advance (Ends.consume ?_ htok.stops)
        intro dot rest' hs' hdot
        simp only [List.tail_cons] at hs'
        subst hs'
        have htok' := htok.trans (Reads.token (s := ⟨dot :: rest', i, reports⟩) rfl)
        refine Ends.consume ?_ htok'.stops
        intro x rest'' hs'' hx
        simp only at hs''
        subst hs''
        refine Ends.freshId (Ends.returned ⟨⟨Nat.le_succ i, .refl _, [a, dot, x], rfl, ?_⟩, ?_⟩)
        · intro _
          exact ⟨.superRef i his hdot hx, .one i⟩
        · simp only [List.length_cons]
          omega
      | thisKw => exact sound_of_token rfl (Nat.le_succ i) (.thisRef i his) (.one i)
      | identifier => exact sound_of_token rfl (Nat.le_succ i) (.variable i his) (.one i)
      | leftParen =>
        refine Ends.advance ((ih.expression ⟨rest, i, reports⟩).bind ?_
          (fun _ hstop => htok.then_stops hstop) ?_)
        · rintro inner s₁ ⟨hread, hlt⟩
          refine Ends.consume ?_ (htok.then_stops hread.stops)
          intro closing rest' hs' hc
          refine Ends.returned ⟨(htok.trans hread).andThen (Reads.token hs') ?_, ?_⟩
          · rintro _ _ ⟨_, us, rfl, rfl, hd, hf⟩ rfl
            exact ⟨.grouping his hd hc, hf⟩
          · rw [hs'] at hlt
            simp only [List.length_cons] at hlt ⊢
            omega
        · simp only [List.length_cons]
          omega
      | _ => exact hfail

theorem derives_variable {l : Level} {ts : List Token} {k : ν} {x : Token}
    (h : Derives l ts (.variable k x)) : ts = [x] ∧ x.is .identifier = true := by
  generalize he : Expr.variable k x = e at h
  induction h with
  | tighter _ _ ih => exact ih he
  | «variable» _ hx =>
    cases he
    exact ⟨rfl, hx⟩
  | _ => cases he

theorem derives_get {l : Level} {ts : List Token} {o : Expr ν} {x : Token}
    (h : Derives l ts (.get o x)) : ∃ us dot, ts = us ++ [dot, x] ∧ Derives .call us o ∧
      dot.is .dot = true ∧ x.is .identifier = true := by
  generalize he : Expr.get o x = e at h
  induction h with
  | tighter _ _ ih => exact ih he
  | get ho hdot hx =>
    cases he
    exact ⟨_, _, rfl, ho, hdot, hx⟩
  | _ => cases he

/-- An assignment to what was read before its `=`. -/
theorem assignTo_ends (s' : ParseState) {target value : Expr NodeId} {equal : Token}
    (heq : equal.is .equal = true)
    (hread : Reads s s₁ fun ts => ∃ us vs, ts = us ++ equal :: vs ∧
      (Derives .disjunction us target ∧ Fresh s.nextId s'.nextId target.marks) ∧
      Derives .assignment vs value ∧ Fresh s'.nextId s₁.nextId value.marks)
    (hlt : s₁.rest.length < s.rest.length) :
    Ends (assignTo target equal value eof s₁) (Sound .assignment s) (Stops s) D := by
  unfold assignTo
  split
  · rename_i k x
    refine Ends.freshId (Ends.returned ⟨hread.andThen (Reads.fresh (Q := (· = [])) rfl) ?_, hlt⟩)
    rintro _ _ ⟨us, vs, rfl, ⟨hd, hf⟩, hd', hf'⟩ rfl
    obtain ⟨rfl, hx⟩ := derives_variable hd
    refine ⟨by simpa using Derives.assign s₁.nextId hx heq hd', ?_⟩
    exact (Fresh.nil hf.le).append (hf'.append (.one s₁.nextId))
  · rename_i o x
    refine Ends.returned ⟨hread.mono ?_, hlt⟩
    rintro _ ⟨us, vs, rfl, ⟨hd, hf⟩, hd', hf'⟩
    obtain ⟨ws, dot, rfl, ho, hdot, hx⟩ := derives_get hd
    exact ⟨by simpa using Derives.set ho hdot hx heq hd', hf.append hf'⟩
  · have hnote := Reads.noted (s := s₁) (Q := fun _ => False) equal .assignmentTarget
    exact ⟨hread.andThen hnote fun _ _ _ hf => hf.elim, hlt⟩

theorem expression_succ (ih : ExprSound eof n) :
    Ends (Parser.expression (n + 1) eof s) (Sound .assignment s) (Stops s)
      (n + 1 < 16 * s.rest.length + 10) := by
  rw [Parser.expression]
  refine (ih.binary s (Nat.zero_le _)).bind ?_ (fun _ hstop => hstop) (fun hd => by omega)
  rintro target s₁ ⟨hread, hlt⟩
  refine Ends.take ?_ ?_
  · intro equal rest hs heq
    have htok := Reads.token hs
    have hlen : s₁.rest.length = rest.length + 1 := by rw [hs]; rfl
    refine (ih.expression { s₁ with rest }).bind ?_
      (fun _ hstop => (hread.trans htok).then_stops hstop) ?_
    · rintro value s₂ ⟨hread', hlt'⟩
      refine assignTo_ends s₁ heq ((hread.trans htok).andThen hread' ?_) ?_
      · rintro _ vs ⟨us, _, rfl, hd, rfl⟩ hd'
        exact ⟨us, vs, by simp, hd, hd'⟩
      · simp only at hlt'
        omega
    · simp only
      omega
  · intro _
    refine Ends.returned ⟨hread.mono ?_, hlt⟩
    rintro ts ⟨hd, hf⟩
    exact ⟨.tighter (by simp) hd, hf⟩

end ExprSound

/-- Every parsing function for expressions is sound, whatever the fuel. -/
theorem exprSound (heof : eof.is .eof = true) (n : Nat) : ExprSound eof n := by
  induction n with
  | zero =>
    constructor <;> intros
    · rw [expression]
      exact Nat.succ_pos _
    · rename_i hk
      rw [binary]
      unfold binaryLevels at hk
      show 0 < _
      omega
    · rw [binaryRest]
      exact Nat.succ_pos _
    · rw [unary]
      exact Nat.succ_pos _
    · rw [callRest]
      exact Nat.succ_pos _
    · rw [arguments]
      exact Nat.succ_pos _
    · rw [primary]
      exact Nat.succ_pos _
  | succ n ih =>
    exact {
      expression := fun _ => ih.expression_succ
      binary := fun _ _ hk => ih.binary_succ hk
      binaryRest := fun _ _ left hk => ih.binaryRest_succ left hk
      unary := fun _ => ih.unary_succ
      callRest := fun _ callee => ih.callRest_succ callee
      arguments := fun _ count => ih.arguments_succ count
      primary := fun _ => ih.primary_succ heof }

end Lox.Parser
