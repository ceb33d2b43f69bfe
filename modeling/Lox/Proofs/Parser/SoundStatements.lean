import Lox.Proofs.Parser.SoundExpressions

/-!
# What the parser accepts, the grammar derives: statements

Soundness of the parsing functions for clauses, statements and declarations. A fault inside a
declaration is made good and reported, so it makes no claim false; a statement that could still take
an `else` is not followed by one, because it would have taken it.
-/

namespace Lox.Parser

open Grammar

variable {eof : Token} {s s₁ s₂ : ParseState} {n k : Nat}

/-! ## Clauses -/

/-- The tokens are parameters, after `count` others. -/
def AreParameters (count : Nat) (params ts : List Token) : Prop :=
  (∀ p ∈ params, p.is .identifier) ∧ count + params.length ≤ 255 ∧
    Commas (params.map ([·])) ts ∧ params ≠ []

/-- One parameter, and the others if a comma follows. -/
theorem parameters_first {count : Nat}
    (ih : ∀ s, Ends (parameters n (count + 1) eof s)
      (fun ps s' => Reads s s' (AreParameters (count + 1) ps)) (Stops s) (n < 16 * s.rest.length + 1)) :
    Ends ((do
        let first ← consume .identifier .parameterName
        match ← take? .comma with
        | some _ => do return first :: (← parameters n (count + 1))
        | none => pure [first] : Parser (List Token)) eof s)
      (fun ps s' => Reads s s' fun ts => count < 255 → AreParameters count ps ts) (Stops s)
      (n + 1 < 16 * s.rest.length + 1) := by
  refine Ends.consume ?_ (.refl trivial)
  intro first rest hs hfirst
  have htok := Reads.token hs
  have hlen : s.rest.length = rest.length + 1 := by rw [hs]; rfl
  refine Ends.take ?_ ?_
  · intro comma rest' hs' hcomma
    simp only at hs'
    subst hs'
    have htok' := htok.trans (Reads.token (s := { s with rest := comma :: rest' }) rfl)
    refine (ih { s with rest := rest' }).bind ?_ (fun _ hstop => htok'.then_stops hstop) ?_
    · intro ps s₁ hread
      refine htok'.andThen hread ?_
      rintro _ vs ⟨_, _, rfl, rfl, rfl⟩ ⟨hps, hcount, hcommas, hne⟩ _
      refine ⟨?_, ?_, ?_, by simp⟩
      · intro p hp
        rcases List.mem_cons.1 hp with rfl | hp
        · exact hfirst
        · exact hps p hp
      · rw [List.length_cons]
        omega
      · cases ps with
        | nil => exact absurd rfl hne
        | cons q ps => exact Commas.more hcomma hcommas
    · simp only [List.length_cons] at hlen ⊢
      omega
  · intro _
    refine Ends.returned (htok.mono ?_)
    rintro _ rfl hc
    exact ⟨by simpa using hfirst, hc, .one, by simp⟩

theorem parameters_ends (n count : Nat) (s : ParseState) :
    Ends (parameters n count eof s) (fun ps s' => Reads s s' (AreParameters count ps)) (Stops s)
      (n < 16 * s.rest.length + 1) := by
  induction n generalizing count s with
  | zero =>
    rw [parameters]
    exact Nat.succ_pos _
  | succ n ih =>
    rw [parameters]
    by_cases hc : maxArguments ≤ count
    · rw [if_pos hc]
      have hnote := Reads.noted (s := s) (Q := fun _ => False) (s.rest.headD eof) .tooManyParameters
      refine (parameters_first (ih (count + 1))).mono (fun ps s' hread => ?_)
        (fun _ hstop => hnote.then_stops hstop) (fun hd => hd)
      exact hnote.andThen hread fun _ _ hf _ => hf.elim
    · rw [if_neg hc]
      exact (parameters_first (ih (count + 1))).mono
        (fun ps s' hread => hread.mono fun ts h => h (Nat.lt_of_not_le hc)) (fun _ hstop => hstop)
        (fun hd => hd)

section
variable (heof : eof.is .eof = true)
include heof

/-- The end of a variable declaration. -/
theorem varDeclaration_ends (n : Nat) (s : ParseState) :
    Ends (varDeclaration n eof s)
      (fun t s' => Reads s s' (fun ts => (∀ keyword, keyword.is .varKw → VarPhrase (keyword :: ts) t) ∧
          Fresh s.nextId s'.nextId t.marks) ∧ s'.rest.length < s.rest.length)
      (Stops s) (n < 16 * s.rest.length + 10) := by
  rw [varDeclaration]
  refine Ends.consume ?_ (.refl trivial)
  intro x rest hs hx
  have htok := Reads.token hs
  have hlen : s.rest.length = rest.length + 1 := by rw [hs]; rfl
  refine Ends.take ?_ ?_
  · intro equal rest' hs' heq
    simp only at hs'
    subst hs'
    have htok' := htok.trans (Reads.token (s := { s with rest := equal :: rest' }) rfl)
    refine ((exprSound heof n).expression { s with rest := rest' }).bind ?_
      (fun _ hstop => htok'.then_stops hstop) ?_
    · rintro e s₁ ⟨hread, hlt⟩
      refine Ends.consume ?_ (htok'.then_stops hread.stops)
      intro semicolon rest'' hs'' hsemi
      refine Ends.returned ⟨(htok'.trans hread).andThen (Reads.token hs'') ?_, ?_⟩
      · rintro _ _ ⟨_, us, rfl, ⟨_, _, rfl, rfl, rfl⟩, hd, hf⟩ rfl
        exact ⟨fun keyword hk => by simpa using VarPhrase.valued hk hx heq hd hsemi, hf⟩
      · rw [hs''] at hlt
        simp only [List.length_cons] at hlt hlen ⊢
        omega
    · simp only [List.length_cons] at hlen ⊢
      omega
  · intro _
    refine Ends.consume ?_ htok.stops
    intro semicolon rest' hs' hsemi
    simp only at hs'
    subst hs'
    have htok' := htok.trans (Reads.token (s := { s with rest := semicolon :: rest' }) rfl)
    refine Ends.returned ⟨htok'.mono ?_, ?_⟩
    · rintro _ ⟨_, _, rfl, rfl, rfl⟩
      exact ⟨fun keyword hk => .bare hk hx hsemi, .nil (Nat.le_refl _)⟩
    · simp only [List.length_cons] at hlen ⊢
      omega

theorem expressionStatement_ends (n : Nat) (s : ParseState) :
    Ends (expressionStatement n eof s)
      (fun t s' => Reads s s' (fun ts => ExprPhrase ts t ∧ Fresh s.nextId s'.nextId t.marks) ∧
        s'.rest.length < s.rest.length)
      (Stops s) (n < 16 * s.rest.length + 10) := by
  rw [expressionStatement]
  refine ((exprSound heof n).expression s).bind ?_ (fun _ hstop => hstop) (fun hd => hd)
  rintro e s₁ ⟨hread, hlt⟩
  refine Ends.consume ?_ hread.stops
  intro semicolon rest hs hsemi
  refine Ends.returned ⟨hread.andThen (Reads.token hs) ?_, ?_⟩
  · rintro us _ ⟨hd, hf⟩ rfl
    exact ⟨.mk hd hsemi, hf⟩
  · rw [hs] at hlt
    simp only [List.length_cons] at hlt ⊢
    omega

theorem expressionUnless_ends (n : Nat) (k : Symbol) (s : ParseState) :
    Ends (expressionUnless n k eof s)
      (fun e s' => Reads s s' fun ts => Optional ts e ∧ Fresh s.nextId s'.nextId (Expr.marksOpt e))
      (Stops s) (n < 16 * s.rest.length + 10) := by
  rw [expressionUnless]
  refine Ends.check ?_ ?_
  · intro _ _ _ _
    exact Reads.refl ⟨.none, .nil (Nat.le_refl _)⟩
  · intro _
    refine ((exprSound heof n).expression s).bind ?_ (fun _ hstop => hstop) (fun hd => hd)
    rintro e s₁ ⟨hread, _⟩
    refine Ends.returned (hread.mono ?_)
    rintro ts ⟨hd, hf⟩
    exact ⟨.some hd, hf⟩

theorem condition_ends (n : Nat) (opening closing : SyntaxFault) (s : ParseState) :
    Ends (condition n opening closing eof s)
      (fun c s' => Reads s s' fun ts => ∃ left us right, ts = left :: us ++ [right] ∧
        left.is .leftParen ∧ Derives .assignment us c ∧ right.is .rightParen ∧
        Fresh s.nextId s'.nextId c.marks)
      (Stops s) (n < 16 * s.rest.length + 10) := by
  rw [condition]
  refine Ends.consume ?_ (.refl trivial)
  intro left rest hs hleft
  have htok := Reads.token hs
  have hlen : s.rest.length = rest.length + 1 := by rw [hs]; rfl
  refine ((exprSound heof n).expression { s with rest }).bind ?_
    (fun _ hstop => htok.then_stops hstop) ?_
  · rintro c s₁ ⟨hread, _⟩
    refine Ends.consume ?_ (htok.then_stops hread.stops)
    intro right rest' hs' hright
    refine Ends.returned ((htok.trans hread).andThen (Reads.token hs') ?_)
    rintro _ _ ⟨_, us, rfl, rfl, hd, hf⟩ rfl
    exact ⟨left, us, right, by simp, hleft, hd, hright, hf⟩
  · simp only
    omega

/-- The condition and the increment of a `for` loop. -/
theorem forClauses_rest (n : Nat) (s₁ : ParseState) {i : Option (Stmt NodeId)} {opening : Token}
    (hopen : opening.is .leftParen = true)
    (hread : Reads s s₁ fun ts => ∃ us, ts = opening :: us ∧ ForInit us i ∧
      Fresh s.nextId s₁.nextId (Stmt.marksOpt i))
    (hd : n < 16 * s₁.rest.length + 10 → D) :
    Ends ((do
        let condition ← expressionUnless n .semicolon
        let _ ← consume .semicolon .loopCondition
        let increment ← expressionUnless n .rightParen
        let _ ← consume .rightParen .forClausesEnd
        return (i, condition, increment) :
          Parser (Option (Stmt NodeId) × Option (Expr NodeId) × Option (Expr NodeId))) eof s₁)
      (fun r s' => Reads s s' fun ts => ∃ opening us vs semicolon ws closing,
        ts = opening :: us ++ vs ++ semicolon :: ws ++ [closing] ∧ opening.is .leftParen ∧
        ForInit us r.1 ∧ Optional vs r.2.1 ∧ semicolon.is .semicolon ∧ Optional ws r.2.2 ∧
        closing.is .rightParen ∧ Fresh s.nextId s'.nextId
          (Stmt.marksOpt r.1 ++ Expr.marksOpt r.2.1 ++ Expr.marksOpt r.2.2))
      (Stops s) D := by
  refine (expressionUnless_ends heof n .semicolon s₁).bind ?_
    (fun _ hstop => hread.then_stops hstop) hd
  intro c s₂ hcond
  have hle := hcond.length_le
  refine Ends.consume ?_ (hread.then_stops hcond.stops)
  intro semicolon rest hs hsemi
  have hread₂ := (hread.trans hcond).trans (Reads.token hs)
  have hlen : s₂.rest.length = rest.length + 1 := by rw [hs]; rfl
  refine (expressionUnless_ends heof n .rightParen { s₂ with rest }).bind ?_
    (fun _ hstop => hread₂.then_stops hstop) ?_
  · intro u s₃ hinc
    refine Ends.consume ?_ (hread₂.then_stops hinc.stops)
    intro closing rest' hs' hclose
    refine Ends.returned ((hread₂.trans hinc).andThen (Reads.token hs') ?_)
    rintro _ _ ⟨_, ws, rfl, ⟨_, _, rfl, ⟨_, vs, rfl, ⟨us, rfl, hi, hf⟩, hc, hf'⟩, rfl⟩, hu, hf''⟩
      rfl
    exact ⟨opening, us, vs, semicolon, ws, closing, by simp, hopen, hi, hc, hsemi, hu, hclose,
      (hf.append hf').append hf''⟩
  · intro hn
    apply hd
    simp only at hn
    omega

theorem forClauses_ends (n : Nat) (s : ParseState) :
    Ends (forClauses n eof s)
      (fun r s' => Reads s s' fun ts => ∃ opening us vs semicolon ws closing,
        ts = opening :: us ++ vs ++ semicolon :: ws ++ [closing] ∧ opening.is .leftParen ∧
        ForInit us r.1 ∧ Optional vs r.2.1 ∧ semicolon.is .semicolon ∧ Optional ws r.2.2 ∧
        closing.is .rightParen ∧ Fresh s.nextId s'.nextId
          (Stmt.marksOpt r.1 ++ Expr.marksOpt r.2.1 ++ Expr.marksOpt r.2.2))
      (Stops s) (n < 16 * s.rest.length + 10) := by
  rw [forClauses]
  refine Ends.consume ?_ (.refl trivial)
  intro opening rest hs hopen
  have htok := Reads.token hs
  have hlen : s.rest.length = rest.length + 1 := by rw [hs]; rfl
  refine Ends.takeAny ?_ ?_
  · intro t rest' hs' ht
    simp only at hs'
    subst hs'
    have htok' := htok.trans (Reads.token (s := { s with rest := t :: rest' }) rfl)
    by_cases hsemi : t.is .semicolon = true
    · simp only [hsemi, ↓reduceIte]
      refine forClauses_rest heof n _ hopen (htok'.mono ?_) ?_
      · rintro _ ⟨_, _, rfl, rfl, rfl⟩
        exact ⟨[t], rfl, .none hsemi, .nil (Nat.le_refl _)⟩
      · simp only [List.length_cons] at hlen ⊢
        omega
    · simp only [hsemi, Bool.false_eq_true, ↓reduceIte]
      have hvar : t.is .varKw = true := by simpa [hsemi] using ht
      refine (varDeclaration_ends heof n { s with rest := rest' }).bind ?_
        (fun _ hstop => htok'.then_stops hstop) ?_
      · rintro d s₁ ⟨hread, hlt⟩
        refine forClauses_rest heof n s₁ hopen (htok'.andThen hread ?_) ?_
        · rintro _ us ⟨_, _, rfl, rfl, rfl⟩ ⟨hd, hf⟩
          exact ⟨t :: us, rfl, .declared (hd t hvar), hf⟩
        · simp only [List.length_cons] at hlen hlt ⊢
          omega
      · simp only [List.length_cons] at hlen ⊢
        omega
  · intro _
    refine (expressionStatement_ends heof n { s with rest }).bind ?_
      (fun _ hstop => htok.then_stops hstop) ?_
    · rintro d s₁ ⟨hread, hlt⟩
      refine forClauses_rest heof n s₁ hopen (htok.andThen hread ?_) ?_
      · rintro _ us rfl ⟨hd, hf⟩
        exact ⟨us, rfl, .evaluated hd, hf⟩
      · simp only at hlt ⊢
        omega
    · simp only
      omega

end

theorem marks_forLoop (i : Option (Stmt NodeId)) (c u : Option (Expr NodeId)) (t : Stmt NodeId) :
    (Stmt.forLoop i c u t).marks =
      Stmt.marksOpt i ++ (Expr.marksOpt c ++ (t.marks ++ Expr.marksOpt u)) := by
  cases i <;> cases c <;> cases u <;>
    simp [Stmt.forLoop, Stmt.marks, Stmt.marksAll, Stmt.marksOpt, Expr.marksOpt, Expr.marks]

/-! ## Statements and declarations -/

/-- The tokens are declarations, one after another. -/
def AreDeclarations (body : List (Stmt NodeId)) (ts : List Token) : Prop :=
  ∃ parts : List (List Token × Stmt NodeId), body = parts.map Prod.snd ∧
    (∀ p ∈ parts, Forms .declaration p.1 p.2) ∧ ts = (parts.map Prod.fst).flatten

/-- The tokens are a function from its name on. -/
def IsFunction (decl : FunDecl (Stmt NodeId)) (ts : List Token) : Prop :=
  ∃ f : FunPhrase NodeId, decl = f.decl ∧ (∀ p ∈ f.body, Forms .declaration p.1 p.2) ∧ ts = f.tokens

/-- The tokens between two states are a statement. One that ends in an `if` without `else` is not
followed by an `else`. -/
abbrev SoundStatement (s : ParseState) (t : Stmt NodeId) (s' : ParseState) : Prop :=
  Reads s s' (fun ts => (∃ dangling, Forms (.statement dangling) ts t ∧
    (dangling = true → ∀ t ∈ s'.rest.head?, t.is .elseKw = false)) ∧
    Fresh s.nextId s'.nextId t.marks) ∧ s'.rest.length < s.rest.length

/-- What holds of every parsing function for statements with `n` steps of fuel. -/
structure StmtSound (eof : Token) (n : Nat) : Prop where
  declarations (inBlock : Bool) (s : ParseState) :
    Ends (declarations n inBlock eof s)
      (fun body s' => Reads s s' (fun ts => AreDeclarations body ts ∧
          Fresh s.nextId s'.nextId (Stmt.marksAll body)) ∧ (inBlock = false → s'.rest = []))
      (Stops s) (n < 16 * s.rest.length + 13)
  declaration (s : ParseState) :
    Ends (declaration n eof s)
      (fun t s' => Reads s s' (fun ts => Forms .declaration ts t ∧ Fresh s.nextId s'.nextId t.marks) ∧
        s'.rest.length < s.rest.length)
      (Stops s) (n < 16 * s.rest.length + 12)
  classDeclaration (s : ParseState) :
    Ends (classDeclaration n eof s)
      (fun t s' => Reads s s' fun ts => (∀ keyword, keyword.is .classKw →
        Forms .declaration (keyword :: ts) t) ∧ Fresh s.nextId s'.nextId t.marks)
      (Stops s) (n < 16 * s.rest.length + 1)
  methods (s : ParseState) :
    Ends (methods n eof s)
      (fun ms s' => Reads s s' fun ts => (∃ fs : List (FunPhrase NodeId), ms = fs.map FunPhrase.decl ∧
        (∀ f ∈ fs, ∀ p ∈ f.body, Forms .declaration p.1 p.2) ∧
        ts = (fs.map FunPhrase.tokens).flatten) ∧ Fresh s.nextId s'.nextId (Stmt.marksMethods ms))
      (Stops s) (n < 16 * s.rest.length + 2)
  function (role : Role) (s : ParseState) :
    Ends (function n role eof s)
      (fun f s' => Reads s s' (fun ts => IsFunction f ts ∧
        Fresh s.nextId s'.nextId (Stmt.marksFun f)) ∧ s'.rest.length < s.rest.length)
      (Stops s) (n < 16 * s.rest.length + 1)
  block (s : ParseState) :
    Ends (block n eof s)
      (fun body s' => Reads s s' fun ts => (∃ us right, ts = us ++ [right] ∧ AreDeclarations body us ∧
        right.is .rightBrace) ∧ Fresh s.nextId s'.nextId (Stmt.marksAll body))
      (Stops s) (n < 16 * s.rest.length + 14)
  statement (s : ParseState) :
    Ends (statement n eof s)
      (SoundStatement s) (Stops s) (n < 16 * s.rest.length + 11)

theorem length_dropBroken (ts : List Token) : (dropBroken ts).length ≤ ts.length - 1 := by
  induction ts with
  | nil => simp [dropBroken]
  | cons t rest ih =>
    cases rest with
    | nil => simp [dropBroken]
    | cons next rest =>
      rw [dropBroken]
      split
      · simp
      · simp only [List.length_cons] at ih ⊢
        omega

theorem dropBroken_suffix (ts : List Token) : ∃ us, ts = us ++ dropBroken ts := by
  induction ts with
  | nil => exact ⟨[], rfl⟩
  | cons t rest ih =>
    cases rest with
    | nil => exact ⟨[t], rfl⟩
    | cons next rest =>
      rw [dropBroken]
      split
      · exact ⟨[t], rfl⟩
      · obtain ⟨us, hus⟩ := ih
        exact ⟨t :: us, by rw [List.cons_append, ← hus]⟩

namespace StmtSound

/-- A declaration, or a report and the tokens behind a broken one. -/
theorem recover_ends (ih : StmtSound eof n) (hs : s.rest ≠ []) :
    Ends (recover (Parser.declaration n) dropBroken eof s)
      (fun t s' => Reads s s' (fun ts => ∃ u, t = some u ∧ Forms .declaration ts u ∧
        Fresh s.nextId s'.nextId u.marks) ∧ s'.rest.length < s.rest.length)
      (fun _ => False) (n < 16 * s.rest.length + 12) := by
  have h := ih.declaration s
  unfold recover
  cases hr : Parser.declaration n eof s with
  | ok t s' =>
    rw [hr] at h
    refine ⟨h.1.mono ?_, h.2⟩
    rintro ts ⟨hd, hf⟩
    exact ⟨t, rfl, hd, hf⟩
  | fault t cause s' =>
    rw [hr] at h
    have hstop : Stops s s' := h
    have hle := hstop.length_le
    have hdrop := length_dropBroken s'.rest
    have hpos := List.length_pos_iff.2 hs
    obtain ⟨us, hus⟩ := dropBroken_suffix s'.rest
    have hbroken : Reads s' { s' with rest := dropBroken s'.rest,
                                      reports := s'.reports ++ [cause.report t] } (fun _ => False) :=
      ⟨Nat.le_refl _, .one _ rfl, us, hus, fun he => by simp at he⟩
    refine ⟨hstop.andThen hbroken fun _ _ _ hf => hf.elim, ?_⟩
    simp only
    omega
  | outOfFuel =>
    rw [hr] at h
    exact h

theorem declarations_succ (ih : StmtSound eof n) (inBlock : Bool) :
    Ends (Parser.declarations (n + 1) inBlock eof s)
      (fun body s' => Reads s s' (fun ts => AreDeclarations body ts ∧
          Fresh s.nextId s'.nextId (Stmt.marksAll body)) ∧ (inBlock = false → s'.rest = []))
      (Stops s) (n + 1 < 16 * s.rest.length + 13) := by
  rw [Parser.declarations]
  have hnil : Reads s s fun ts => AreDeclarations [] ts ∧ Fresh s.nextId s.nextId
      (Stmt.marksAll []) := .refl ⟨⟨[], rfl, by simp, rfl⟩, .nil (Nat.le_refl _)⟩
  refine Ends.bind (x := atEnd) (P := fun b s' => b = s.rest.isEmpty ∧ s' = s)
    (F := fun _ => False) (D := False) ⟨rfl, rfl⟩ ?_ (fun _ h => h.elim) (fun h => h.elim)
  rintro _ _ ⟨rfl, rfl⟩
  rename_i s
  have hgo : s.rest ≠ [] → Ends ((do
        let first ← recover (Parser.declaration n) dropBroken
        let rest ← Parser.declarations n inBlock
        return first.toList ++ rest : Parser (List (Stmt NodeId))) eof s)
      (fun body s' => Reads s s' (fun ts => AreDeclarations body ts ∧
          Fresh s.nextId s'.nextId (Stmt.marksAll body)) ∧ (inBlock = false → s'.rest = []))
      (Stops s) (n + 1 < 16 * s.rest.length + 13) := by
    intro hne
    refine (ih.recover_ends hne).bind ?_ (fun _ hf => hf.elim) (fun hd => by omega)
    rintro first s₁ ⟨hread, hlt⟩
    refine (ih.declarations inBlock s₁).bind ?_ (fun _ hstop => hread.then_stops hstop)
      (fun hd => by omega)
    rintro rest s₂ ⟨hrest, hend⟩
    refine Ends.returned ⟨hread.andThen hrest ?_, hend⟩
    rintro us vs ⟨u, rfl, hu, hf⟩ ⟨⟨parts, rfl, hparts, rfl⟩, hf'⟩
    refine ⟨⟨(us, u) :: parts, rfl, ?_, rfl⟩, hf.append hf'⟩
    intro p hp
    rcases List.mem_cons.1 hp with rfl | hp
    · exact hu
    · exact hparts p hp
  refine Ends.check ?_ ?_
  · intro t rest hs ht
    have hne : s.rest ≠ [] := by simp [hs]
    have hb : s.rest.isEmpty = false := by simp [hs]
    rw [hb]
    cases inBlock with
    | true => exact ⟨hnil, fun hf => nomatch hf⟩
    | false => exact hgo hne
  · intro _
    cases hr : s.rest with
    | nil =>
      simp only [List.isEmpty_nil, Bool.true_or, ↓reduceIte]
      exact ⟨hnil, fun _ => hr⟩
    | cons t rest =>
      simp only [List.isEmpty_cons, Bool.false_or, Bool.and_false, Bool.false_eq_true, ↓reduceIte]
      rw [← hr]
      exact hgo (by simp [hr])

theorem declaration_succ (ih : StmtSound eof n) (heof : eof.is .eof = true) :
    Ends (Parser.declaration (n + 1) eof s)
      (fun t s' => Reads s s' (fun ts => Forms .declaration ts t ∧ Fresh s.nextId s'.nextId t.marks) ∧
        s'.rest.length < s.rest.length)
      (Stops s) (n + 1 < 16 * s.rest.length + 12) := by
  rw [Parser.declaration]
  refine Ends.takeAny ?_ ?_
  · intro t rest hs ht
    have htok := Reads.token hs
    have hlen : s.rest.length = rest.length + 1 := by rw [hs]; rfl
    by_cases hclass : t.is .classKw = true
    · simp only [hclass, ↓reduceIte]
      refine (ih.classDeclaration { s with rest }).mono ?_ (fun _ hstop => htok.then_stops hstop) ?_
      · intro d s₁ hread
        refine ⟨htok.andThen hread ?_, ?_⟩
        · rintro _ us rfl ⟨hd, hf⟩
          exact ⟨hd t hclass, hf⟩
        · have hle := hread.length_le
          simp only at hle
          omega
      · simp only
        omega
    · simp only [hclass, Bool.false_eq_true, ↓reduceIte]
      by_cases hfun : t.is .funKw = true
      · simp only [hfun, ↓reduceIte]
        refine (ih.function .function { s with rest }).bind ?_
          (fun _ hstop => htok.then_stops hstop) ?_
        · rintro f s₁ ⟨hread, hlt⟩
          refine Ends.returned ⟨htok.andThen hread ?_, ?_⟩
          · rintro _ _ rfl ⟨⟨f, rfl, hf, rfl⟩, hfresh⟩
            exact ⟨.function f hfun hf, hfresh⟩
          · simp only at hlt
            omega
        · simp only
          omega
      · simp only [hfun, Bool.false_eq_true, ↓reduceIte]
        have hvar : t.is .varKw = true := by simpa [hclass, hfun] using ht
        refine (varDeclaration_ends heof n { s with rest }).mono ?_
          (fun _ hstop => htok.then_stops hstop) ?_
        · rintro d s₁ ⟨hread, hlt⟩
          refine ⟨htok.andThen hread ?_, ?_⟩
          · rintro _ us rfl ⟨hd, hf⟩
            exact ⟨.varDecl (hd t hvar), hf⟩
          · simp only at hlt
            omega
        · simp only
          omega
  · intro _
    refine (ih.statement s).mono ?_ (fun _ hstop => hstop) (fun hd => by omega)
    rintro t s₁ ⟨hread, hlt⟩
    refine ⟨hread.mono ?_, hlt⟩
    rintro ts ⟨⟨dangling, hd, _⟩, hf⟩
    exact ⟨.statement hd, hf⟩

/-- The body of a class, after its superclass clause. -/
theorem classBody_ends (ih : StmtSound eof n) {x : Token} {parent : Option (Expr NodeId)}
    (hx : x.is .identifier = true)
    (hread : Reads s s₁ fun ts => ∃ us, ts = x :: us ∧ Superclass us parent ∧
      Fresh s.nextId s₁.nextId (Expr.marksOpt parent))
    (hd : n + 1 < 16 * s₁.rest.length + 1 → D) :
    Ends ((do
        let _ ← consume .leftBrace .classBody
        let methods ← Parser.methods n
        let _ ← consume .rightBrace .classEnd
        return .classDecl x parent methods : Parser (Stmt NodeId)) eof s₁)
      (fun t s' => Reads s s' fun ts => (∀ keyword, keyword.is .classKw →
        Forms .declaration (keyword :: ts) t) ∧ Fresh s.nextId s'.nextId t.marks)
      (Stops s) D := by
  refine Ends.consume ?_ hread.stops
  intro left rest hs hleft
  have hread₂ := hread.trans (Reads.token hs)
  have hlen : s₁.rest.length = rest.length + 1 := by rw [hs]; rfl
  refine (ih.methods { s₁ with rest }).bind ?_ (fun _ hstop => hread₂.then_stops hstop) ?_
  · intro ms s₂ hms
    refine Ends.consume ?_ (hread₂.then_stops hms.stops)
    intro right rest' hs' hright
    refine Ends.returned ((hread₂.trans hms).andThen (Reads.token hs') ?_)
    rintro _ _ ⟨_, _, rfl, ⟨_, _, rfl, ⟨us, rfl, hp, hf⟩, rfl⟩, ⟨fs, rfl, hfs, rfl⟩, hf'⟩ rfl
    refine ⟨fun keyword hk => ?_, hf.append hf'⟩
    simpa using Forms.classDecl hk hx hp hleft hfs hright
  · intro hn
    apply hd
    simp only at hn
    omega

theorem classDeclaration_succ (ih : StmtSound eof n) :
    Ends (Parser.classDeclaration (n + 1) eof s)
      (fun t s' => Reads s s' fun ts => (∀ keyword, keyword.is .classKw →
        Forms .declaration (keyword :: ts) t) ∧ Fresh s.nextId s'.nextId t.marks)
      (Stops s) (n + 1 < 16 * s.rest.length + 1) := by
  rw [Parser.classDeclaration]
  refine Ends.consume ?_ (.refl trivial)
  intro x rest hs hx
  have htok := Reads.token hs
  have hlen : s.rest.length = rest.length + 1 := by rw [hs]; rfl
  refine Ends.take ?_ ?_
  · intro less rest' hs' hless
    simp only at hs'
    subst hs'
    have htok' := htok.trans (Reads.token (s := { s with rest := less :: rest' }) rfl)
    refine Ends.consume ?_ htok'.stops
    intro y rest'' hs'' hy
    simp only at hs''
    subst hs''
    have htok'' := (htok'.trans (Reads.token (s := { s with rest := y :: rest'' }) rfl)).trans
      (Reads.fresh (Q := (· = [])) rfl)
    refine Ends.freshId (ih.classBody_ends hx (htok''.mono ?_) ?_)
    · rintro _ ⟨_, _, rfl, ⟨_, _, rfl, ⟨_, _, rfl, rfl, rfl⟩, rfl⟩, rfl⟩
      exact ⟨[less, y], rfl, .some s.nextId hless hy, .one s.nextId⟩
    · simp only [List.length_cons] at hlen ⊢
      omega
  · intro _
    refine ih.classBody_ends hx (htok.mono ?_) ?_
    · rintro _ rfl
      exact ⟨[], rfl, .none, .nil (Nat.le_refl _)⟩
    · simp only
      omega

theorem methods_succ (ih : StmtSound eof n) :
    Ends (Parser.methods (n + 1) eof s)
      (fun ms s' => Reads s s' fun ts => (∃ fs : List (FunPhrase NodeId), ms = fs.map FunPhrase.decl ∧
        (∀ f ∈ fs, ∀ p ∈ f.body, Forms .declaration p.1 p.2) ∧
        ts = (fs.map FunPhrase.tokens).flatten) ∧ Fresh s.nextId s'.nextId (Stmt.marksMethods ms))
      (Stops s) (n + 1 < 16 * s.rest.length + 2) := by
  rw [Parser.methods]
  have hnil : Reads s s fun ts => (∃ fs : List (FunPhrase NodeId), [] = fs.map FunPhrase.decl ∧
      (∀ f ∈ fs, ∀ p ∈ f.body, Forms .declaration p.1 p.2) ∧ ts = (fs.map FunPhrase.tokens).flatten) ∧
      Fresh s.nextId s.nextId (Stmt.marksMethods []) :=
    .refl ⟨⟨[], rfl, by simp, rfl⟩, .nil (Nat.le_refl _)⟩
  refine Ends.check ?_ ?_
  · intro _ _ _ _
    exact hnil
  · intro _
    refine Ends.bind (x := atEnd) (P := fun b s' => b = s.rest.isEmpty ∧ s' = s)
      (F := fun _ => False) (D := False) ⟨rfl, rfl⟩ ?_ (fun _ h => h.elim) (fun h => h.elim)
    rintro _ _ ⟨rfl, rfl⟩
    rename_i s _
    cases hb : s.rest.isEmpty with
    | true => exact hnil
    | false =>
      refine Ends.bind (ih.function .method s) ?_ (fun _ hstop => hstop) (fun hd => by omega)
      rintro f s₁ ⟨hread, hlt⟩
      refine (ih.methods s₁).bind ?_ (fun _ hstop => hread.then_stops hstop) (fun hd => by omega)
      intro ms s₂ hms
      refine Ends.returned (hread.andThen hms ?_)
      rintro _ _ ⟨⟨f, rfl, hf, rfl⟩, hfresh⟩ ⟨⟨fs, rfl, hfs, rfl⟩, hfresh'⟩
      refine ⟨⟨f :: fs, rfl, ?_, rfl⟩, hfresh.append hfresh'⟩
      intro g hg
      rcases List.mem_cons.1 hg with rfl | hg
      · exact hf
      · exact hfs g hg

/-- The body of a function, after its parameters. -/
theorem functionBody_ends (ih : StmtSound eof n) (role : Role) {x opening : Token}
    (params : List Token) (hx : x.is .identifier = true) (hopen : opening.is .leftParen = true)
    (hread : Reads s s₁ fun ts => ∃ us, ts = x :: opening :: us ∧ (∀ p ∈ params, p.is .identifier) ∧
      params.length ≤ 255 ∧ Commas (params.map ([·])) us)
    (hlt : s₁.rest.length < s.rest.length)
    (hd : n + 1 < 16 * s₁.rest.length + 17 → D) :
    Ends ((do
        let _ ← consume .rightParen .parameterEnd
        let _ ← consume .leftBrace (.functionBody role)
        let body ← Parser.block n
        return ⟨x, params, body⟩ : Parser (FunDecl (Stmt NodeId))) eof s₁)
      (fun f s' => Reads s s' (fun ts => IsFunction f ts ∧
        Fresh s.nextId s'.nextId (Stmt.marksFun f)) ∧ s'.rest.length < s.rest.length)
      (Stops s) D := by
  refine Ends.consume ?_ hread.stops
  intro closing rest hs hclose
  have hread₂ := hread.trans (Reads.token hs)
  have hlen : s₁.rest.length = rest.length + 1 := by rw [hs]; rfl
  refine Ends.consume ?_ hread₂.stops
  intro left rest' hs' hleft
  simp only at hs'
  subst hs'
  have hread₃ := hread₂.trans (Reads.token (s := { s₁ with rest := left :: rest' }) rfl)
  refine (ih.block { s₁ with rest := rest' }).bind ?_ (fun _ hstop => hread₃.then_stops hstop) ?_
  · intro body s₂ hbody
    refine Ends.returned ⟨hread₃.andThen hbody ?_, ?_⟩
    · rintro _ _ ⟨_, _, rfl, ⟨_, _, rfl, ⟨us, rfl, hps, hfew, hcommas⟩, rfl⟩, rfl⟩
        ⟨⟨_, right, rfl, ⟨parts, rfl, hparts, rfl⟩, hright⟩, hf⟩
      refine ⟨⟨⟨x, opening, params, us, closing, left, parts, right, hx, hopen, hps, hfew, hcommas,
        hclose, hleft, hright⟩, rfl, hparts, ?_⟩, (Fresh.nil hread.ids).append hf⟩
      simp [FunPhrase.tokens]
    · have hle := hbody.length_le
      simp only [List.length_cons] at hle hlen
      omega
  · intro hn
    apply hd
    simp only [List.length_cons] at hn hlen
    omega

theorem function_succ (ih : StmtSound eof n) (role : Role) :
    Ends (Parser.function (n + 1) role eof s)
      (fun f s' => Reads s s' (fun ts => IsFunction f ts ∧
        Fresh s.nextId s'.nextId (Stmt.marksFun f)) ∧ s'.rest.length < s.rest.length)
      (Stops s) (n + 1 < 16 * s.rest.length + 1) := by
  rw [Parser.function]
  refine Ends.consume ?_ (.refl trivial)
  intro x rest hs hx
  have htok := Reads.token hs
  have hlen : s.rest.length = rest.length + 1 := by rw [hs]; rfl
  refine Ends.consume ?_ htok.stops
  intro opening rest' hs' hopen
  simp only at hs'
  subst hs'
  have htok' := htok.trans (Reads.token (s := { s with rest := opening :: rest' }) rfl)
  simp only [List.length_cons] at hlen
  refine Ends.check ?_ ?_
  · intro _ _ _ _
    refine ih.functionBody_ends role [] hx hopen (htok'.mono ?_) ?_ ?_
    · rintro _ ⟨_, _, rfl, rfl, rfl⟩
      exact ⟨[], rfl, by simp, by simp, .none⟩
    · simp only
      omega
    · simp only
      omega
  · intro _
    refine (parameters_ends n 0 { s with rest := rest' }).bind ?_
      (fun _ hstop => htok'.then_stops hstop) ?_
    · intro params s₁ hread
      have hle := hread.length_le
      simp only at hle
      refine ih.functionBody_ends role _ hx hopen (htok'.andThen hread ?_) (by omega) (by omega)
      rintro _ us ⟨_, _, rfl, rfl, rfl⟩ ⟨hps, hcount, hcommas, _⟩
      exact ⟨us, rfl, hps, by omega, hcommas⟩
    · simp only
      omega

theorem block_succ (ih : StmtSound eof n) :
    Ends (Parser.block (n + 1) eof s)
      (fun body s' => Reads s s' fun ts => (∃ us right, ts = us ++ [right] ∧ AreDeclarations body us ∧
        right.is .rightBrace) ∧ Fresh s.nextId s'.nextId (Stmt.marksAll body))
      (Stops s) (n + 1 < 16 * s.rest.length + 14) := by
  rw [Parser.block]
  refine (ih.declarations true s).bind ?_ (fun _ hstop => hstop) (fun hd => by omega)
  rintro body s₁ ⟨hread, _⟩
  refine Ends.consume ?_ hread.stops
  intro right rest hs hright
  refine Ends.returned (hread.andThen (Reads.token hs) ?_)
  rintro us _ ⟨hd, hf⟩ rfl
  exact ⟨⟨us, right, rfl, hd, hright⟩, hf⟩

/-- The branches of an `if`, after its condition. An `else` is left to the outer `if` only by a
statement that could not take it. -/
theorem conditional_ends (ih : StmtSound eof n) {keyword : Token} {c : Expr NodeId}
    (hkw : keyword.is .ifKw = true)
    (hread : Reads s s₁ fun ts => ∃ left us right, ts = keyword :: left :: us ++ [right] ∧
      left.is .leftParen ∧ Derives .assignment us c ∧ right.is .rightParen ∧
      Fresh s.nextId s₁.nextId c.marks)
    (hlt : s₁.rest.length < s.rest.length) (hd : n < 16 * s₁.rest.length + 11 → D) :
    Ends ((do
        let thenBranch ← Parser.statement n
        let elseBranch ← match ← take? .elseKw with
          | some _ => do pure (some (← Parser.statement n))
          | none => pure none
        return .conditional c thenBranch elseBranch : Parser (Stmt NodeId)) eof s₁)
      (SoundStatement s) (Stops s) D := by
  refine (ih.statement s₁).bind ?_ (fun _ hstop => hread.then_stops hstop) hd
  rintro t s₂ ⟨hthen, hlt₂⟩
  have hread₂ := hread.trans hthen
  refine Ends.take ?_ ?_
  · intro other rest hs hother
    have hread₃ := hread₂.trans (Reads.token hs)
    have hlen : s₂.rest.length = rest.length + 1 := by rw [hs]; rfl
    refine (ih.statement { s₂ with rest }).bind ?_ (fun _ hstop => hread₃.then_stops hstop) ?_
    · rintro u s₃ ⟨helse, hlt₃⟩
      refine Ends.returned ⟨hread₃.andThen helse ?_, ?_⟩
      · rintro _ ws ⟨_, _, rfl, ⟨_, vs, rfl, ⟨left, us, right, rfl, hleft, hc, hright, hf⟩,
          ⟨dangling, ht, hnext⟩, hf'⟩, rfl⟩ ⟨⟨dangling', hu, hnext'⟩, hf''⟩
        have hclosed : dangling = false := by
          cases dangling with
          | false => rfl
          | true =>
            have := hnext rfl other (by simp [hs])
            rw [hother] at this
            cases this
        subst hclosed
        refine ⟨⟨dangling', ?_, hnext'⟩, (hf.append hf').append hf''⟩
        simpa using Forms.ifElse hkw hleft hc hright ht hother hu
      · simp only at hlt₃
        omega
    · intro hn
      apply hd
      simp only at hn
      omega
  · intro hnext
    refine Ends.returned ⟨hread₂.mono ?_, by omega⟩
    rintro _ ⟨_, vs, rfl, ⟨left, us, right, rfl, hleft, hc, hright, hf⟩, ⟨dangling, ht, _⟩, hf'⟩
    refine ⟨⟨true, ?_, fun _ => hnext⟩, ?_⟩
    · simpa using Forms.ifThen hkw hleft hc hright ht
    · have := hf.append hf'
      simpa [Stmt.marks, Stmt.marksOpt] using this

section
variable {t : Token} {rest : List Token}

theorem for_ends (ih : StmtSound eof n) (heof : eof.is .eof = true) (hs : s.rest = t :: rest)
    (hfor : t.is .forKw = true) :
    Ends ((do
        let (initializer, condition, increment) ← forClauses n
        let body ← Parser.statement n
        return .forLoop initializer condition increment body : Parser (Stmt NodeId))
        eof { s with rest })
      (SoundStatement s) (Stops s) (n + 1 < 16 * s.rest.length + 11) := by
  have htok := Reads.token hs
  have hlen : s.rest.length = rest.length + 1 := by rw [hs]; rfl
  refine (forClauses_ends heof n { s with rest }).bind ?_ (fun _ hstop => htok.then_stops hstop) ?_
  · rintro ⟨i, c, u⟩ s₁ hclauses
    have hle := hclauses.length_le
    have hread := htok.trans hclauses
    refine (ih.statement s₁).bind ?_ (fun _ hstop => hread.then_stops hstop) ?_
    · rintro b s₂ ⟨hbody, hlt⟩
      refine Ends.returned ⟨hread.andThen hbody ?_, ?_⟩
      · rintro _ xs ⟨_, _, rfl, rfl, opening, us, vs, semicolon, ws, closing, rfl, ho, hi, hc, hsemi,
          hu, hclose, hf⟩ ⟨⟨dangling, hb, hnext⟩, hf'⟩
        have htree := forTree_iff.2 (rfl : Stmt.forLoop i c u b = _)
        refine ⟨⟨dangling, by simpa using Forms.forLoop hfor ho hi hc hsemi hu hclose hb htree, hnext⟩, ?_⟩
        refine (hf.append hf').perm ?_
        rw [marks_forLoop, List.append_assoc, List.append_assoc]
        exact (List.Perm.append_left _ (List.Perm.append_left _ List.perm_append_comm))
      · simp only at hle
        omega
    · simp only at hle
      omega
  · simp only
    omega

theorem if_ends (ih : StmtSound eof n) (heof : eof.is .eof = true) (hs : s.rest = t :: rest)
    (hif : t.is .ifKw = true) :
    Ends ((do
        let test ← condition n .ifCondition .ifConditionEnd
        let thenBranch ← Parser.statement n
        let elseBranch ← match ← take? .elseKw with
          | some _ => do pure (some (← Parser.statement n))
          | none => pure none
        return .conditional test thenBranch elseBranch : Parser (Stmt NodeId)) eof { s with rest })
      (SoundStatement s) (Stops s) (n + 1 < 16 * s.rest.length + 11) := by
  have htok := Reads.token hs
  have hlen : s.rest.length = rest.length + 1 := by rw [hs]; rfl
  refine (condition_ends heof n .ifCondition .ifConditionEnd { s with rest }).bind ?_
    (fun _ hstop => htok.then_stops hstop) ?_
  · intro c s₁ hcond
    have hle := hcond.length_le
    simp only at hle
    refine ih.conditional_ends hif (htok.andThen hcond ?_) (by omega) (by omega)
    rintro _ _ rfl ⟨left, us, right, rfl, h⟩
    exact ⟨left, us, right, rfl, h⟩
  · simp only
    omega

theorem print_ends (heof : eof.is .eof = true) (hs : s.rest = t :: rest)
    (hprint : t.is .printKw = true) :
    Ends ((do
        let value ← Parser.expression n
        let _ ← consume .semicolon .printEnd
        return .print t value : Parser (Stmt NodeId)) eof { s with rest })
      (SoundStatement s) (Stops s) (n + 1 < 16 * s.rest.length + 11) := by
  have htok := Reads.token hs
  have hlen : s.rest.length = rest.length + 1 := by rw [hs]; rfl
  refine ((exprSound heof n).expression { s with rest }).bind ?_
    (fun _ hstop => htok.then_stops hstop) ?_
  · rintro e s₁ ⟨hread, hlt⟩
    refine Ends.consume ?_ (htok.then_stops hread.stops)
    intro semicolon rest' hs' hsemi
    refine Ends.returned ⟨(htok.trans hread).andThen (Reads.token hs') ?_, ?_⟩
    · rintro _ _ ⟨_, us, rfl, rfl, hd, hf⟩ rfl
      exact ⟨⟨false, by simpa using Forms.print hprint hd hsemi, fun hf => nomatch hf⟩, hf⟩
    · rw [hs'] at hlt
      simp only [List.length_cons] at hlt ⊢
      omega
  · simp only
    omega

theorem return_ends (heof : eof.is .eof = true) (hs : s.rest = t :: rest)
    (hret : t.is .returnKw = true) :
    Ends ((do
        let value ← expressionUnless n .semicolon
        let _ ← consume .semicolon .returnEnd
        return .returning t value : Parser (Stmt NodeId)) eof { s with rest })
      (SoundStatement s) (Stops s) (n + 1 < 16 * s.rest.length + 11) := by
  have htok := Reads.token hs
  have hlen : s.rest.length = rest.length + 1 := by rw [hs]; rfl
  refine (expressionUnless_ends heof n .semicolon { s with rest }).bind ?_
    (fun _ hstop => htok.then_stops hstop) ?_
  · intro e s₁ hread
    have hle := hread.length_le
    refine Ends.consume ?_ (htok.then_stops hread.stops)
    intro semicolon rest' hs' hsemi
    refine Ends.returned ⟨(htok.trans hread).andThen (Reads.token hs') ?_, ?_⟩
    · rintro _ _ ⟨_, us, rfl, rfl, he, hf⟩ rfl
      exact ⟨⟨false, by simpa using Forms.returning hret he hsemi, fun hf => nomatch hf⟩, hf⟩
    · rw [hs'] at hle
      simp only [List.length_cons] at hle ⊢
      omega
  · simp only
    omega

theorem while_ends (ih : StmtSound eof n) (heof : eof.is .eof = true) (hs : s.rest = t :: rest)
    (hwhile : t.is .whileKw = true) :
    Ends ((do
        let test ← condition n .whileCondition .whileConditionEnd
        let body ← Parser.statement n
        return .loop test body : Parser (Stmt NodeId)) eof { s with rest })
      (SoundStatement s) (Stops s) (n + 1 < 16 * s.rest.length + 11) := by
  have htok := Reads.token hs
  have hlen : s.rest.length = rest.length + 1 := by rw [hs]; rfl
  refine (condition_ends heof n .whileCondition .whileConditionEnd { s with rest }).bind ?_
    (fun _ hstop => htok.then_stops hstop) ?_
  · intro c s₁ hcond
    have hle := hcond.length_le
    simp only at hle
    have hread := htok.trans hcond
    refine (ih.statement s₁).bind ?_ (fun _ hstop => hread.then_stops hstop) (fun hd => by omega)
    rintro b s₂ ⟨hbody, hlt⟩
    refine Ends.returned ⟨hread.andThen hbody ?_, by omega⟩
    rintro _ vs ⟨_, _, rfl, rfl, left, us, right, rfl, hleft, hc, hright, hf⟩
      ⟨⟨dangling, hb, hnext⟩, hf'⟩
    exact ⟨⟨dangling, by simpa using Forms.loop hwhile hleft hc hright hb, hnext⟩, hf.append hf'⟩
  · simp only
    omega

theorem braces_ends (ih : StmtSound eof n) (hs : s.rest = t :: rest)
    (hbrace : t.is .leftBrace = true) :
    Ends ((do return .block (← Parser.block n) : Parser (Stmt NodeId)) eof { s with rest })
      (SoundStatement s) (Stops s) (n + 1 < 16 * s.rest.length + 11) := by
  have htok := Reads.token hs
  have hlen : s.rest.length = rest.length + 1 := by rw [hs]; rfl
  refine (ih.block { s with rest }).bind ?_ (fun _ hstop => htok.then_stops hstop) ?_
  · intro body s₁ hread
    have hle := hread.length_le
    refine Ends.returned ⟨htok.andThen hread ?_, ?_⟩
    · rintro _ _ rfl ⟨⟨_, right, rfl, ⟨parts, rfl, hparts, rfl⟩, hright⟩, hf⟩
      exact ⟨⟨false, by simpa using Forms.block hbrace hparts hright, fun hf => nomatch hf⟩, hf⟩
    · simp only at hle
      omega
  · simp only
    omega

end

theorem statement_succ (ih : StmtSound eof n) (heof : eof.is .eof = true) :
    Ends (Parser.statement (n + 1) eof s)
      (SoundStatement s) (Stops s) (n + 1 < 16 * s.rest.length + 11) := by
  rw [Parser.statement]
  refine Ends.takeAny ?_ ?_
  · intro t rest hs ht
    simp only
    by_cases hfor : t.is .forKw = true
    · rw [if_pos hfor]
      exact ih.for_ends heof hs hfor
    rw [if_neg hfor]
    by_cases hif : t.is .ifKw = true
    · rw [if_pos hif]
      exact ih.if_ends heof hs hif
    rw [if_neg hif]
    by_cases hprint : t.is .printKw = true
    · rw [if_pos hprint]
      exact print_ends heof hs hprint
    rw [if_neg hprint]
    by_cases hret : t.is .returnKw = true
    · rw [if_pos hret]
      exact return_ends heof hs hret
    rw [if_neg hret]
    by_cases hwhile : t.is .whileKw = true
    · rw [if_pos hwhile]
      exact ih.while_ends heof hs hwhile
    rw [if_neg hwhile]
    have hbrace : t.is .leftBrace = true := by
      simpa [statementWords, hfor, hif, hprint, hret, hwhile] using ht
    exact ih.braces_ends hs hbrace
  · intro _
    refine (expressionStatement_ends heof n s).mono ?_ (fun _ hstop => hstop) (fun hd => by omega)
    rintro t s₁ ⟨hread, hlt⟩
    refine ⟨hread.mono ?_, hlt⟩
    rintro ts ⟨hd, hf⟩
    exact ⟨⟨false, .expression hd, fun hf => nomatch hf⟩, hf⟩

end StmtSound

/-- Every parsing function for statements is sound, whatever the fuel. -/
theorem stmtSound (heof : eof.is .eof = true) (n : Nat) : StmtSound eof n := by
  induction n with
  | zero =>
    constructor <;> intros
    · rw [declarations]
      exact Nat.succ_pos _
    · rw [declaration]
      exact Nat.succ_pos _
    · rw [classDeclaration]
      exact Nat.succ_pos _
    · rw [methods]
      exact Nat.succ_pos _
    · rw [function]
      exact Nat.succ_pos _
    · rw [block]
      exact Nat.succ_pos _
    · rw [statement]
      exact Nat.succ_pos _
  | succ n ih =>
    exact {
      declarations := fun inBlock _ => ih.declarations_succ inBlock
      declaration := fun _ => ih.declaration_succ heof
      classDeclaration := fun _ => ih.classDeclaration_succ
      methods := fun _ => ih.methods_succ
      function := fun role _ => ih.function_succ role
      block := fun _ => ih.block_succ
      statement := fun _ => ih.statement_succ heof }

end Lox.Parser
