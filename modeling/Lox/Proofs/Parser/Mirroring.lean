import Lox.Proofs.Parser.Cursor
import Lox.Proofs.Parser.Steps

/-!
# The cursor keeps within the tokens

A cursor on a vector stands for the tokens from it up to the first end marker (`View`). Whatever a
parser does with that list of tokens, the one with the cursor does on the vector, with any fuel that is
not less (`Mirrors`). In particular it reads no index outside of the vector, and what it reads lies
before the first end marker or is that marker.
-/

namespace Lox.Cursor

/-- The first end marker of a vector. -/
structure FirstEnd (tokens : Array Token) (eof : Token) (e : Nat) : Prop where
  marker : tokens[e]? = some eof
  isEnd : eof.is .eof = true
  before : ∀ i < e, ∀ t, tokens[i]? = some t → t.is .eof = false

/-- A cursor and the tokens that are left. -/
structure View (tokens : Array Token) (eof : Token) (e : Nat) (p : Position) (s : ParseState) : Prop where
  first : FirstEnd tokens eof e
  le : p.current ≤ e
  rest : s.rest = (tokens.toList.take e).drop p.current
  nextId : p.nextId = s.nextId
  reports : p.reports = s.reports

section
variable {tokens : Array Token} {p : Position}

theorem bind_of_ok {x : Cursor α} {f : α → Cursor β} {a : α} {p' : Position}
    (h : x tokens p = .ok a p') : (x >>= f) tokens p = f a tokens p' := by
  show Cursor.bind x f tokens p = _
  rw [Cursor.bind, h]

theorem tokenAt_of_some {t : Token} {i : Nat} (h : tokens[i]? = some t) :
    tokenAt i tokens p = .ok t p := by
  rw [tokenAt, h]

end

/-! ## Reading through a view -/

namespace View

variable {tokens : Array Token} {eof : Token} {e : Nat} {p : Position} {s : ParseState} {t : Token}
  {rest : List Token} {k : Symbol}

theorem lt_size (hv : View tokens eof e p s) : e < tokens.size :=
  (Array.getElem?_eq_some_iff.1 hv.first.marker).1

theorem length_rest (hv : View tokens eof e p s) : s.rest.length = e - p.current := by
  have hlt := hv.lt_size
  rw [hv.rest, List.length_drop, List.length_take, Array.length_toList, Nat.min_eq_left (by omega)]

theorem current_of_nil (hv : View tokens eof e p s) (h : s.rest = []) : p.current = e := by
  have hlen := hv.length_rest
  have hle := hv.le
  rw [h, List.length_nil] at hlen
  omega

theorem lt_of_cons (hv : View tokens eof e p s) (h : s.rest = t :: rest) : p.current < e := by
  have hlen := hv.length_rest
  rw [h, List.length_cons] at hlen
  omega

theorem token_of_cons (hv : View tokens eof e p s) (h : s.rest = t :: rest) :
    tokens[p.current]? = some t := by
  have hlt := hv.lt_of_cons h
  have hhead : ((tokens.toList.take e).drop p.current)[0]? = some t := by rw [← hv.rest, h]; rfl
  rwa [List.getElem?_drop, Nat.add_zero, List.getElem?_take, if_pos hlt, Array.getElem?_toList] at hhead

theorem not_end_of_cons (hv : View tokens eof e p s) (h : s.rest = t :: rest) : t.is .eof = false :=
  hv.first.before _ (hv.lt_of_cons h) t (hv.token_of_cons h)

/-- Behind a token the view is of the tokens behind it. -/
theorem next (hv : View tokens eof e p s) (h : s.rest = t :: rest) :
    View tokens eof e { p with current := p.current + 1 } { s with rest } where
  first := hv.first
  le := hv.lt_of_cons h
  rest := by rw [← List.tail_drop, ← hv.rest, h]; rfl
  nextId := hv.nextId
  reports := hv.reports

theorem peek (hv : View tokens eof e p s) : Cursor.peek tokens p = .ok (s.rest.headD eof) p := by
  cases hs : s.rest with
  | nil =>
    have hread := hv.first.marker
    rw [← hv.current_of_nil hs] at hread
    exact tokenAt_of_some hread
  | cons t rest => exact tokenAt_of_some (hv.token_of_cons hs)

/-- What was taken last is read back. -/
theorem previous (hv : View tokens eof e p s) (h : s.rest = t :: rest) :
    Cursor.previous tokens { p with current := p.current + 1 } =
      .ok t { p with current := p.current + 1 } :=
  tokenAt_of_some (hv.token_of_cons h)

theorem atEnd (hv : View tokens eof e p s) : Cursor.atEnd tokens p = .ok s.rest.isEmpty p := by
  have hend : (s.rest.headD eof).is .eof = s.rest.isEmpty := by
    cases hs : s.rest with
    | nil => exact hv.first.isEnd
    | cons t rest => exact hv.not_end_of_cons hs
  rw [Cursor.atEnd, bind_of_ok hv.peek, hend]
  rfl

theorem advance (hv : View tokens eof e p s) (h : s.rest = t :: rest) :
    Cursor.advance tokens p = .ok t { p with current := p.current + 1 } := by
  rw [Cursor.advance, bind_of_ok hv.atEnd, h]
  exact hv.previous h

/-- At the end the cursor stays. -/
theorem advance_of_nil (hv : View tokens eof e p s) (h : s.rest = []) :
    ∃ t, Cursor.advance tokens p = .ok t p := by
  have hlt : p.current - 1 < tokens.size := by
    have hsize := hv.lt_size
    have hle := hv.le
    omega
  refine ⟨tokens[p.current - 1], ?_⟩
  rw [Cursor.advance, bind_of_ok hv.atEnd, h]
  exact tokenAt_of_some (Array.getElem?_eq_getElem hlt)

theorem check (hv : View tokens eof e p s) (k : Symbol) :
    Cursor.check k tokens p = .ok (s.rest.head?.any (·.is k)) p := by
  rw [Cursor.check, bind_of_ok hv.atEnd]
  cases hs : s.rest with
  | nil => rfl
  | cons t rest =>
    show (Cursor.peek >>= fun t => Pure.pure (t.is k)) tokens p = _
    rw [bind_of_ok hv.peek, hs]
    rfl

theorem checkAny (hv : View tokens eof e p s) (ks : List Symbol) :
    Cursor.checkAny ks tokens p = .ok (s.rest.head?.any (ks.any ·.is)) p := by
  induction ks with
  | nil =>
    rw [Cursor.checkAny]
    cases s.rest <;> rfl
  | cons k ks ih =>
    rw [Cursor.checkAny, bind_of_ok (hv.check k)]
    cases hs : s.rest with
    | nil =>
      rw [hs] at ih
      exact ih
    | cons t rest =>
      cases hk : t.is k with
      | true => simp [hk]; rfl
      | false =>
        rw [hs] at ih
        simpa [hk] using ih

theorem accept_of_is (hv : View tokens eof e p s) (h : s.rest = t :: rest) (hk : t.is k = true) :
    Cursor.accept k tokens p = .ok true { p with current := p.current + 1 } := by
  rw [Cursor.accept, bind_of_ok (hv.check k), h]
  simp only [List.head?_cons, Option.any_some, hk, if_true]
  rw [bind_of_ok (hv.advance h)]
  rfl

theorem accept_of_head (hv : View tokens eof e p s) (h : ∀ t ∈ s.rest.head?, t.is k = false) :
    Cursor.accept k tokens p = .ok false p := by
  have hno : s.rest.head?.any (·.is k) = false := by
    cases hs : s.rest.head? with
    | none => rfl
    | some t => exact h t hs
  rw [Cursor.accept, bind_of_ok (hv.check k), hno]
  rfl

end View

/-! ## Doing what the parser of the list does -/

/-- The run over the vector ends as the one over the list, unless that one is out of fuel. -/
def EndsLike (tokens : Array Token) (eof : Token) (e : Nat) (o : Finish α) : Parsed α → Prop
  | .ok a s => ∃ p, o = .ok a p ∧ View tokens eof e p s
  | .fault t cause s => ∃ p, o = .fault t cause p ∧ View tokens eof e p s
  | .outOfFuel => True

/-- From every view the parser with the cursor follows the one of the list. -/
def Mirrors (tokens : Array Token) (eof : Token) (e : Nat) (c : Cursor α) (x : Parser α) : Prop :=
  ∀ p s, View tokens eof e p s → EndsLike tokens eof e (c tokens p) (x eof s)

/-- The same from where a token was taken last. -/
def MirrorsAfter (tokens : Array Token) (eof : Token) (e : Nat) (t : Token) (c : Cursor α)
    (x : Parser α) : Prop :=
  ∀ p s, View tokens eof e p s → Cursor.previous tokens p = .ok t p →
    EndsLike tokens eof e (c tokens p) (x eof s)

section
variable {tokens : Array Token} {eof : Token} {e : Nat} {p : Position} {s : ParseState}

theorem EndsLike.bind {c : Cursor α} {x : Parser α} {f : α → Cursor β} {g : α → Parser β}
    (h : EndsLike tokens eof e (c tokens p) (x eof s))
    (hf : ∀ a, Mirrors tokens eof e (f a) (g a)) :
    EndsLike tokens eof e ((c >>= f) tokens p) ((x >>= g) eof s) := by
  have hc : (c >>= f) tokens p = Cursor.bind c f tokens p := rfl
  have hx : (x >>= g) eof s = Parser.bind x g eof s := rfl
  rw [hc, hx, Cursor.bind, Parser.bind]
  cases hr : x eof s with
  | ok a s' =>
    rw [hr] at h
    obtain ⟨p', hp, hv⟩ := h
    rw [hp]
    exact hf a p' s' hv
  | fault t cause s' =>
    rw [hr] at h
    obtain ⟨p', hp, hv⟩ := h
    rw [hp]
    exact ⟨p', rfl, hv⟩
  | outOfFuel => trivial

theorem MirrorsAfter.plain {c : Cursor β} {x : Parser β} (t : Token) (h : Mirrors tokens eof e c x) :
    MirrorsAfter tokens eof e t c x :=
  fun p s hv _ => h p s hv

/-- The token that was taken last is read back. -/
theorem MirrorsAfter.readBack {t : Token} {c : Token → Cursor β} {x : Parser β}
    (h : Mirrors tokens eof e (c t) x) : MirrorsAfter tokens eof e t (Cursor.previous >>= c) x := by
  intro p s hv hprev
  rw [Cursor.bind_of_ok hprev]
  exact h p s hv

namespace Mirrors

variable {c c' : Cursor β} {x x' : Parser β} {f : Option Token → Parser β} {ks : List Symbol}
  {k : Symbol}

theorem pure (a : α) : Mirrors tokens eof e (Pure.pure a) (Pure.pure a) := fun p _ hv => ⟨p, rfl, hv⟩

theorem bind {c : Cursor α} {x : Parser α} {f : α → Cursor β} {g : α → Parser β}
    (h : Mirrors tokens eof e c x) (hf : ∀ a, Mirrors tokens eof e (f a) (g a)) :
    Mirrors tokens eof e (c >>= f) (x >>= g) :=
  fun p s hv => EndsLike.bind (h p s hv) hf

theorem ite {b : Prop} [Decidable b] (h : Mirrors tokens eof e c x) (h' : Mirrors tokens eof e c' x') :
    Mirrors tokens eof e (if b then c else c') (if b then x else x') := by
  split
  · exact h
  · exact h'

theorem outOfFuel (c : Cursor β) : Mirrors tokens eof e c Parser.outOfFuel := fun _ _ _ => trivial

theorem fail (t : Token) (cause : SyntaxFault) :
    Mirrors tokens eof e (Cursor.fail t cause : Cursor β) (Parser.fail t cause) :=
  fun p _ hv => ⟨p, rfl, hv⟩

theorem note (t : Token) (cause : SyntaxFault) :
    Mirrors tokens eof e (Cursor.note t cause) (Parser.note t cause) :=
  fun p _ hv => ⟨{ p with reports := p.reports ++ [cause.report t] }, rfl,
    hv.first, hv.le, hv.rest, hv.nextId, by rw [hv.reports]⟩

theorem freshId : Mirrors tokens eof e Cursor.freshId Parser.freshId :=
  fun p s hv => ⟨{ p with nextId := p.nextId + 1 }, by rw [Cursor.freshId, hv.nextId],
    hv.first, hv.le, hv.rest, by rw [hv.nextId], hv.reports⟩

theorem peek : Mirrors tokens eof e Cursor.peek Parser.peek := fun p _ hv => ⟨p, hv.peek, hv⟩

theorem atEnd : Mirrors tokens eof e Cursor.atEnd Parser.atEnd := fun p _ hv => ⟨p, hv.atEnd, hv⟩

theorem check (k : Symbol) : Mirrors tokens eof e (Cursor.check k) (Parser.check k) := by
  intro p s hv
  refine ⟨p, ?_, hv⟩
  rw [hv.check]
  cases s.rest <;> rfl

theorem advance {c : Token → Cursor β} {f : Unit → Parser β}
    (h : ∀ t, Mirrors tokens eof e (c t) (f ())) :
    Mirrors tokens eof e (Cursor.advance >>= c) (Parser.advance >>= f) := by
  intro p s hv
  have hx : (Parser.advance >>= f) eof s = f () eof { s with rest := s.rest.tail } := rfl
  rw [hx]
  cases hs : s.rest with
  | nil =>
    obtain ⟨t, ht⟩ := hv.advance_of_nil hs
    rw [Cursor.bind_of_ok ht]
    refine h t p _ ⟨hv.first, hv.le, ?_, hv.nextId, hv.reports⟩
    rw [← hv.rest, hs]
    rfl
  | cons t rest =>
    rw [Cursor.bind_of_ok (hv.advance hs)]
    exact h t _ _ (hv.next hs)

theorem consume (k : Symbol) (cause : SyntaxFault) :
    Mirrors tokens eof e (Cursor.consume k cause) (Parser.consume k cause) := by
  intro p s hv
  rw [Cursor.consume, Cursor.bind_of_ok (hv.check k)]
  obtain ⟨ts, i, reports⟩ := s
  cases ts with
  | nil =>
    refine ⟨p, ?_, hv⟩
    show (Cursor.peek >>= fun t => Cursor.fail t cause) tokens p = _
    rw [Cursor.bind_of_ok hv.peek]
    rfl
  | cons t rest =>
    cases ht : t.is k with
    | true =>
      rw [Parser.consume_of_is ht]
      refine ⟨_, ?_, hv.next rfl⟩
      simp only [List.head?_cons, Option.any_some, ht, if_true]
      exact hv.advance rfl
    | false =>
      simp only [Parser.consume, List.head?_cons, Option.any_some, ht, Bool.false_eq_true, if_false]
      refine ⟨p, ?_, hv⟩
      rw [Cursor.bind_of_ok hv.peek]
      rfl

/-- A kind is tried, and other kinds after it. -/
theorem choose (hyes : ∀ t, t.is k = true → MirrorsAfter tokens eof e t c (f (some t)))
    (hno : Mirrors tokens eof e c' (Parser.takeAny? ks >>= f)) :
    Mirrors tokens eof e (Cursor.accept k >>= fun b => if b = true then c else c')
      (Parser.takeAny? (k :: ks) >>= f) := by
  intro p s hv
  obtain ⟨ts, i, reports⟩ := s
  cases ts with
  | nil =>
    rw [Cursor.bind_of_ok (hv.accept_of_head (by simp))]
    exact hno p _ hv
  | cons t rest =>
    cases ht : t.is k with
    | true =>
      have hany : (k :: ks).any t.is = true := by simp [ht]
      rw [Cursor.bind_of_ok (hv.accept_of_is rfl ht), Parser.bind_of_ok (Parser.takeAny_of_any hany)]
      exact hyes t ht _ _ (hv.next rfl) (hv.previous rfl)
    | false =>
      have hsame : (Parser.takeAny? (k :: ks) >>= f) eof ⟨t :: rest, i, reports⟩ =
          (Parser.takeAny? ks >>= f) eof ⟨t :: rest, i, reports⟩ := by
        simp [Bind.bind, Parser.bind, Parser.takeAny?, ht]
      rw [Cursor.bind_of_ok (hv.accept_of_head (by simpa using ht)), hsame]
      exact hno p _ hv

/-- No kind is left to try. -/
theorem chosen (h : Mirrors tokens eof e c (f none)) :
    Mirrors tokens eof e c (Parser.takeAny? [] >>= f) := by
  have hnone : (Parser.takeAny? [] >>= f) = f none := by
    funext eof s
    obtain ⟨ts, i, reports⟩ := s
    cases ts <;> rfl
  rwa [hnone]

/-- One kind is tried. -/
theorem take (hyes : ∀ t, t.is k = true → MirrorsAfter tokens eof e t c (f (some t)))
    (hno : Mirrors tokens eof e c' (f none)) :
    Mirrors tokens eof e (Cursor.accept k >>= fun b => if b = true then c else c')
      (Parser.take? k >>= f) :=
  choose hyes (chosen hno)

/-- Several kinds are tried, with the same continuation. -/
theorem acceptAny (hyes : ∀ t, MirrorsAfter tokens eof e t c (f (some t)))
    (hno : Mirrors tokens eof e c' (f none)) :
    Mirrors tokens eof e (Cursor.acceptAny ks >>= fun b => if b = true then c else c')
      (Parser.takeAny? ks >>= f) := by
  induction ks with
  | nil => exact chosen hno
  | cons k ks ih =>
    have hsplit : (Cursor.acceptAny (k :: ks) >>= fun b => if b = true then c else c') =
        Cursor.accept k >>= fun b =>
          if b = true then c else Cursor.acceptAny ks >>= fun b => if b = true then c else c' := by
      funext ts p
      simp only [Cursor.acceptAny, Bind.bind, Cursor.bind]
      cases Cursor.accept k ts p with
      | ok b p => cases b <;> rfl
      | _ => rfl
    rw [hsplit]
    exact choose (fun t _ => hyes t) ih

/-- One of several kinds is seen and then taken. -/
theorem checkAny {c : Token → Cursor β} (hyes : ∀ t, Mirrors tokens eof e (c t) (f (some t)))
    (hno : Mirrors tokens eof e c' (f none)) :
    Mirrors tokens eof e
      (Cursor.checkAny ks >>= fun b => if b = true then Cursor.advance >>= c else c')
      (Parser.takeAny? ks >>= f) := by
  intro p s hv
  rw [Cursor.bind_of_ok (hv.checkAny ks)]
  obtain ⟨ts, i, reports⟩ := s
  cases ts with
  | nil => exact hno p _ hv
  | cons t rest =>
    cases ht : ks.any t.is with
    | true =>
      rw [Parser.bind_of_ok (Parser.takeAny_of_any ht)]
      simp only [List.head?_cons, Option.any_some, ht, if_true]
      rw [Cursor.bind_of_ok (hv.advance rfl)]
      exact hyes t _ _ (hv.next rfl)
    | false =>
      rw [Parser.bind_of_ok (Parser.takeAny_of_head (by simpa using ht))]
      simp only [List.head?_cons, Option.any_some, ht, Bool.false_eq_true, if_false]
      exact hno p _ hv

/-! ## Broken statements -/

/-- From behind a token, the loop drops what is dropped of the list. -/
theorem skip (n : Nat) {p : Position} {s : ParseState} {t : Token} (hv : View tokens eof e p s)
    (hn : s.rest.length < n) (hprev : Cursor.previous tokens p = .ok t p) :
    ∃ p', Cursor.skip n tokens p = .ok () p' ∧
      View tokens eof e p' { s with rest := Parser.dropBroken (t :: s.rest) } := by
  induction n generalizing p s t with
  | zero => exact absurd hn (Nat.not_lt_zero _)
  | succ n ih =>
    obtain ⟨ts, i, reports⟩ := s
    rw [Cursor.skip, Cursor.bind_of_ok hv.atEnd]
    cases ts with
    | nil => exact ⟨p, rfl, hv⟩
    | cons next rest =>
      rw [List.isEmpty_cons, if_neg (by simp), Cursor.bind_of_ok hprev]
      cases hsemi : t.is .semicolon with
      | true => exact ⟨p, rfl, by simpa [Parser.dropBroken, hsemi] using hv⟩
      | false =>
        rw [if_neg (by simp), Cursor.bind_of_ok hv.peek, List.headD_cons]
        cases hstart : Parser.startsStatement next with
        | true => exact ⟨p, rfl, by simpa [Parser.dropBroken, hstart] using hv⟩
        | false =>
          rw [if_neg (by simp), Cursor.bind_of_ok (hv.advance rfl)]
          have hdrop : Parser.dropBroken (t :: next :: rest) = Parser.dropBroken (next :: rest) := by
            simp [Parser.dropBroken, hsemi, hstart]
          simp only [hdrop]
          exact ih (hv.next rfl) (Nat.lt_of_succ_lt_succ hn) (hv.previous rfl)

theorem synchronize {p : Position} {s : ParseState} (hv : View tokens eof e p s) :
    ∃ p', Cursor.synchronize tokens p = .ok () p' ∧
      View tokens eof e p' { s with rest := Parser.dropBroken s.rest } := by
  have hrun : Cursor.synchronize tokens p =
      (Cursor.advance >>= fun _ => Cursor.skip tokens.size) tokens p := rfl
  have hsize := hv.lt_size
  obtain ⟨ts, i, reports⟩ := s
  cases ts with
  | nil =>
    obtain ⟨t, ht⟩ := hv.advance_of_nil rfl
    obtain ⟨n, hn⟩ : ∃ n, tokens.size = n + 1 := ⟨tokens.size - 1, by omega⟩
    refine ⟨p, ?_, hv⟩
    rw [hrun, Cursor.bind_of_ok ht, hn, Cursor.skip, Cursor.bind_of_ok hv.atEnd]
    rfl
  | cons t rest =>
    have hlen : rest.length < tokens.size := by
      have hle := hv.length_rest
      rw [List.length_cons] at hle
      omega
    rw [hrun, Cursor.bind_of_ok (hv.advance rfl)]
    exact skip tokens.size (hv.next rfl) hlen (hv.previous rfl)

theorem recover {c : Cursor α} {x : Parser α} (h : Mirrors tokens eof e c x) :
    Mirrors tokens eof e (Cursor.recover c) (Parser.recover x Parser.dropBroken) := by
  intro p s hv
  have hrun := h p s hv
  unfold Cursor.recover Parser.recover
  cases hx : x eof s with
  | ok a s' =>
    rw [hx] at hrun
    obtain ⟨p', hp, hv'⟩ := hrun
    simp only [hp]
    exact ⟨p', rfl, hv'⟩
  | fault t cause s' =>
    rw [hx] at hrun
    obtain ⟨p', hp, hv'⟩ := hrun
    simp only [hp]
    obtain ⟨p₁, hnote, hv₁⟩ := note t cause p' s' hv'
    obtain ⟨p₂, hsync, hv₂⟩ := synchronize hv₁
    refine ⟨p₂, ?_, hv₂⟩
    rw [Cursor.bind_of_ok hnote, Cursor.bind_of_ok hsync]
    rfl
  | outOfFuel => trivial

end Mirrors

end

end Lox.Cursor
