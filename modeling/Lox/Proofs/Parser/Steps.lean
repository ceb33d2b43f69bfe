import Lox.Parser.Statement
import Lox.Proofs.Parser.Grammar
import Lox.Proofs.Reports
import Lox.Proofs.Tree.Marks

/-!
# Steps of a parser

How a run of a parser ends, as a condition on each of its three outcomes, and what it reads on the
way. A step takes tokens off the front, never gives an identity back and never takes back a report;
what it says about the tokens it took holds as long as it adds no report. The rules follow the
operations of the parser, and none of them mentions fuel but through the last outcome.
-/

namespace Lox.Parser

variable {eof : Token} {s s₁ s₂ : ParseState}

theorem kind_eq_of_is {t : Token} {a : Symbol} (h : t.is a = true) : t.kind = .symbol a := by
  simpa [Token.is] using h

theorem is_eq_decide {t : Token} {a : Symbol} (h : t.is a = true) (b : Symbol) :
    t.is b = decide (a = b) := by
  simp [Token.is, kind_eq_of_is h]

/-- An outcome meets the condition set for it. -/
def Ends (r : Parsed α) (ok : α → ParseState → Prop) (fault : ParseState → Prop) (dry : Prop) : Prop :=
  match r with
  | .ok a s => ok a s
  | .fault _ _ s => fault s
  | .outOfFuel => dry

namespace Ends

variable {P : α → ParseState → Prop} {Q : β → ParseState → Prop} {F F' : ParseState → Prop}
  {D D' : Prop}

theorem mono {P' : α → ParseState → Prop} {r : Parsed α} (h : Ends r P F D)
    (hp : ∀ a s, P a s → P' a s) (hf : ∀ s, F s → F' s) (hd : D → D') : Ends r P' F' D' := by
  cases r with
  | ok a s => exact hp a s h
  | fault t cause s => exact hf s h
  | outOfFuel => exact hd h

theorem bind {x : Parser α} {f : α → Parser β} (h : Ends (x eof s) P F D)
    (hok : ∀ a s', P a s' → Ends (f a eof s') Q F' D') (hf : ∀ s', F s' → F' s') (hd : D → D') :
    Ends ((x >>= f) eof s) Q F' D' := by
  have hx : (x >>= f) eof s = match x eof s with
      | .ok a s => f a eof s
      | .fault t cause s => .fault t cause s
      | .outOfFuel => .outOfFuel := rfl
  rw [hx]
  generalize x eof s = r at h
  cases r with
  | ok a s' => exact hok a s' h
  | fault t cause s' => exact hf s' h
  | outOfFuel => exact hd h

/-! ## Operations -/

theorem returned {a : α} (h : P a s) : Ends (.ok a s) P F D := h

theorem freshId {f : NodeId → Parser β}
    (h : Ends (f s.nextId eof { s with nextId := s.nextId + 1 }) Q F D) :
    Ends ((freshId >>= f) eof s) Q F D := h

theorem advance {f : Unit → Parser β}
    (h : Ends (f () eof { s with rest := s.rest.tail }) Q F D) :
    Ends ((advance >>= f) eof s) Q F D := h

theorem takeAny {ks : List Symbol} {f : Option Token → Parser β}
    (hsome : ∀ t rest, s.rest = t :: rest → ks.any t.is = true →
      Ends (f (some t) eof { s with rest }) Q F D)
    (hnone : (∀ t ∈ s.rest.head?, ks.any t.is = false) → Ends (f none eof s) Q F D) :
    Ends ((takeAny? ks >>= f) eof s) Q F D := by
  obtain ⟨ts, i, reports⟩ := s
  cases ts with
  | nil => exact hnone (by simp)
  | cons t rest =>
    by_cases ht : ks.any t.is = true
    · have hx : (takeAny? ks >>= f) eof ⟨t :: rest, i, reports⟩ =
          f (some t) eof ⟨rest, i, reports⟩ := by
        simp [Bind.bind, Parser.bind, takeAny?, ht]
      rw [hx]
      exact hsome t rest rfl ht
    · have hx : (takeAny? ks >>= f) eof ⟨t :: rest, i, reports⟩ =
          f none eof ⟨t :: rest, i, reports⟩ := by
        simp [Bind.bind, Parser.bind, takeAny?, ht]
      rw [hx]
      exact hnone (by simpa using ht)

theorem take {k : Symbol} {f : Option Token → Parser β}
    (hsome : ∀ t rest, s.rest = t :: rest → t.is k = true →
      Ends (f (some t) eof { s with rest }) Q F D)
    (hnone : (∀ t ∈ s.rest.head?, t.is k = false) → Ends (f none eof s) Q F D) :
    Ends ((take? k >>= f) eof s) Q F D := by
  refine takeAny ?_ ?_
  · intro t rest hs ht
    exact hsome t rest hs (by simpa using ht)
  · intro h
    exact hnone (by simpa using h)

theorem consume {k : Symbol} {cause : SyntaxFault} {f : Token → Parser β}
    (hok : ∀ t rest, s.rest = t :: rest → t.is k = true → Ends (f t eof { s with rest }) Q F D)
    (hfault : F s) : Ends ((consume k cause >>= f) eof s) Q F D := by
  obtain ⟨ts, i, reports⟩ := s
  cases ts with
  | nil => exact hfault
  | cons t rest =>
    by_cases ht : t.is k = true
    · have hx : (Parser.consume k cause >>= f) eof ⟨t :: rest, i, reports⟩ =
          f t eof ⟨rest, i, reports⟩ := by
        simp [Bind.bind, Parser.bind, Parser.consume, ht]
      rw [hx]
      exact hok t rest rfl ht
    · have hx : (Parser.consume k cause >>= f) eof ⟨t :: rest, i, reports⟩ =
          .fault t cause ⟨t :: rest, i, reports⟩ := by
        simp [Bind.bind, Parser.bind, Parser.consume, ht]
      rw [hx]
      exact hfault

theorem check {k : Symbol} {f : Bool → Parser β}
    (htrue : ∀ t rest, s.rest = t :: rest → t.is k = true → Ends (f true eof s) Q F D)
    (hfalse : (∀ t ∈ s.rest.head?, t.is k = false) → Ends (f false eof s) Q F D) :
    Ends ((check k >>= f) eof s) Q F D := by
  obtain ⟨ts, i, reports⟩ := s
  cases ts with
  | nil => exact hfalse (by simp)
  | cons t rest =>
    have hx : (Parser.check k >>= f) eof ⟨t :: rest, i, reports⟩ =
        f (t.is k) eof ⟨t :: rest, i, reports⟩ := rfl
    rw [hx]
    cases ht : t.is k with
    | true => exact htrue t rest rfl ht
    | false => exact hfalse (by simpa using ht)

end Ends

/-! ## What is read -/

/-- From one state to the next: the tokens between them are as `Q` says, if nothing was reported. -/
structure Reads (s s' : ParseState) (Q : List Token → Prop) : Prop where
  ids : s.nextId ≤ s'.nextId
  reports : Adds s.reports s'.reports
  tokens : ∃ ts, s.rest = ts ++ s'.rest ∧ (s'.reports = s.reports → Q ts)

namespace Reads

variable {Q R : List Token → Prop}

theorem refl (h : Q []) : Reads s s Q := ⟨Nat.le_refl _, .refl _, [], rfl, fun _ => h⟩

theorem mono (h : Reads s s₁ Q) (hq : ∀ ts, Q ts → R ts) : Reads s s₁ R := by
  obtain ⟨hi, hr, ts, hts, hQ⟩ := h
  exact ⟨hi, hr, ts, hts, fun he => hq ts (hQ he)⟩

theorem trans (h : Reads s s₁ Q) (h' : Reads s₁ s₂ R) :
    Reads s s₂ fun ts => ∃ us vs, ts = us ++ vs ∧ Q us ∧ R vs := by
  obtain ⟨hi, hr, us, hus, hQ⟩ := h
  obtain ⟨hi', hr', vs, hvs, hR⟩ := h'
  refine ⟨Nat.le_trans hi hi', hr.trans hr', us ++ vs, by rw [hus, hvs, List.append_assoc], ?_⟩
  intro he
  -- neither step added a report, since the two together added none
  obtain ⟨h₁, h₂⟩ := hr.eq_of_trans hr' he
  exact ⟨us, vs, rfl, hQ h₁, hR h₂⟩

theorem andThen (h : Reads s s₁ Q) (h' : Reads s₁ s₂ R) {P : List Token → Prop}
    (hp : ∀ us vs, Q us → R vs → P (us ++ vs)) : Reads s s₂ P := by
  refine (h.trans h').mono ?_
  rintro _ ⟨us, vs, rfl, hu, hv⟩
  exact hp us vs hu hv

theorem token {t : Token} {rest : List Token} (h : s.rest = t :: rest) :
    Reads s { s with rest } (· = [t]) :=
  ⟨Nat.le_refl _, .refl _, [t], h, fun _ => rfl⟩

theorem length_le (h : Reads s s₁ Q) : s₁.rest.length ≤ s.rest.length := by
  obtain ⟨_, _, ts, hts, _⟩ := h
  rw [hts, List.length_append]
  exact Nat.le_add_left _ _

/-- A step that adds a report says nothing about its tokens. -/
theorem noted (t : Token) (cause : SyntaxFault) :
    Reads s { s with reports := s.reports ++ [cause.report t] } Q :=
  ⟨Nat.le_refl _, .one _ rfl, [], rfl, fun h => by simp at h⟩

theorem fresh (h : Q []) : Reads s { s with nextId := s.nextId + 1 } Q :=
  ⟨Nat.le_succ _, .refl _, [], rfl, fun _ => h⟩

end Reads

/-- A step that stops at a fault. -/
abbrev Stops (s s' : ParseState) : Prop := Reads s s' fun _ => True

theorem Reads.stops {Q : List Token → Prop} (h : Reads s s₁ Q) : Stops s s₁ :=
  h.mono fun _ _ => trivial

theorem Reads.then_stops {Q : List Token → Prop} (h : Reads s s₁ Q) (h' : Stops s₁ s₂) : Stops s s₂ :=
  h.andThen h' fun _ _ _ _ => trivial

/-! ## Operations on a known token -/

section
variable {f : α → Parser β} {rest : List Token} {i : NodeId} {reports : List Report} {t : Token}
  {k : Symbol}

theorem bind_of_ok {x : Parser α} {a : α} (h : x eof s = .ok a s₁) :
    (x >>= f) eof s = f a eof s₁ := by
  have hx : (x >>= f) eof s = match x eof s with
      | .ok a s => f a eof s
      | .fault t cause s => .fault t cause s
      | .outOfFuel => .outOfFuel := rfl
  rw [hx, h]

theorem takeAny_of_any {ks : List Symbol} (h : ks.any t.is = true) :
    takeAny? ks eof ⟨t :: rest, i, reports⟩ = .ok (some t) ⟨rest, i, reports⟩ := by
  simp [takeAny?, h]

theorem takeAny_of_head {ks : List Symbol} (h : ∀ t ∈ rest.head?, ks.any t.is = false) :
    takeAny? ks eof ⟨rest, i, reports⟩ = .ok none ⟨rest, i, reports⟩ := by
  cases rest with
  | nil => rfl
  | cons t rest => simp [takeAny?, h t (by simp)]

theorem take_of_is (h : t.is k = true) :
    take? k eof ⟨t :: rest, i, reports⟩ = .ok (some t) ⟨rest, i, reports⟩ :=
  takeAny_of_any (by simpa using h)

theorem take_of_head (h : ∀ t ∈ rest.head?, t.is k = false) :
    take? k eof ⟨rest, i, reports⟩ = .ok none ⟨rest, i, reports⟩ :=
  takeAny_of_head (by simpa using h)

theorem consume_of_is {cause : SyntaxFault} (h : t.is k = true) :
    consume k cause eof ⟨t :: rest, i, reports⟩ = .ok t ⟨rest, i, reports⟩ := by
  simp [consume, h]

theorem check_of_is (h : t.is k = true) :
    check k eof ⟨t :: rest, i, reports⟩ = .ok true ⟨t :: rest, i, reports⟩ := by
  simp [check, h]

theorem check_of_head (h : ∀ t ∈ rest.head?, t.is k = false) :
    check k eof ⟨rest, i, reports⟩ = .ok false ⟨rest, i, reports⟩ := by
  cases rest with
  | nil => rfl
  | cons t rest => simp [check, h t (by simp)]

end

end Lox.Parser
