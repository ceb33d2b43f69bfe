import Lox.Token.Scan

/-!
# Words

A token that is a word is of the kind that its text decides: an identifier is spelled as no reserved
word is, and a reserved word only as itself.
-/

namespace Lox

namespace Symbol

/-- Whether a symbol is an identifier or a reserved word. -/
def isWord (a : Symbol) : Bool := a = .identifier || (keywords.map Prod.snd).contains a

theorem mem_keywords_of_ofWord {w : String} {a : Symbol} (h : ofWord w = a) (ha : a ≠ .identifier) :
    (w, a) ∈ keywords := by
  unfold ofWord at h
  cases hl : keywords.lookup w with
  | none =>
    rw [hl] at h
    exact absurd h.symm ha
  | some b =>
    rw [hl] at h
    obtain rfl : b = a := h
    obtain ⟨l₁, l₂, heq, _⟩ := List.lookup_eq_some_iff.1 hl
    rw [heq]
    simp

theorem eq_this_of_ofWord {w : String} (h : ofWord w = .thisKw) : w = "this" := by
  have hm := mem_keywords_of_ofWord h (by decide)
  simpa [keywords] using hm

theorem eq_super_of_ofWord {w : String} (h : ofWord w = .superKw) : w = "super" := by
  have hm := mem_keywords_of_ofWord h (by decide)
  simpa [keywords] using hm

end Symbol

namespace Token

/-- A word is of the kind that its text decides. -/
def Spelled (t : Token) : Prop := ∀ a : Symbol, a.isWord → t.is a → Symbol.ofWord t.lexeme = a

variable {t : Token}

theorem Spelled.this (h : t.Spelled) (ht : t.is .thisKw) : t.lexeme = "this" :=
  Symbol.eq_this_of_ofWord (h _ (by decide) ht)

theorem Spelled.super (h : t.Spelled) (ht : t.is .superKw) : t.lexeme = "super" :=
  Symbol.eq_super_of_ofWord (h _ (by decide) ht)

theorem Spelled.identifier (h : t.Spelled) (ht : t.is .identifier) :
    t.lexeme ≠ "this" ∧ t.lexeme ≠ "super" := by
  have hw := h _ (by decide) ht
  constructor
  · intro heq
    rw [heq] at hw
    exact absurd hw (by decide)
  · intro heq
    rw [heq] at hw
    exact absurd hw (by decide)

end Token

namespace Scan

theorem withEqual_kind {long short a : Symbol} {c : Char} {cs : List Char}
    (h : (Lexeme.withEqual long short c cs).kind = .ok (.symbol a)) : a = long ∨ a = short := by
  unfold Lexeme.withEqual at h
  split at h
  · left
    simpa [Lexeme.ofSymbol] using h.symm
  · right
    simpa [Lexeme.ofSymbol] using h.symm

/-- Only `word` makes words. -/
theorem lexeme_spelled (c : Char) (cs : List Char) {a : Symbol}
    (h : (Lexeme.of c cs).kind = .ok (.symbol a)) (ha : a.isWord) :
    Symbol.ofWord (String.ofList (Lexeme.of c cs).chars) = a := by
  have hmark : ∀ b : Symbol, b.isWord = false → a ≠ b := by
    rintro b hb rfl
    rw [hb] at ha
    cases ha
  unfold Lexeme.of at h ⊢
  split at h
  case h_16 =>
    unfold Lexeme.string at h
    split at h <;> cases h
  case h_17 =>
    split at h
    · unfold Lexeme.number at h
      split at h
      · split at h <;> cases h
      · cases h
    · split at h
      · simp_all [Lexeme.word, Lexeme.ofSymbol]
      · cases h
  case h_12 | h_13 | h_14 | h_15 =>
    rcases withEqual_kind h with h | h
    · exact absurd h (hmark _ (by decide))
    · exact absurd h (hmark _ (by decide))
  all_goals
    simp only [Lexeme.ofSymbol, Except.ok.injEq, Kind.symbol.injEq] at h
    exact absurd h.symm (hmark _ (by decide))

theorem endAt_spelled (line : Nat) : (Token.endAt line).Spelled := by
  intro a ha h
  simp only [Token.endAt, Token.ofSymbol, Token.is, Kind.symbol.injEq, decide_eq_true_eq] at h
  subst h
  exact absurd ha (by decide)

theorem ofLexeme_spelled {line : Nat} {c : Char} {cs : List Char} {t : Token}
    (h : Item.token t = .ofLexeme line (Lexeme.of c cs)) : t.Spelled := by
  intro a ha hta
  unfold Item.ofLexeme at h
  split at h
  · rename_i kind hkind
    obtain rfl := Item.token.inj h
    refine lexeme_spelled c cs ?_ ha
    simpa [Token.is, hkind] using hta
  · cases h

theorem itemsFrom_spelled (line : Nat) (cs : List Char) :
    ∀ t, .token t ∈ itemsFrom line cs → t.Spelled := by
  fun_induction itemsFrom line cs with
  | case1 line cs here h =>
    intro t ht
    rw [List.mem_singleton] at ht
    obtain rfl := Item.token.inj ht
    exact endAt_spelled here
  | case2 line cs here c rest h x last ih =>
    intro t ht
    rcases List.mem_cons.1 ht with ht | ht
    · exact ofLexeme_spelled ht
    · exact ih t ht

/-- Every token of a source is spelled as its kind says. -/
theorem tokens_spelled (source : String) {t : Token} (h : t ∈ tokens source) : t.Spelled := by
  obtain ⟨item, hitem, ht⟩ := List.mem_filterMap.1 h
  cases item with
  | token u =>
    obtain rfl : u = t := by simpa [Item.token?] using ht
    exact itemsFrom_spelled _ _ u hitem
  | fault line cause => cases ht

end Scan

end Lox
