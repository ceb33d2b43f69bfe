import Lox.Proofs.Parser.Grammar
import Lox.Proofs.Parser.Steps
import Lox.Proofs.Tree.Marks

/-!
# Expressions that use a receiver

Whether `this` or `super` stands anywhere in an expression. Marks do not matter (`usesReceiver_unmarked`),
and in an expression that the grammar derives it shows in the words of the text:
`Grammar.Derives.usesReceiver`.
-/

namespace Lox

mutual

def Expr.usesReceiver : Expr ν → Bool
  | .assign _ _ e => e.usesReceiver
  | .binary l _ r => l.usesReceiver || r.usesReceiver
  | .call f _ args => f.usesReceiver || Expr.usesReceiverAll args
  | .get o _ => o.usesReceiver
  | .grouping e => e.usesReceiver
  | .literal _ => false
  | .logical l _ r => l.usesReceiver || r.usesReceiver
  | .set o _ e => o.usesReceiver || e.usesReceiver
  | .superRef _ _ _ => true
  | .thisRef _ _ => true
  | .unary _ e => e.usesReceiver
  | .variable _ _ => false

def Expr.usesReceiverAll : List (Expr ν) → Bool
  | [] => false
  | e :: es => e.usesReceiver || Expr.usesReceiverAll es

end

mutual

theorem Expr.usesReceiver_unmarked : ∀ e : Expr ν, e.unmarked.usesReceiver = e.usesReceiver
  | .assign _ _ e => e.usesReceiver_unmarked
  | .binary l _ r => by simp only [unmarked, usesReceiver, l.usesReceiver_unmarked, r.usesReceiver_unmarked]
  | .call f _ args => by
    simp only [unmarked, usesReceiver, f.usesReceiver_unmarked, Expr.usesReceiverAll_unmarked args]
  | .get o _ => o.usesReceiver_unmarked
  | .grouping e => e.usesReceiver_unmarked
  | .literal _ => rfl
  | .logical l _ r => by simp only [unmarked, usesReceiver, l.usesReceiver_unmarked, r.usesReceiver_unmarked]
  | .set o _ e => by simp only [unmarked, usesReceiver, o.usesReceiver_unmarked, e.usesReceiver_unmarked]
  | .superRef _ _ _ => rfl
  | .thisRef _ _ => rfl
  | .unary _ e => e.usesReceiver_unmarked
  | .variable _ _ => rfl

theorem Expr.usesReceiverAll_unmarked : ∀ es : List (Expr ν),
    Expr.usesReceiverAll (Expr.unmarkedAll es) = Expr.usesReceiverAll es
  | [] => rfl
  | e :: es => by
    simp only [unmarkedAll, usesReceiverAll, e.usesReceiver_unmarked, Expr.usesReceiverAll_unmarked es]

end

/-! ## Receivers in the text -/

/-- A keyword for a receiver. -/
def Token.namesReceiver (t : Token) : Bool := t.is .thisKw || t.is .superKw

namespace Grammar

theorem namesReceiver_of_is {t : Token} {a : Symbol} (h : t.is a = true) :
    t.namesReceiver = (decide (a = .thisKw) || decide (a = .superKw)) := by
  rw [Token.namesReceiver, Parser.is_eq_decide h, Parser.is_eq_decide h]

theorem namesReceiver_of_any {t : Token} {symbols : List Symbol} (h : symbols.any t.is = true)
    (hs : ∀ a ∈ symbols, a ≠ .thisKw ∧ a ≠ .superKw) : t.namesReceiver = false := by
  obtain ⟨a, ha, ht⟩ := List.any_eq_true.1 h
  simp [namesReceiver_of_is ht, hs a ha]

variable {ts : List Token}

/-- The commas between arguments name no receiver. -/
theorem Commas.usesReceiver {args : List (List Token × Expr ν)} (h : Commas (args.map Prod.fst) ts)
    (hargs : ∀ p ∈ args, p.1.any Token.namesReceiver = p.2.usesReceiver) :
    ts.any Token.namesReceiver = Expr.usesReceiverAll (args.map Prod.snd) := by
  generalize htss : args.map Prod.fst = tss at h
  induction h generalizing args with
  | none =>
    obtain rfl := List.map_eq_nil_iff.1 htss
    rfl
  | one =>
    obtain ⟨p, rest, rfl, rfl, hrest⟩ := List.map_eq_cons_iff.1 htss
    obtain rfl := List.map_eq_nil_iff.1 hrest
    simp [Expr.usesReceiverAll, hargs]
  | more hcomma _ ih =>
    obtain ⟨p, rest, rfl, rfl, hrest⟩ := List.map_eq_cons_iff.1 htss
    have hfirst := hargs p List.mem_cons_self
    have hothers := ih (fun q hq => hargs q (List.mem_cons_of_mem _ hq)) hrest
    simp [Expr.usesReceiverAll, hfirst, hothers, namesReceiver_of_is hcomma]

/-- A receiver stands in an expression exactly if a word for one stands in its text. -/
theorem Derives.usesReceiver {l : Level} {e : Expr ν} (h : Derives l ts e) :
    ts.any Token.namesReceiver = e.usesReceiver := by
  induction h with
  | tighter _ _ ih => exact ih
  | assign _ hx heq _ ih =>
    simp [Expr.usesReceiver, ih, namesReceiver_of_is hx, namesReceiver_of_is heq]
  | set _ hdot hx heq _ iho ihe =>
    simp [Expr.usesReceiver, iho, ihe, namesReceiver_of_is hdot, namesReceiver_of_is hx,
      namesReceiver_of_is heq]
  | @logical l _ _ _ _ _ hop _ _ iha ihb =>
    simp [Expr.usesReceiver, iha, ihb, namesReceiver_of_any hop (by cases l <;> decide)]
  | @binary l _ _ _ _ _ hop _ _ iha ihb =>
    simp [Expr.usesReceiver, iha, ihb, namesReceiver_of_any hop (by cases l <;> decide)]
  | unary hop _ ih =>
    rcases hop with hop | hop <;> simp [Expr.usesReceiver, ih, namesReceiver_of_is hop]
  | call _ hopen _ _ hcommas hclose ihf ihargs =>
    simp [Expr.usesReceiver, ihf, hcommas.usesReceiver ihargs, namesReceiver_of_is hopen,
      namesReceiver_of_is hclose]
  | get _ hdot hx ih =>
    simp [Expr.usesReceiver, ih, namesReceiver_of_is hdot, namesReceiver_of_is hx]
  | @literal t v hv =>
    have ht : t.namesReceiver = false := by
      cases hk : t.kind with
      | symbol a =>
        rw [hk] at hv
        cases a <;> cases hv <;> simp [Token.namesReceiver, Token.is, hk]
      | _ => simp [Token.namesReceiver, Token.is, hk]
    simp [Expr.usesReceiver, ht]
  | superRef _ hk => simp [Expr.usesReceiver, namesReceiver_of_is hk]
  | thisRef _ hk => simp [Expr.usesReceiver, namesReceiver_of_is hk]
  | «variable» _ hx => simp [Expr.usesReceiver, namesReceiver_of_is hx]
  | grouping hopen _ hclose ih =>
    simp [Expr.usesReceiver, ih, namesReceiver_of_is hopen, namesReceiver_of_is hclose]

end Grammar

end Lox
