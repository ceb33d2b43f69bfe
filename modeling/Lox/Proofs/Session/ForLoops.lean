import Lox.Proofs.Lexical.ForLoops
import Lox.Proofs.Session.Unreachable

/-!
# For loops of a session

Wherever a run comes to the statement that stands for a `for` loop, it does with its frames and distances
what the loop as such does with names and cells (`Lexical.Run.forLoop`): the same end, with the same error to
blame, the same output, and variables, fields and closures that still mirror each other; and it goes on for
ever if the loop does. Main statement: `forLoop_is_direct`.
-/

namespace Lox

open Lexical

/-! ## The text of a loop -/

/-- The text of a `for` loop and what its clauses and its body stand for. -/
inductive Grammar.ForText : List Token → Option (Stmt ν) → Option (Expr ν) → Option (Expr ν) → Stmt ν → Prop
  | mk {dangling : Bool} {keyword opening semicolon closing : Token} {ts us vs ws : List Token}
      {i : Option (Stmt ν)} {c u : Option (Expr ν)} {body : Stmt ν} : keyword.is .forKw →
      opening.is .leftParen → ForInit ts i → Optional us c → semicolon.is .semicolon → Optional vs u →
      closing.is .rightParen → Forms (.statement dangling) ws body →
      ForText (keyword :: opening :: ts ++ us ++ semicolon :: vs ++ closing :: ws) i c u body

/-- The body of a loop is a statement proper. -/
theorem Grammar.ForText.declares? {ts : List Token} {i : Option (Stmt ν)} {c u : Option (Expr ν)} {body : Stmt ν}
    (h : ForText ts i c u body) : body.declares? = none := by
  obtain ⟨_, _, _, _, _, _, _, hbody⟩ := h
  exact declares?_of_statement hbody

/-- A statement that begins with `for` is a loop. -/
theorem Grammar.forText_of_forms {dangling : Bool} {keyword : Token} {ts : List Token} {t : Stmt ν}
    (h : Forms (.statement dangling) (keyword :: ts) t) (hk : keyword.is .forKw) :
    ∃ i c u body, ForText (keyword :: ts) i c u body ∧ t = .forLoop i c u body := by
  -- the word that a phrase begins with tells the rules apart
  have hfirst : ∀ {a : Symbol} {k : Token} {us : List Token}, keyword :: ts = k :: us → k.is a → a = .forKw := by
    rintro a k us heq ha
    obtain ⟨rfl, -⟩ := List.cons.inj heq
    have heq := Parser.is_eq_decide ha .forKw
    rw [hk] at heq
    simpa using heq.symm
  generalize htokens : keyword :: ts = tokens at h
  cases h with
  | forLoop hk ho hi hc hs hu hclose hbody htree =>
    exact ⟨_, _, _, _, .mk hk ho hi hc hs hu hclose hbody, forTree_iff.1 htree⟩
  | expression he =>
    cases he with
    | mk hd hsemicolon =>
      have hended : Parser.Ended [.forKw] (keyword :: ts) := by
        rw [htokens]
        exact Parser.ended_of_derives hd (by decide)
      simpa [hk] using hended keyword rfl
  | print h => cases hfirst htokens h
  | returning h => cases hfirst htokens h
  | block h => cases hfirst htokens h
  | loop h => cases hfirst htokens h
  | ifThen h => cases hfirst htokens h
  | ifElse h => cases hfirst htokens h

/-! ## Runs -/

section
variable {clock : Clock} {limit : Option Nat} {rs : List Attempt} {r : Attempt}

theorem Lexical.Executes.outOfFuel_iff {N : Place ν → Prop} {O : FrameId → Site ν → Prop} {σ : Slots}
    {m : Machine ν} {scs : Scopes ν} {x : Lox.Result ν Flow} {y : Lexical.Result ν Flow}
    (h : Executes N O σ m scs x y) : x = .outOfFuel ↔ y = .outOfFuel := by
  cases h <;> simp

/-- A statement that begins with `for` is a loop, whose body declares nothing. Where a run comes to such a
loop, there is a state with cells that the machine mirrors, and from there the run and the loop as such end
alike, or neither ends. -/
theorem forLoop_is_direct (hist : Session.History clock limit rs r.session) :
    (∀ dangling keyword ts (t : Stmt NodeId), Grammar.Forms (.statement dangling) (keyword :: ts) t →
      keyword.is .forKw → ∃ i c u body, Grammar.ForText (keyword :: ts) i c u body ∧ t = .forLoop i c u body ∧
        body.declares? = none) ∧
    ∀ m i c u body, r.Visits (.exec (.forLoop i c u body), m) → body.declares? = none →
      ∃ σ s scs, Mirrors (Known (r :: rs)) (Opened (r :: rs)) σ m s ∧ Here (Opened (r :: rs)) σ scs none m s ∧
        (∀ n, Exec.exec r.distances n (.forLoop i c u body) m ≠ .outOfFuel →
          Executes (Known (r :: rs)) (Opened (r :: rs)) σ m scs
            (Exec.exec r.distances n (.forLoop i c u body) m) (Run.forLoop n i c u body s)) ∧
        ∀ n, Run.forLoop n i c u body s ≠ .outOfFuel →
          Executes (Known (r :: rs)) (Opened (r :: rs)) σ m scs
            (Exec.exec r.distances (n + 9) (.forLoop i c u body) m) (Run.forLoop n i c u body s) := by
  constructor
  · intro dangling keyword ts t h hk
    obtain ⟨i, c, u, body, htext, rfl⟩ := Grammar.forText_of_forms h hk
    exact ⟨i, c, u, body, htext, rfl, htext.declares?⟩
  intro m i c u body hv hd
  have hsteady := steady_of_history hist
  have hN : ∀ p, Known (r :: rs) p → p.Resolved r.distances :=
    fun p hp => (hsteady.known_resolved hv.1.parsed hp).1
  obtain ⟨⟨σ, s, hm, scs, hh, hs⟩, hw⟩ := matched_of_visits hsteady hv
  have hformed : (body.withIncrement u).Formed := by
    have htask : (Stmt.forLoop i c u body).Formed := (slotted_of_visits hist hv).1
    rw [Stmt.forLoop_eq] at htask
    cases i with
    | none => exact htask.2.2
    | some first => exact htask.2.1.2.2
  have hafter : (Stmt.forLoop i c u body).after scs = scs := by
    rw [Stmt.forLoop_eq]
    cases i <;> rfl
  have hagree : ∀ n, Executes (Known (r :: rs)) (Opened (r :: rs)) σ m scs
      (Exec.exec r.distances n (.forLoop i c u body) m) (Run.exec n (.forLoop i c u body) s) := by
    intro n
    have hrun := (lockstep hN n).exec _ hm hh hs hw
    rwa [hafter] at hrun
  refine ⟨σ, s, scs, hm, hh, fun n hn => ?_, fun n hn => ?_⟩
  · have hends : Run.exec n (.forLoop i c u body) s ≠ .outOfFuel := fun h => hn ((hagree n).outOfFuel_iff.2 h)
    rw [(Run.exec_forLoop hformed hd n).eq hends]
    exact hagree n
  · rw [← (Run.forLoop_exec hformed hd n).eq hn]
    exact hagree (n + 9)

/-- A loop with all clauses, whose body makes a closure over the loop variable. -/
def counting : Attempt :=
  ⟨.fresh ⟨fun _ => 0, 0⟩, "for (var i = nil; i == nil; i = true) { fun f() { return i; } f(); }"⟩

/-- The parts of a loop that has an initializer, a condition and an increment. -/
def Stmt.clauses? : Stmt ν → Option (Stmt ν × Expr ν × Expr ν × Stmt ν)
  | .block [first, .loop condition (.block [body, .expression increment])] =>
    some (first, condition, increment, body)
  | _ => none

theorem Stmt.eq_forLoop_of_clauses {t first body : Stmt ν} {condition increment : Expr ν}
    (h : t.clauses? = some (first, condition, increment, body)) :
    t = .forLoop (some first) (some condition) (some increment) body := by
  unfold clauses? at h
  split at h
  · cases h
    rfl
  · cases h

theorem counting_is_direct :
    ∃ i c u body, counting.Visits (.exec (.forLoop i c u body), counting.session.machine) ∧
      body.declares? = none ∧
      Exec.exec counting.distances 30 (.forLoop i c u body) counting.session.machine ≠ .outOfFuel ∧
      ∃ σ s, Mirrors (Known [counting]) (Opened [counting]) σ counting.session.machine s ∧
        Run.forLoop 30 i c u body s ≠ .outOfFuel := by
  have ha : counting.Accepted := ⟨by decide +kernel, by decide +kernel, by decide +kernel⟩
  have hfirst : (counting.tree.head?.map fun t => (t.clauses?.map (·.2.2.2.declares?),
      match Exec.exec counting.distances 30 t counting.session.machine with
      | .outOfFuel => false
      | _ => true)) = some (some none, true) := by
    decide +kernel
  obtain ⟨t, ht, heq⟩ := Option.map_eq_some_iff.1 hfirst
  obtain ⟨hclauses, hends⟩ := Prod.mk.inj heq
  obtain ⟨⟨first, c, u, body⟩, hparts, hd⟩ := Option.map_eq_some_iff.1 hclauses
  obtain rfl := Stmt.eq_forLoop_of_clauses hparts
  have hv : counting.Visits (.exec (.forLoop (some first) (some c) (some u) body), counting.session.machine) := by
    obtain ⟨rest, hrest⟩ := List.head?_eq_some_iff.1 ht
    exact ⟨ha, _, hrest ▸ .first, .refl⟩
  have hends : Exec.exec counting.distances 30 (.forLoop (some first) (some c) (some u) body)
      counting.session.machine ≠ .outOfFuel := by
    intro h
    rw [h] at hends
    cases hends
  obtain ⟨σ, s, scs, hm, _, hforth, _⟩ := (forLoop_is_direct (r := counting) .fresh).2 _ _ _ _ _ hv hd
  refine ⟨_, _, _, _, hv, hd, hends, σ, s, hm, fun h => hends ((hforth 30 hends).outOfFuel_iff.2 h)⟩

end

end Lox
