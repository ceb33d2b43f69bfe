import Lox.Proofs.Parser.Grammar
import Lox.Proofs.Parser.Steps

/-!
# Trees without loops

Whether a loop stands anywhere in a tree, the bodies of its functions and methods included. In a program
that the grammar derives, this shows in the words of the text: `Grammar.Program.loopless`.
-/

namespace Lox

mutual

def Stmt.loopless : Stmt ν → Bool
  | .block body => Stmt.looplessAll body
  | .classDecl _ _ methods => Stmt.looplessMethods methods
  | .expression _ => true
  | .function decl => Stmt.looplessFun decl
  | .conditional _ s t => s.loopless && Stmt.looplessOpt t
  | .print _ _ => true
  | .returning _ _ => true
  | .varDecl _ _ => true
  | .loop _ _ => false

def Stmt.looplessAll : List (Stmt ν) → Bool
  | [] => true
  | s :: ss => s.loopless && Stmt.looplessAll ss

def Stmt.looplessOpt : Option (Stmt ν) → Bool
  | none => true
  | some s => s.loopless

def Stmt.looplessFun : FunDecl (Stmt ν) → Bool
  | ⟨_, _, body⟩ => Stmt.looplessAll body

def Stmt.looplessMethods : List (FunDecl (Stmt ν)) → Bool
  | [] => true
  | m :: ms => Stmt.looplessFun m && Stmt.looplessMethods ms

end

theorem Stmt.looplessAll_iff {ss : List (Stmt ν)} :
    Stmt.looplessAll ss = true ↔ ∀ s ∈ ss, s.loopless = true := by
  induction ss with
  | nil => simp [Stmt.looplessAll]
  | cons s ss ih => simp [Stmt.looplessAll, ih]

theorem Stmt.looplessOpt_iff {s : Option (Stmt ν)} :
    Stmt.looplessOpt s = true ↔ ∀ t ∈ s, t.loopless = true := by
  cases s <;> simp [Stmt.looplessOpt]

theorem Stmt.looplessFun_iff {f : FunDecl (Stmt ν)} :
    Stmt.looplessFun f = true ↔ ∀ s ∈ f.body, s.loopless = true := by
  cases f
  exact Stmt.looplessAll_iff

theorem Stmt.looplessMethods_iff {ms : List (FunDecl (Stmt ν))} :
    Stmt.looplessMethods ms = true ↔ ∀ m ∈ ms, Stmt.looplessFun m = true := by
  induction ms with
  | nil => simp [Stmt.looplessMethods]
  | cons m ms ih => simp [Stmt.looplessMethods, ih]

/-! ## Loops in the text -/

/-- A keyword that loops begin with. -/
def Token.opensLoop (t : Token) : Bool := t.is .whileKw || t.is .forKw

namespace Grammar

theorem opensLoop_of_is {t : Token} {a : Symbol} (h : t.is a = true) :
    t.opensLoop = (decide (a = .whileKw) || decide (a = .forKw)) := by
  rw [Token.opensLoop, Parser.is_eq_decide h, Parser.is_eq_decide h]

theorem opensLoop_of_any {t : Token} {symbols : List Symbol} (h : symbols.any t.is = true)
    (hs : ∀ a ∈ symbols, a ≠ .whileKw ∧ a ≠ .forKw) : t.opensLoop = false := by
  obtain ⟨a, ha, ht⟩ := List.any_eq_true.1 h
  simp [opensLoop_of_is ht, hs a ha]

variable {ts : List Token}

/-- The commas between phrases begin no loop. -/
theorem Commas.opensLoop {tss : List (List Token)} (h : Commas tss ts)
    (hs : ∀ us ∈ tss, us.any Token.opensLoop = false) : ts.any Token.opensLoop = false := by
  induction h with
  | none => rfl
  | one => exact hs _ (by simp)
  | more hcomma _ ih =>
    have hfirst := hs _ List.mem_cons_self
    have hrest := ih fun us hus => hs us (List.mem_cons_of_mem _ hus)
    simp [hfirst, hrest, opensLoop_of_is hcomma]

/-- No loop begins in an expression. -/
theorem Derives.opensLoop {l : Level} {e : Expr ν} (h : Derives l ts e) : ts.any Token.opensLoop = false := by
  induction h with
  | tighter _ _ ih => exact ih
  | assign _ hx heq _ ih =>
    simp [ih, opensLoop_of_is hx, opensLoop_of_is heq]
  | set _ hdot hx heq _ iho ihe =>
    simp [iho, ihe, opensLoop_of_is hdot, opensLoop_of_is hx,
      opensLoop_of_is heq]
  | @logical l _ _ _ _ _ hop _ _ iha ihb =>
    simp [iha, ihb, opensLoop_of_any hop (by cases l <;> decide)]
  | @binary l _ _ _ _ _ hop _ _ iha ihb =>
    simp [iha, ihb, opensLoop_of_any hop (by cases l <;> decide)]
  | unary hop _ ih =>
    rcases hop with hop | hop <;> simp [ih, opensLoop_of_is hop]
  | call _ hopen _ _ hcommas hclose ihf ihargs =>
    have hargs := hcommas.opensLoop fun us hus => by
      obtain ⟨p, hp, rfl⟩ := List.mem_map.1 hus
      exact ihargs p hp
    simp [ihf, hargs, opensLoop_of_is hopen, opensLoop_of_is hclose]
  | get _ hdot hx ih =>
    simp [ih, opensLoop_of_is hdot, opensLoop_of_is hx]
  | @literal t v hv =>
    have ht : t.opensLoop = false := by
      cases hk : t.kind with
      | symbol a =>
        rw [hk] at hv
        cases a <;> cases hv <;> simp [Token.opensLoop, Token.is, hk]
      | _ => simp [Token.opensLoop, Token.is, hk]
    simp [ht]
  | superRef _ hk hdot hx =>
    simp [opensLoop_of_is hk, opensLoop_of_is hdot, opensLoop_of_is hx]
  | thisRef _ hk => simp [opensLoop_of_is hk]
  | «variable» _ hx => simp [opensLoop_of_is hx]
  | grouping hopen _ hclose ih =>
    simp [ih, opensLoop_of_is hopen, opensLoop_of_is hclose]

theorem Optional.opensLoop {e : Option (Expr ν)} (h : Optional ts e) : ts.any Token.opensLoop = false := by
  cases h with
  | none => rfl
  | some hd => exact hd.opensLoop

theorem VarPhrase.loopless {s : Stmt ν} (h : VarPhrase ts s) :
    s.loopless = true ∧ ts.any Token.opensLoop = false := by
  cases h with
  | bare hk hx hs => simp [Stmt.loopless, opensLoop_of_is hk, opensLoop_of_is hx, opensLoop_of_is hs]
  | valued hk hx heq hd hs =>
    simp [Stmt.loopless, hd.opensLoop, opensLoop_of_is hk, opensLoop_of_is hx, opensLoop_of_is heq,
      opensLoop_of_is hs]

theorem ExprPhrase.loopless {s : Stmt ν} (h : ExprPhrase ts s) :
    s.loopless = true ∧ ts.any Token.opensLoop = false := by
  cases h with
  | mk hd hs => simp [Stmt.loopless, hd.opensLoop, opensLoop_of_is hs]

theorem loopless_forLoop (i : Option (Stmt ν)) (c u : Option (Expr ν)) (s : Stmt ν) :
    (Stmt.forLoop i c u s).loopless = false := by
  cases i <;> simp [Stmt.forLoop, Stmt.loopless, Stmt.looplessAll]

/-- What is true of each part is true of the parts in a row. -/
theorem looplessAll_of_parts {parts : List (List Token × Stmt ν)}
    (h : ∀ p ∈ parts, p.2.loopless = !p.1.any Token.opensLoop) :
    Stmt.looplessAll (parts.map Prod.snd) = !(parts.map Prod.fst).flatten.any Token.opensLoop := by
  induction parts with
  | nil => rfl
  | cons p parts ih =>
    have hrest := ih fun q hq => h q (List.mem_cons_of_mem _ hq)
    simp only [List.map_cons, Stmt.looplessAll, List.flatten_cons, List.any_append, Bool.not_or,
      h p List.mem_cons_self, hrest]

theorem FunPhrase.loopless (f : FunPhrase ν) (h : ∀ p ∈ f.body, p.2.loopless = !p.1.any Token.opensLoop) :
    Stmt.looplessFun f.decl = !f.tokens.any Token.opensLoop := by
  have hlisted : f.listed.any Token.opensLoop = false := by
    refine f.listed_is.opensLoop fun us hus => ?_
    obtain ⟨p, hp, rfl⟩ := List.mem_map.1 hus
    simp [opensLoop_of_is (f.params_are p hp)]
  rw [FunPhrase.decl, Stmt.looplessFun, looplessAll_of_parts h]
  simp [FunPhrase.tokens, hlisted, opensLoop_of_is f.name_is, opensLoop_of_is f.opening_is,
    opensLoop_of_is f.closing_is, opensLoop_of_is f.left_is, opensLoop_of_is f.right_is]

theorem looplessMethods_of_phrases {fs : List (FunPhrase ν)}
    (h : ∀ f ∈ fs, Stmt.looplessFun f.decl = !f.tokens.any Token.opensLoop) :
    Stmt.looplessMethods (fs.map FunPhrase.decl) =
      !(fs.map FunPhrase.tokens).flatten.any Token.opensLoop := by
  induction fs with
  | nil => rfl
  | cons f fs ih =>
    have hrest := ih fun g hg => h g (List.mem_cons_of_mem _ hg)
    simp only [List.map_cons, Stmt.looplessMethods, List.flatten_cons, List.any_append, Bool.not_or,
      h f List.mem_cons_self, hrest]

theorem Superclass.opensLoop {parent : Option (Expr ν)} (h : Superclass ts parent) :
    ts.any Token.opensLoop = false := by
  cases h with
  | none => rfl
  | some _ hless hx => simp [opensLoop_of_is hless, opensLoop_of_is hx]

/-- A loop stands in a statement exactly if a word that begins one stands in its text. -/
theorem Forms.loopless {r : Rank} {s : Stmt ν} (h : Forms r ts s) :
    s.loopless = !ts.any Token.opensLoop := by
  induction h with
  | classDecl hk hx hparent hleft _ hright ih =>
    have hmethods := looplessMethods_of_phrases fun f hf => f.loopless (ih f hf)
    simp [Stmt.loopless, hmethods, hparent.opensLoop, opensLoop_of_is hk, opensLoop_of_is hx,
      opensLoop_of_is hleft, opensLoop_of_is hright]
  | function f hk _ ih => simp [Stmt.loopless, f.loopless ih, opensLoop_of_is hk]
  | varDecl hv => simp [hv.loopless]
  | statement _ ih => exact ih
  | expression he => simp [he.loopless]
  | print hk hd hs => simp [Stmt.loopless, hd.opensLoop, opensLoop_of_is hk, opensLoop_of_is hs]
  | returning hk ho hs => simp [Stmt.loopless, ho.opensLoop, opensLoop_of_is hk, opensLoop_of_is hs]
  | block hleft _ hright ih =>
    simp [Stmt.loopless, looplessAll_of_parts ih, opensLoop_of_is hleft, opensLoop_of_is hright]
  | loop hk => simp [Stmt.loopless, opensLoop_of_is hk]
  | forLoop hk _ _ _ _ _ _ _ htree =>
    simp [forTree_iff.1 htree, loopless_forLoop, opensLoop_of_is hk]
  | ifThen hk hopen hc hclose _ ih =>
    simp [Stmt.loopless, Stmt.looplessOpt, ih, hc.opensLoop, opensLoop_of_is hk, opensLoop_of_is hopen,
      opensLoop_of_is hclose]
  | ifElse hk hopen hc hclose _ helse _ ihs iht =>
    simp [Stmt.loopless, Stmt.looplessOpt, ihs, iht, hc.opensLoop, opensLoop_of_is hk,
      opensLoop_of_is hopen, opensLoop_of_is hclose, opensLoop_of_is helse]

theorem Program.loopless {tree : List (Stmt ν)} (h : Program ts tree) :
    Stmt.looplessAll tree = !ts.any Token.opensLoop := by
  cases h with
  | mk parts hparts => exact looplessAll_of_parts fun p hp => (hparts p hp).loopless

end Grammar

end Lox
