import Lox.Proofs.Parser.Grammar
import Lox.Proofs.Scoping.Places
import Lox.Proofs.Token.Words

/-!
# Trees that come from the grammar

What the rules of scope need of a tree besides its scopes, and what every derived tree has when its
tokens are spelled as their kinds say: declared and assigned names are not reserved, `this` and
`super` are spelled so, operators are operators, branches and loop bodies declare nothing, and a
superclass is a name.
-/

namespace Lox

/-- A name that is neither `this` nor `super`. -/
def Plain (x : String) : Prop := x ≠ "this" ∧ x ≠ "super"

mutual

def Expr.Formed : Expr ν → Prop
  | .assign _ x e => Plain x.lexeme ∧ e.Formed
  | .binary l op r => (∃ level : Grammar.Level, level.operators.any op.is) ∧ l.Formed ∧ r.Formed
  | .call f _ args => f.Formed ∧ Expr.FormedAll args
  | .get o _ => o.Formed
  | .grouping e => e.Formed
  | .literal _ => True
  | .logical l _ r => l.Formed ∧ r.Formed
  | .set o _ e => o.Formed ∧ e.Formed
  | .superRef _ kw _ => kw.lexeme = "super"
  | .thisRef _ kw => kw.lexeme = "this"
  | .unary op e => (op.is .bang ∨ op.is .minus) ∧ e.Formed
  | .variable _ _ => True

def Expr.FormedAll : List (Expr ν) → Prop
  | [] => True
  | e :: es => e.Formed ∧ Expr.FormedAll es

end

def Expr.FormedOpt : Option (Expr ν) → Prop
  | none => True
  | some e => e.Formed

/-- A superclass clause names a variable. -/
def Expr.IsParent : Option (Expr ν) → Prop
  | none => True
  | some e => ∃ k x, e = .variable k x

mutual

def Stmt.Formed : Stmt ν → Prop
  | .block body => Stmt.FormedAll body
  | .classDecl x parent methods =>
    Plain x.lexeme ∧ Expr.IsParent parent ∧ Stmt.FormedMethods methods
  | .expression e => e.Formed
  | .function decl => Plain decl.name.lexeme ∧ Stmt.FormedFun decl
  | .conditional c s t => c.Formed ∧ (s.declares? = none ∧ s.Formed) ∧ Stmt.FormedOpt t
  | .print _ e => e.Formed
  | .returning _ e => Expr.FormedOpt e
  | .varDecl x e => Plain x.lexeme ∧ Expr.FormedOpt e
  | .loop c s => c.Formed ∧ s.declares? = none ∧ s.Formed

def Stmt.FormedAll : List (Stmt ν) → Prop
  | [] => True
  | s :: ss => s.Formed ∧ Stmt.FormedAll ss

def Stmt.FormedOpt : Option (Stmt ν) → Prop
  | none => True
  | some s => s.declares? = none ∧ s.Formed

def Stmt.FormedFun : FunDecl (Stmt ν) → Prop
  | ⟨_, params, body⟩ => (∀ p ∈ params, Plain p.lexeme) ∧ Stmt.FormedAll body

def Stmt.FormedMethods : List (FunDecl (Stmt ν)) → Prop
  | [] => True
  | m :: ms => Stmt.FormedFun m ∧ Stmt.FormedMethods ms

end

theorem Expr.formedAll_of_forall {es : List (Expr ν)} (h : ∀ e ∈ es, e.Formed) :
    Expr.FormedAll es := by
  induction es with
  | nil => trivial
  | cons e es ih => exact ⟨h e (by simp), ih fun e' he => h e' (List.mem_cons_of_mem _ he)⟩

theorem Stmt.formedAll_of_forall {ss : List (Stmt ν)} (h : ∀ s ∈ ss, s.Formed) :
    Stmt.FormedAll ss := by
  induction ss with
  | nil => trivial
  | cons s ss ih => exact ⟨h s (by simp), ih fun s' hs => h s' (List.mem_cons_of_mem _ hs)⟩

theorem Stmt.formedMethods_of_forall {ms : List (FunDecl (Stmt ν))}
    (h : ∀ m ∈ ms, Stmt.FormedFun m) : Stmt.FormedMethods ms := by
  induction ms with
  | nil => trivial
  | cons m ms ih => exact ⟨h m (by simp), ih fun m' hm => h m' (List.mem_cons_of_mem _ hm)⟩

namespace Grammar

variable {ts us : List Token}

theorem Commas.mem {tss : List (List Token)} (h : Commas tss ts) {us : List Token} (hu : us ∈ tss) :
    ∀ t ∈ us, t ∈ ts := by
  induction h with
  | none => cases hu
  | one =>
    obtain rfl := List.mem_singleton.1 hu
    exact fun t ht => ht
  | more _ _ ih =>
    intro t ht
    rcases List.mem_cons.1 hu with rfl | hu
    · exact List.mem_append_left _ ht
    · exact List.mem_append_right _ (List.mem_cons_of_mem _ (ih hu t ht))

theorem formed_of_derives {l : Level} {e : Expr ν} (h : Derives l ts e)
    (hts : ∀ t ∈ ts, t.Spelled) : e.Formed := by
  induction h with
  | tighter _ _ ih => exact ih hts
  | assign _ hx _ _ ih =>
    exact ⟨(hts _ (by simp)).identifier hx, ih fun t ht => hts t (by simp [ht])⟩
  | set _ _ _ _ _ iho ihe =>
    exact ⟨iho fun t ht => hts t (by simp [ht]), ihe fun t ht => hts t (by simp [ht])⟩
  | logical _ _ _ iha ihb =>
    exact ⟨iha fun t ht => hts t (by simp [ht]), ihb fun t ht => hts t (by simp [ht])⟩
  | binary hop _ _ iha ihb =>
    exact ⟨⟨_, hop⟩, iha fun t ht => hts t (by simp [ht]), ihb fun t ht => hts t (by simp [ht])⟩
  | unary hop _ ih => exact ⟨hop, ih fun t ht => hts t (by simp [ht])⟩
  | @call _ _ _ us _ args _ _ _ _ hcommas _ ihf ihargs =>
    refine ⟨ihf fun t ht => hts t (by simp [ht]), Expr.formedAll_of_forall ?_⟩
    intro e he
    obtain ⟨p, hp, rfl⟩ := List.mem_map.1 he
    refine ihargs p hp ?_
    intro t ht
    have hus : t ∈ us := hcommas.mem (List.mem_map_of_mem hp) t ht
    exact hts t (by simp [hus])
  | get _ _ _ ih => exact ih fun t ht => hts t (by simp [ht])
  | literal => trivial
  | superRef _ hk => exact (hts _ (by simp)).super hk
  | thisRef _ hk => exact (hts _ (by simp)).this hk
  | «variable» => trivial
  | grouping _ _ _ ih => exact ih fun t ht => hts t (by simp [ht])

theorem formed_of_optional {e : Option (Expr ν)} (h : Optional ts e) (hts : ∀ t ∈ ts, t.Spelled) :
    Expr.FormedOpt e := by
  cases h with
  | none => trivial
  | some hd => exact formed_of_derives hd hts

theorem formed_of_varPhrase {s : Stmt ν} (h : VarPhrase ts s) (hts : ∀ t ∈ ts, t.Spelled) :
    s.Formed := by
  cases h with
  | bare _ hx => exact ⟨(hts _ (by simp)).identifier hx, trivial⟩
  | valued _ hx _ hd =>
    exact ⟨(hts _ (by simp)).identifier hx, formed_of_derives hd fun t ht => hts t (by simp [ht])⟩

theorem formed_of_exprPhrase {s : Stmt ν} (h : ExprPhrase ts s) (hts : ∀ t ∈ ts, t.Spelled) :
    s.Formed := by
  cases h with
  | mk hd => exact formed_of_derives hd fun t ht => hts t (by simp [ht])

/-- A statement proper declares no name in the scope it stands in. -/
theorem declares?_of_statement {dangling : Bool} {s : Stmt ν} (h : Forms (.statement dangling) ts s) :
    s.declares? = none := by
  cases h with
  | expression h =>
    cases h
    rfl
  | @forLoop _ _ _ _ _ _ _ _ _ i _ _ _ _ _ _ _ _ _ _ _ _ htree =>
    obtain rfl := forTree_iff.1 htree
    cases i <;> rfl
  | _ => rfl

theorem formed_forLoop {i : Option (Stmt ν)} {c u : Option (Expr ν)} {s : Stmt ν}
    (hi : ∀ t, i = some t → t.Formed) (hc : Expr.FormedOpt c) (hu : Expr.FormedOpt u)
    (hd : s.declares? = none) (hs : s.Formed) : (Stmt.forLoop i c u s).Formed := by
  have hbody : ∀ b : Stmt ν, b.declares? = none → b.Formed →
      (Stmt.loop (c.getD (.literal (.bool true))) b).Formed := by
    intro b hb hf
    refine ⟨?_, hb, hf⟩
    cases c with
    | none => trivial
    | some c => exact hc
  have hloop : (Stmt.forLoop none c u s).Formed := by
    cases u with
    | none => exact hbody s hd hs
    | some u => exact hbody _ rfl ⟨hs, hu, trivial⟩
  cases i with
  | none => exact hloop
  | some t => exact ⟨hi t rfl, hloop, trivial⟩

theorem formed_of_funPhrase {f : FunPhrase ν} (hf : ∀ t ∈ f.tokens, t.Spelled)
    (hbody : ∀ p ∈ f.body, p.2.Formed) : Stmt.FormedFun f.decl := by
  refine ⟨?_, Stmt.formedAll_of_forall ?_⟩
  · intro p hp
    have hlisted : p ∈ f.listed := by
      have hmem : [p] ∈ f.params.map ([·]) := List.mem_map.2 ⟨p, hp, rfl⟩
      exact f.listed_is.mem hmem p (by simp)
    exact (hf p (by simp [FunPhrase.tokens, hlisted])).identifier (f.params_are p hp)
  · intro s hs
    obtain ⟨p, hp, rfl⟩ := List.mem_map.1 hs
    exact hbody p hp

/-- The tokens of one phrase among those of several. -/
theorem mem_flatten_phrases {phrases : List α} {tokens : α → List Token} {p : α} (hp : p ∈ phrases) {t : Token}
    (ht : t ∈ tokens p) : t ∈ (phrases.map tokens).flatten :=
  List.mem_flatten.2 ⟨tokens p, List.mem_map_of_mem hp, ht⟩

theorem FunPhrase.mem_tokens (f : FunPhrase ν) {p : List Token × Stmt ν} (hp : p ∈ f.body) {t : Token}
    (ht : t ∈ p.1) : t ∈ f.tokens := by
  have hflat : t ∈ (f.body.map Prod.fst).flatten := mem_flatten_phrases hp ht
  simp [FunPhrase.tokens, hflat]

theorem formed_of_forms {r : Rank} {s : Stmt ν} (h : Forms r ts s) (hts : ∀ t ∈ ts, t.Spelled) :
    s.Formed := by
  induction h with
  | classDecl _ hx hparent _ _ _ ih =>
    refine ⟨(hts _ (by simp)).identifier hx, ?_, Stmt.formedMethods_of_forall ?_⟩
    · cases hparent with
      | none => trivial
      | some k => exact ⟨k, _, rfl⟩
    · intro m hm
      obtain ⟨f, hf, rfl⟩ := List.mem_map.1 hm
      have htokens : ∀ t ∈ f.tokens, t.Spelled := by
        intro t ht
        have hflat := mem_flatten_phrases hf ht
        exact hts t (List.mem_append_left _ (List.mem_append_right _ (List.mem_cons_of_mem _ hflat)))
      exact formed_of_funPhrase htokens fun p hp =>
        ih f hf p hp fun t ht => htokens t (f.mem_tokens hp ht)
  | function f _ _ ih =>
    refine ⟨?_, formed_of_funPhrase (fun t ht => hts t (by simp [ht])) fun p hp =>
      ih p hp fun t ht => hts t (by simp [f.mem_tokens hp ht])⟩
    exact (hts f.name (by simp [FunPhrase.tokens])).identifier f.name_is
  | varDecl h => exact formed_of_varPhrase h hts
  | statement _ ih => exact ih hts
  | expression h => exact formed_of_exprPhrase h hts
  | print _ hd => exact formed_of_derives hd fun t ht => hts t (by simp [ht])
  | returning _ he => exact formed_of_optional he fun t ht => hts t (by simp [ht])
  | block _ _ _ ih =>
    refine Stmt.formedAll_of_forall ?_
    intro s hs
    obtain ⟨p, hp, rfl⟩ := List.mem_map.1 hs
    refine ih p hp ?_
    intro t ht
    exact hts t (List.mem_append_left _ (List.mem_cons_of_mem _ (mem_flatten_phrases hp ht)))
  | loop _ _ hd _ hs ih =>
    exact ⟨formed_of_derives hd fun t ht => hts t (by simp [ht]), declares?_of_statement hs,
      ih fun t ht => hts t (by simp [ht])⟩
  | forLoop _ _ hi hc _ hu _ hs htree ih =>
    obtain rfl := forTree_iff.1 htree
    refine formed_forLoop ?_ (formed_of_optional hc fun t ht => hts t (by simp [ht]))
      (formed_of_optional hu fun t ht => hts t (by simp [ht])) (declares?_of_statement hs)
      (ih fun t ht => hts t (by simp [ht]))
    rintro t rfl
    cases hi with
    | declared h => exact formed_of_varPhrase h fun t ht => hts t (by simp [ht])
    | evaluated h => exact formed_of_exprPhrase h fun t ht => hts t (by simp [ht])
  | ifThen _ _ hd _ hs ih =>
    exact ⟨formed_of_derives hd fun t ht => hts t (by simp [ht]),
      ⟨declares?_of_statement hs, ih fun t ht => hts t (by simp [ht])⟩, trivial⟩
  | ifElse _ _ hd _ hs _ ht' ihs iht =>
    exact ⟨formed_of_derives hd fun t ht => hts t (by simp [ht]),
      ⟨declares?_of_statement hs, ihs fun t ht => hts t (by simp [ht])⟩,
      declares?_of_statement ht', iht fun t ht => hts t (by simp [ht])⟩

theorem formed_of_program {tree : List (Stmt ν)} (h : Program ts tree) (hts : ∀ t ∈ ts, t.Spelled) :
    Stmt.FormedAll tree := by
  cases h with
  | mk parts hparts =>
    refine Stmt.formedAll_of_forall ?_
    intro s hs
    obtain ⟨p, hp, rfl⟩ := List.mem_map.1 hs
    refine formed_of_forms (hparts p hp) ?_
    intro t ht
    exact hts t (mem_flatten_phrases hp ht)

end Grammar

end Lox
