import Lox.Proofs.Scoping.Resolution
import Lox.Proofs.Tree.Renaming

/-!
# Distances belong to the text

A program with every mark replaced by the distance that the scopes of its text give it. Resolved
distances are these (`Stmt.renameAll_of_scoped`), so two programs of one shape have the same
distances at the same nodes, whatever the identities of their nodes: `Stmt.renameAll_eq_of_shape`.
-/

namespace Lox

/-- The distance of an assignment: a variable that waits for its initializer lies in the innermost
scope. -/
def Scopes.target? (scopes : Scopes ν) (pending : Option String) (x : String) : Option Nat :=
  if pending = some x then some 0 else scopes.distance? x

mutual

def Expr.indexed (scopes : Scopes ν) (pending : Option String) : Expr ν → Expr (Option Nat)
  | .assign _ x e => .assign (scopes.target? pending x.lexeme) x (e.indexed scopes pending)
  | .binary l op r => .binary (l.indexed scopes pending) op (r.indexed scopes pending)
  | .call f paren args => .call (f.indexed scopes pending) paren (Expr.indexedAll scopes pending args)
  | .get o x => .get (o.indexed scopes pending) x
  | .grouping e => .grouping (e.indexed scopes pending)
  | .literal v => .literal v
  | .logical l op r => .logical (l.indexed scopes pending) op (r.indexed scopes pending)
  | .set o x e => .set (o.indexed scopes pending) x (e.indexed scopes pending)
  | .superRef _ kw x => .superRef (scopes.distance? kw.lexeme) kw x
  | .thisRef _ kw => .thisRef (scopes.distance? kw.lexeme) kw
  | .unary op e => .unary op (e.indexed scopes pending)
  | .variable _ x => .variable (scopes.distance? x.lexeme) x

def Expr.indexedAll (scopes : Scopes ν) (pending : Option String) : List (Expr ν) → List (Expr (Option Nat))
  | [] => []
  | e :: es => e.indexed scopes pending :: Expr.indexedAll scopes pending es

end

def Expr.indexedOpt (scopes : Scopes ν) (pending : Option String) : Option (Expr ν) → Option (Expr (Option Nat))
  | none => none
  | some e => some (e.indexed scopes pending)

mutual

def Stmt.indexed (scopes : Scopes ν) : Stmt ν → Stmt (Option Nat)
  | .block body => .block (Stmt.indexedAll (.ofBlock body :: scopes) body)
  | .classDecl x parent methods =>
    .classDecl x (Expr.indexedOpt scopes none parent)
      (Stmt.indexedMethods (scopes.ofClass x.lexeme parent.isSome methods) methods)
  | .expression e => .expression (e.indexed scopes none)
  | .function decl => .function (Stmt.indexedFun (scopes.declare decl.name.lexeme) decl)
  | .conditional c s t =>
    .conditional (c.indexed scopes none) (s.indexed scopes) (Stmt.indexedOpt scopes t)
  | .print kw e => .print kw (e.indexed scopes none)
  | .returning kw e => .returning kw (Expr.indexedOpt scopes none e)
  | .varDecl x e => .varDecl x (Expr.indexedOpt scopes (scopes.waiting x.lexeme) e)
  | .loop c s => .loop (c.indexed scopes none) (s.indexed scopes)

def Stmt.indexedAll (scopes : Scopes ν) : List (Stmt ν) → List (Stmt (Option Nat))
  | [] => []
  | s :: ss => s.indexed scopes :: Stmt.indexedAll (s.after scopes) ss

def Stmt.indexedOpt (scopes : Scopes ν) : Option (Stmt ν) → Option (Stmt (Option Nat))
  | none => none
  | some s => some (s.indexed scopes)

def Stmt.indexedFun (scopes : Scopes ν) : FunDecl (Stmt ν) → FunDecl (Stmt (Option Nat))
  | ⟨x, params, body⟩ => ⟨x, params, Stmt.indexedAll (.ofFunction ⟨x, params, body⟩ :: scopes) body⟩

def Stmt.indexedMethods (scopes : Scopes ν) : List (FunDecl (Stmt ν)) → List (FunDecl (Stmt (Option Nat)))
  | [] => []
  | m :: ms => Stmt.indexedFun (.ofReceiver m :: scopes) m :: Stmt.indexedMethods scopes ms

end

/-! ## Scopes with the same names -/

/-- Scopes that hold the same names one for one, whatever opened them. -/
def Scopes.Alike (a : Scopes ν) (b : Scopes ν') : Prop := a.map (·.names) = b.map (·.names)

namespace Scopes.Alike

variable {a : Scopes ν} {b : Scopes ν'}

theorem nil : Alike ([] : Scopes ν) ([] : Scopes ν') := rfl

theorem cons (h : Alike a b) {s : LexicalScope ν} {t : LexicalScope ν'} (hs : s.names = t.names) :
    Alike (s :: a) (t :: b) := by
  have hnames : a.map (·.names) = b.map (·.names) := h
  simp [Alike, hs, hnames]

theorem distance? (h : Alike a b) (x : String) : a.distance? x = b.distance? x := by
  have hindex : ∀ {μ : Type} (s : Scopes μ), s.distance? x = (s.map (·.names)).findIdx? (x ∈ ·) := by
    intro μ s
    rw [List.findIdx?_map]
    rfl
  rw [hindex, hindex, h]

theorem target? (h : Alike a b) (pending : Option String) (x : String) :
    a.target? pending x = b.target? pending x := by
  rw [Scopes.target?, Scopes.target?, h.distance?]

theorem waiting (h : Alike a b) (x : String) : a.waiting x = b.waiting x := by
  cases a <;> cases b <;> simp_all [Alike, Scopes.waiting]

theorem declare (h : Alike a b) (x : String) : Alike (a.declare x) (b.declare x) := by
  cases a <;> cases b <;> simp_all [Alike, Scopes.declare]

theorem ofClass (h : Alike a b) (x : String) (derived : Bool) (ms : List (FunDecl (Stmt ν)))
    (ns : List (FunDecl (Stmt ν'))) : Alike (a.ofClass x derived ms) (b.ofClass x derived ns) := by
  unfold Scopes.ofClass
  split
  · exact (h.declare x).cons rfl
  · exact h.declare x

theorem after (h : Alike a b) (ρ : Renaming ν ν') (s : Stmt ν) :
    Alike (s.after a) ((s.rename ρ).after b) := by
  have hdeclares : (s.rename ρ).declares? = s.declares? := by
    cases s with
    | function f => cases f; rfl
    | _ => rfl
  unfold Stmt.after
  rw [hdeclares]
  cases s.declares? with
  | none => exact h
  | some x => exact h.declare x

end Scopes.Alike

/-! ## Resolved distances -/

section
variable {d : ν → Option Nat} (g : Nat → Nat)

mutual

theorem Expr.rename_of_scoped : ∀ (e : Expr ν) {scopes : Scopes ν} {names : Scopes Unit}
    {pending : Option String}, scopes.Alike names → e.Scoped (·.Resolved d) scopes pending →
      e.rename ⟨d, g⟩ = (e.rename (.shape g)).indexed names pending
  | .assign k x e, _, _, _, ha, h => by
    have hk : d k = Scopes.target? _ _ x.lexeme := h.2
    simp [Expr.rename, Expr.indexed, e.rename_of_scoped ha h.1, hk, ha.target?, Renaming.shape]
  | .binary l _ r, _, _, _, ha, h => by
    simp [Expr.rename, Expr.indexed, l.rename_of_scoped ha h.1, r.rename_of_scoped ha h.2, Renaming.shape]
  | .call f _ args, _, _, _, ha, h => by
    simp [Expr.rename, Expr.indexed, f.rename_of_scoped ha h.1, Expr.renameAll_of_scoped args ha h.2,
      Renaming.shape]
  | .get o _, _, _, _, ha, h => by simp [Expr.rename, Expr.indexed, o.rename_of_scoped ha h, Renaming.shape]
  | .grouping e, _, _, _, ha, h => by simp [Expr.rename, Expr.indexed, e.rename_of_scoped ha h]
  | .literal _, _, _, _, _, _ => rfl
  | .logical l _ r, _, _, _, ha, h => by
    simp [Expr.rename, Expr.indexed, l.rename_of_scoped ha h.1, r.rename_of_scoped ha h.2, Renaming.shape]
  | .set o _ e, _, _, _, ha, h => by
    simp [Expr.rename, Expr.indexed, o.rename_of_scoped ha h.1, e.rename_of_scoped ha h.2, Renaming.shape]
  | .superRef k kw _, _, _, _, ha, h => by
    have hk : d k = Scopes.distance? _ kw.lexeme := h.1.2
    simp [Expr.rename, Expr.indexed, hk, ha.distance?, Renaming.shape]
  | .thisRef k kw, _, _, _, ha, h => by
    have hk : d k = Scopes.distance? _ kw.lexeme := h.2
    simp [Expr.rename, Expr.indexed, hk, ha.distance?, Renaming.shape]
  | .unary _ e, _, _, _, ha, h => by
    simp [Expr.rename, Expr.indexed, e.rename_of_scoped ha h, Renaming.shape]
  | .variable k x, _, _, _, ha, h => by
    have hk : d k = Scopes.distance? _ x.lexeme := h.2
    simp [Expr.rename, Expr.indexed, hk, ha.distance?, Renaming.shape]

theorem Expr.renameAll_of_scoped : ∀ (es : List (Expr ν)) {scopes : Scopes ν} {names : Scopes Unit}
    {pending : Option String}, scopes.Alike names → Expr.ScopedAll (·.Resolved d) scopes pending es →
      Expr.renameAll ⟨d, g⟩ es = Expr.indexedAll names pending (Expr.renameAll (.shape g) es)
  | [], _, _, _, _, _ => rfl
  | e :: es, _, _, _, ha, h => by
    simp [Expr.renameAll, Expr.indexedAll, e.rename_of_scoped ha h.1, Expr.renameAll_of_scoped es ha h.2]

end

theorem Expr.renameOpt_of_scoped (e : Option (Expr ν)) {scopes : Scopes ν} {names : Scopes Unit}
    {pending : Option String} (ha : scopes.Alike names) (h : Expr.ScopedOpt (·.Resolved d) scopes pending e) :
    Expr.renameOpt ⟨d, g⟩ e = Expr.indexedOpt names pending (Expr.renameOpt (.shape g) e) := by
  cases e with
  | none => rfl
  | some e => simp [Expr.renameOpt, Expr.indexedOpt, e.rename_of_scoped g ha h]

mutual

theorem Stmt.rename_of_scoped : ∀ (s : Stmt ν) {scopes : Scopes ν} {names : Scopes Unit},
    scopes.Alike names → s.Scoped (·.Resolved d) scopes →
      s.rename ⟨d, g⟩ = (s.rename (.shape g)).indexed names
  | .block body, _, _, ha, h => by
    have hbody := ha.cons (t := .ofBlock (Stmt.renameAll (.shape g) body)) (s := .ofBlock body) rfl
    rw [Stmt.rename, Stmt.rename, Stmt.indexed, Stmt.renameAll_of_scoped body hbody h]
  | .classDecl x parent methods, _, _, ha, h => by
    rw [Stmt.rename, Stmt.rename, Stmt.indexed, Expr.renameOpt_of_scoped g parent ha h.2.1,
      Expr.isSome_renameOpt, Stmt.renameMethods_of_scoped methods (ha.ofClass _ _ _ _) h.2.2]
    rfl
  | .expression e, _, _, ha, h => by simp [Stmt.rename, Stmt.indexed, e.rename_of_scoped g ha h]
  | .function f, _, _, ha, h => by
    rw [Stmt.rename, Stmt.rename, Stmt.indexed, Stmt.renameFun_of_scoped f (ha.declare _) h.2]
    cases f
    rfl
  | .conditional c s t, _, _, ha, h => by
    simp [Stmt.rename, Stmt.indexed, c.rename_of_scoped g ha h.1, s.rename_of_scoped ha h.2.1.2,
      Stmt.renameOpt_of_scoped t ha h.2.2]
  | .print _ e, _, _, ha, h => by
    simp [Stmt.rename, Stmt.indexed, e.rename_of_scoped g ha h, Renaming.shape]
  | .returning _ e, _, _, ha, h => by
    simp [Stmt.rename, Stmt.indexed, Expr.renameOpt_of_scoped g e ha h, Renaming.shape]
  | .varDecl x e, _, _, ha, h => by
    simp [Stmt.rename, Stmt.indexed, Expr.renameOpt_of_scoped g e ha h.2, ha.waiting, Renaming.shape]
  | .loop c s, _, _, ha, h => by
    simp [Stmt.rename, Stmt.indexed, c.rename_of_scoped g ha h.1, s.rename_of_scoped ha h.2.2]

theorem Stmt.renameAll_of_scoped : ∀ (ss : List (Stmt ν)) {scopes : Scopes ν} {names : Scopes Unit},
    scopes.Alike names → Stmt.ScopedAll (·.Resolved d) scopes ss →
      Stmt.renameAll ⟨d, g⟩ ss = Stmt.indexedAll names (Stmt.renameAll (.shape g) ss)
  | [], _, _, _, _ => rfl
  | s :: ss, _, _, ha, h => by
    rw [Stmt.renameAll, Stmt.renameAll, Stmt.indexedAll, s.rename_of_scoped ha h.1,
      Stmt.renameAll_of_scoped ss (ha.after (.shape g) s) h.2]

theorem Stmt.renameOpt_of_scoped : ∀ (s : Option (Stmt ν)) {scopes : Scopes ν} {names : Scopes Unit},
    scopes.Alike names → Stmt.ScopedOpt (·.Resolved d) scopes s →
      Stmt.renameOpt ⟨d, g⟩ s = Stmt.indexedOpt names (Stmt.renameOpt (.shape g) s)
  | none, _, _, _, _ => rfl
  | some s, _, _, ha, h => by simp [Stmt.renameOpt, Stmt.indexedOpt, s.rename_of_scoped ha h.2]

theorem Stmt.renameFun_of_scoped : ∀ (f : FunDecl (Stmt ν)) {scopes : Scopes ν} {names : Scopes Unit},
    scopes.Alike names → Stmt.ScopedFun (·.Resolved d) scopes f →
      Stmt.renameFun ⟨d, g⟩ f = Stmt.indexedFun names (Stmt.renameFun (.shape g) f)
  | ⟨x, params, body⟩, _, _, ha, h => by
    rw [Stmt.renameFun, Stmt.renameFun, Stmt.indexedFun]
    refine congrArg (FunDecl.mk _ _) (Stmt.renameAll_of_scoped body (ha.cons ?_) h.2.2)
    simp [LexicalScope.ofFunction, Function.comp_def]

theorem Stmt.renameMethods_of_scoped : ∀ (ms : List (FunDecl (Stmt ν))) {scopes : Scopes ν}
    {names : Scopes Unit}, scopes.Alike names → Stmt.ScopedMethods (·.Resolved d) scopes ms →
      Stmt.renameMethods ⟨d, g⟩ ms = Stmt.indexedMethods names (Stmt.renameMethods (.shape g) ms)
  | [], _, _, _, _ => rfl
  | m :: ms, _, _, ha, h => by
    have hmethod := ha.cons (t := .ofReceiver (Stmt.renameFun (.shape g) m)) (s := .ofReceiver m) rfl
    rw [Stmt.renameMethods, Stmt.renameMethods, Stmt.indexedMethods,
      Stmt.renameFun_of_scoped m hmethod h.1, Stmt.renameMethods_of_scoped ms ha h.2]

end

end

/-- Statements at the top level have their distances each for itself. -/
theorem Stmt.indexedAll_append (ts us : List (Stmt ν)) :
    Stmt.indexedAll [] (ts ++ us) = Stmt.indexedAll [] ts ++ Stmt.indexedAll [] us := by
  induction ts with
  | nil => rfl
  | cons t ts ih => simp [Stmt.indexedAll, ih]

/-- Programs of one shape have the same distances at the same nodes. -/
theorem Stmt.renameAll_eq_of_shape {d d' : NodeId → Option Nat} {g : Nat → Nat} {ts us : List (Stmt NodeId)}
    (h : Stmt.renameAll (.shape g) ts = Stmt.renameAll (.shape g) us)
    (ht : Stmt.ScopedAll (·.Resolved d) [] ts) (hu : Stmt.ScopedAll (·.Resolved d') [] us) :
    Stmt.renameAll ⟨d, g⟩ ts = Stmt.renameAll ⟨d', g⟩ us := by
  rw [Stmt.renameAll_of_scoped g ts .nil ht, Stmt.renameAll_of_scoped g us .nil hu, h]

end Lox
