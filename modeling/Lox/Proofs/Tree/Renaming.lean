import Lox.Proofs.Tree.Marks
import Lox.Report

/-!
# Other marks, other lines

A tree under other marks and with its tokens on other lines. Renaming is functorial
(`rename_rename`) and looks at the marks of the tree only (`rename_congr`); the shape of a tree is
what is left when the marks are forgotten, and up to lines two trees of one shape are the same
program.
-/

namespace Lox

/-- A token on another line. -/
def Token.moved (g : Nat → Nat) (t : Token) : Token := { t with line := g t.line }

namespace Token

@[simp] theorem moved_kind (g : Nat → Nat) (t : Token) : (t.moved g).kind = t.kind := rfl

@[simp] theorem moved_lexeme (g : Nat → Nat) (t : Token) : (t.moved g).lexeme = t.lexeme := rfl

@[simp] theorem moved_is (g : Nat → Nat) (t : Token) (a : Symbol) : (t.moved g).is a = t.is a := rfl

@[simp] theorem moved_id (t : Token) : t.moved id = t := rfl

@[simp] theorem moved_moved (g h : Nat → Nat) (t : Token) : (t.moved g).moved h = t.moved (h ∘ g) := rfl

@[simp] theorem moved_comp (g h : Nat → Nat) : Token.moved h ∘ Token.moved g = Token.moved (h ∘ g) := rfl

end Token

namespace Report

/-- A report about another line. -/
def moved (g : Nat → Nat) : Report → Report
  | .lexical line message => .lexical (g line) message
  | .syntactic blamed message => .syntactic (blamed.moved g) message
  | .scoping blamed message => .scoping (blamed.moved g) message
  | .runtime blamed message => .runtime (blamed.moved g) message

@[simp] theorem moved_id (r : Report) : r.moved id = r := by cases r <;> rfl

end Report

/-- Reports about other lines. -/
def Reports.moved (g : Nat → Nat) (r : Reports) : Reports := { r with held := r.held.map (·.moved g) }

@[simp] theorem Reports.moved_id (r : Reports) : r.moved id = r := by
  simp [Reports.moved]

/-- What becomes of marks and lines. -/
structure Renaming (ν ν' : Type) where
  mark : ν → ν'
  line : Nat → Nat

namespace Renaming

/-- One renaming after another. -/
def comp (ρ' : Renaming ν' ν'') (ρ : Renaming ν ν') : Renaming ν ν'' :=
  ⟨ρ'.mark ∘ ρ.mark, ρ'.line ∘ ρ.line⟩

/-- Forgets the marks. -/
def shape (g : Nat → Nat) : Renaming ν Unit := ⟨fun _ => (), g⟩

end Renaming

section
variable (ρ : Renaming ν ν')

mutual

def Expr.rename : Expr ν → Expr ν'
  | .assign k x e => .assign (ρ.mark k) (x.moved ρ.line) e.rename
  | .binary l op r => .binary l.rename (op.moved ρ.line) r.rename
  | .call f paren args => .call f.rename (paren.moved ρ.line) (Expr.renameAll args)
  | .get o x => .get o.rename (x.moved ρ.line)
  | .grouping e => .grouping e.rename
  | .literal v => .literal v
  | .logical l op r => .logical l.rename (op.moved ρ.line) r.rename
  | .set o x e => .set o.rename (x.moved ρ.line) e.rename
  | .superRef k kw x => .superRef (ρ.mark k) (kw.moved ρ.line) (x.moved ρ.line)
  | .thisRef k kw => .thisRef (ρ.mark k) (kw.moved ρ.line)
  | .unary op e => .unary (op.moved ρ.line) e.rename
  | .variable k x => .variable (ρ.mark k) (x.moved ρ.line)

def Expr.renameAll : List (Expr ν) → List (Expr ν')
  | [] => []
  | e :: es => e.rename :: Expr.renameAll es

end

def Expr.renameOpt : Option (Expr ν) → Option (Expr ν')
  | none => none
  | some e => some (e.rename ρ)

mutual

def Stmt.rename : Stmt ν → Stmt ν'
  | .block body => .block (Stmt.renameAll body)
  | .classDecl x parent methods =>
    .classDecl (x.moved ρ.line) (Expr.renameOpt ρ parent) (Stmt.renameMethods methods)
  | .expression e => .expression (e.rename ρ)
  | .function decl => .function (Stmt.renameFun decl)
  | .conditional c s t => .conditional (c.rename ρ) s.rename (Stmt.renameOpt t)
  | .print kw e => .print (kw.moved ρ.line) (e.rename ρ)
  | .returning kw e => .returning (kw.moved ρ.line) (Expr.renameOpt ρ e)
  | .varDecl x e => .varDecl (x.moved ρ.line) (Expr.renameOpt ρ e)
  | .loop c s => .loop (c.rename ρ) s.rename

def Stmt.renameAll : List (Stmt ν) → List (Stmt ν')
  | [] => []
  | s :: ss => s.rename :: Stmt.renameAll ss

def Stmt.renameOpt : Option (Stmt ν) → Option (Stmt ν')
  | none => none
  | some s => some s.rename

def Stmt.renameFun : FunDecl (Stmt ν) → FunDecl (Stmt ν')
  | ⟨x, params, body⟩ => ⟨x.moved ρ.line, params.map (·.moved ρ.line), Stmt.renameAll body⟩

def Stmt.renameMethods : List (FunDecl (Stmt ν)) → List (FunDecl (Stmt ν'))
  | [] => []
  | m :: ms => Stmt.renameFun m :: Stmt.renameMethods ms

end

end

@[simp] theorem Expr.isSome_renameOpt (ρ : Renaming ν ν') (e : Option (Expr ν)) :
    (Expr.renameOpt ρ e).isSome = e.isSome := by cases e <;> rfl

theorem Stmt.renameAll_eq (ρ : Renaming ν ν') (ss : List (Stmt ν)) :
    Stmt.renameAll ρ ss = ss.map (Stmt.rename ρ) := by
  induction ss with
  | nil => rfl
  | cons s ss ih => simp [Stmt.renameAll, ih]

theorem Stmt.renameAll_append (ρ : Renaming ν ν') (ss ts : List (Stmt ν)) :
    Stmt.renameAll ρ (ss ++ ts) = Stmt.renameAll ρ ss ++ Stmt.renameAll ρ ts := by
  simp [Stmt.renameAll_eq]

/-- If a renamed list falls into two pieces, so does the list. -/
theorem Stmt.exists_of_renameAll_eq_append {ρ : Renaming ν ν'} {ss : List (Stmt ν)}
    {ts us : List (Stmt ν')} (h : Stmt.renameAll ρ ss = ts ++ us) :
    ∃ a b, ss = a ++ b ∧ Stmt.renameAll ρ a = ts ∧ Stmt.renameAll ρ b = us := by
  rw [Stmt.renameAll_eq] at h
  obtain ⟨a, b, rfl, ha, hb⟩ := List.map_eq_append_iff.1 h
  exact ⟨a, b, rfl, by rw [Stmt.renameAll_eq, ha], by rw [Stmt.renameAll_eq, hb]⟩

theorem Stmt.renameMethods_eq (ρ : Renaming ν ν') (ms : List (FunDecl (Stmt ν))) :
    Stmt.renameMethods ρ ms = ms.map (Stmt.renameFun ρ) := by
  induction ms with
  | nil => rfl
  | cons m ms ih => simp [Stmt.renameMethods, ih]

/-! ## Renaming twice -/

section
variable (ρ : Renaming ν ν') (ρ' : Renaming ν' ν'')

mutual

theorem Expr.rename_rename : ∀ e : Expr ν, (e.rename ρ).rename ρ' = e.rename (ρ'.comp ρ)
  | .assign _ _ e => by simp [Expr.rename, Renaming.comp, e.rename_rename]
  | .binary l _ r => by simp [Expr.rename, Renaming.comp, l.rename_rename, r.rename_rename]
  | .call f _ args => by
    simp [Expr.rename, Renaming.comp, f.rename_rename, Expr.renameAll_renameAll args]
  | .get o _ => by simp [Expr.rename, Renaming.comp, o.rename_rename]
  | .grouping e => by simp [Expr.rename, e.rename_rename]
  | .literal _ => rfl
  | .logical l _ r => by simp [Expr.rename, Renaming.comp, l.rename_rename, r.rename_rename]
  | .set o _ e => by simp [Expr.rename, Renaming.comp, o.rename_rename, e.rename_rename]
  | .superRef _ _ _ => rfl
  | .thisRef _ _ => rfl
  | .unary _ e => by simp [Expr.rename, Renaming.comp, e.rename_rename]
  | .variable _ _ => rfl

theorem Expr.renameAll_renameAll : ∀ es : List (Expr ν),
    Expr.renameAll ρ' (Expr.renameAll ρ es) = Expr.renameAll (ρ'.comp ρ) es
  | [] => rfl
  | e :: es => by simp [Expr.renameAll, e.rename_rename, Expr.renameAll_renameAll es]

end

theorem Expr.renameOpt_renameOpt (e : Option (Expr ν)) :
    Expr.renameOpt ρ' (Expr.renameOpt ρ e) = Expr.renameOpt (ρ'.comp ρ) e := by
  cases e with
  | none => rfl
  | some e => simp [Expr.renameOpt, e.rename_rename]

mutual

theorem Stmt.rename_rename : ∀ s : Stmt ν, (s.rename ρ).rename ρ' = s.rename (ρ'.comp ρ)
  | .block body => by simp [Stmt.rename, Stmt.renameAll_renameAll body]
  | .classDecl _ parent methods => by
    simp [Stmt.rename, Renaming.comp, Expr.renameOpt_renameOpt, Stmt.renameMethods_renameMethods methods]
  | .expression e => by simp [Stmt.rename, e.rename_rename]
  | .function f => by simp [Stmt.rename, Stmt.renameFun_renameFun f]
  | .conditional c s t => by
    simp [Stmt.rename, c.rename_rename, s.rename_rename, Stmt.renameOpt_renameOpt t]
  | .print _ e => by simp [Stmt.rename, Renaming.comp, e.rename_rename]
  | .returning _ e => by simp [Stmt.rename, Renaming.comp, Expr.renameOpt_renameOpt]
  | .varDecl _ e => by simp [Stmt.rename, Renaming.comp, Expr.renameOpt_renameOpt]
  | .loop c s => by simp [Stmt.rename, c.rename_rename, s.rename_rename]

theorem Stmt.renameAll_renameAll : ∀ ss : List (Stmt ν),
    Stmt.renameAll ρ' (Stmt.renameAll ρ ss) = Stmt.renameAll (ρ'.comp ρ) ss
  | [] => rfl
  | s :: ss => by simp [Stmt.renameAll, s.rename_rename, Stmt.renameAll_renameAll ss]

theorem Stmt.renameOpt_renameOpt : ∀ s : Option (Stmt ν),
    Stmt.renameOpt ρ' (Stmt.renameOpt ρ s) = Stmt.renameOpt (ρ'.comp ρ) s
  | none => rfl
  | some s => by simp [Stmt.renameOpt, s.rename_rename]

theorem Stmt.renameFun_renameFun : ∀ f : FunDecl (Stmt ν),
    Stmt.renameFun ρ' (Stmt.renameFun ρ f) = Stmt.renameFun (ρ'.comp ρ) f
  | ⟨_, _, body⟩ => by simp [Stmt.renameFun, Renaming.comp, Stmt.renameAll_renameAll body]

theorem Stmt.renameMethods_renameMethods : ∀ ms : List (FunDecl (Stmt ν)),
    Stmt.renameMethods ρ' (Stmt.renameMethods ρ ms) = Stmt.renameMethods (ρ'.comp ρ) ms
  | [] => rfl
  | m :: ms => by
    simp [Stmt.renameMethods, Stmt.renameFun_renameFun m, Stmt.renameMethods_renameMethods ms]

end

end

/-! ## The marks that matter -/

section
variable {f f' : ν → ν'} (g : Nat → Nat)

mutual

theorem Expr.rename_congr : ∀ e : Expr ν, (∀ k ∈ e.marks, f k = f' k) → e.rename ⟨f, g⟩ = e.rename ⟨f', g⟩
  | .assign k _ e, h => by
    simp only [Expr.marks, List.forall_mem_append, List.forall_mem_singleton] at h
    simp [Expr.rename, e.rename_congr h.1, h.2]
  | .binary l _ r, h => by
    simp only [Expr.marks, List.forall_mem_append] at h
    simp [Expr.rename, l.rename_congr h.1, r.rename_congr h.2]
  | .call c _ args, h => by
    simp only [Expr.marks, List.forall_mem_append] at h
    simp [Expr.rename, c.rename_congr h.1, Expr.renameAll_congr args h.2]
  | .get o _, h => by simp [Expr.rename, o.rename_congr h]
  | .grouping e, h => by simp [Expr.rename, e.rename_congr h]
  | .literal _, _ => rfl
  | .logical l _ r, h => by
    simp only [Expr.marks, List.forall_mem_append] at h
    simp [Expr.rename, l.rename_congr h.1, r.rename_congr h.2]
  | .set o _ e, h => by
    simp only [Expr.marks, List.forall_mem_append] at h
    simp [Expr.rename, o.rename_congr h.1, e.rename_congr h.2]
  | .superRef k _ _, h => by simp [Expr.rename, h k (by simp [Expr.marks])]
  | .thisRef k _, h => by simp [Expr.rename, h k (by simp [Expr.marks])]
  | .unary _ e, h => by simp [Expr.rename, e.rename_congr h]
  | .variable k _, h => by simp [Expr.rename, h k (by simp [Expr.marks])]

theorem Expr.renameAll_congr : ∀ es : List (Expr ν), (∀ k ∈ Expr.marksAll es, f k = f' k) →
    Expr.renameAll ⟨f, g⟩ es = Expr.renameAll ⟨f', g⟩ es
  | [], _ => rfl
  | e :: es, h => by
    simp only [Expr.marksAll, List.forall_mem_append] at h
    simp [Expr.renameAll, e.rename_congr h.1, Expr.renameAll_congr es h.2]

end

theorem Expr.renameOpt_congr (e : Option (Expr ν)) (h : ∀ k ∈ Expr.marksOpt e, f k = f' k) :
    Expr.renameOpt ⟨f, g⟩ e = Expr.renameOpt ⟨f', g⟩ e := by
  cases e with
  | none => rfl
  | some e => simp [Expr.renameOpt, e.rename_congr g h]

mutual

theorem Stmt.rename_congr : ∀ s : Stmt ν, (∀ k ∈ s.marks, f k = f' k) → s.rename ⟨f, g⟩ = s.rename ⟨f', g⟩
  | .block body, h => by simp [Stmt.rename, Stmt.renameAll_congr body h]
  | .classDecl _ parent methods, h => by
    simp only [Stmt.marks, List.forall_mem_append] at h
    simp [Stmt.rename, Expr.renameOpt_congr g parent h.1, Stmt.renameMethods_congr methods h.2]
  | .expression e, h => by simp [Stmt.rename, e.rename_congr g h]
  | .function decl, h => by simp [Stmt.rename, Stmt.renameFun_congr decl h]
  | .conditional c s t, h => by
    simp only [Stmt.marks, List.forall_mem_append] at h
    simp [Stmt.rename, c.rename_congr g h.1.1, s.rename_congr h.1.2, Stmt.renameOpt_congr t h.2]
  | .print _ e, h => by simp [Stmt.rename, e.rename_congr g h]
  | .returning _ e, h => by simp [Stmt.rename, Expr.renameOpt_congr g e h]
  | .varDecl _ e, h => by simp [Stmt.rename, Expr.renameOpt_congr g e h]
  | .loop c s, h => by
    simp only [Stmt.marks, List.forall_mem_append] at h
    simp [Stmt.rename, c.rename_congr g h.1, s.rename_congr h.2]

theorem Stmt.renameAll_congr : ∀ ss : List (Stmt ν), (∀ k ∈ Stmt.marksAll ss, f k = f' k) →
    Stmt.renameAll ⟨f, g⟩ ss = Stmt.renameAll ⟨f', g⟩ ss
  | [], _ => rfl
  | s :: ss, h => by
    simp only [Stmt.marksAll, List.forall_mem_append] at h
    simp [Stmt.renameAll, s.rename_congr h.1, Stmt.renameAll_congr ss h.2]

theorem Stmt.renameOpt_congr : ∀ s : Option (Stmt ν), (∀ k ∈ Stmt.marksOpt s, f k = f' k) →
    Stmt.renameOpt ⟨f, g⟩ s = Stmt.renameOpt ⟨f', g⟩ s
  | none, _ => rfl
  | some s, h => by simp [Stmt.renameOpt, s.rename_congr h]

theorem Stmt.renameFun_congr : ∀ decl : FunDecl (Stmt ν), (∀ k ∈ Stmt.marksFun decl, f k = f' k) →
    Stmt.renameFun ⟨f, g⟩ decl = Stmt.renameFun ⟨f', g⟩ decl
  | ⟨_, _, body⟩, h => by simp [Stmt.renameFun, Stmt.renameAll_congr body h]

theorem Stmt.renameMethods_congr : ∀ ms : List (FunDecl (Stmt ν)),
    (∀ k ∈ Stmt.marksMethods ms, f k = f' k) →
      Stmt.renameMethods ⟨f, g⟩ ms = Stmt.renameMethods ⟨f', g⟩ ms
  | [], _ => rfl
  | m :: ms, h => by
    simp only [Stmt.marksMethods, List.forall_mem_append] at h
    simp [Stmt.renameMethods, Stmt.renameFun_congr m h.1, Stmt.renameMethods_congr ms h.2]

end

end

/-! ## Shapes -/

mutual

theorem Expr.unmarked_eq : ∀ e : Expr ν, e.unmarked = e.rename (.shape id)
  | .assign _ _ e => by simp [Expr.unmarked, Expr.rename, e.unmarked_eq, Renaming.shape]
  | .binary l _ r => by
    simp [Expr.unmarked, Expr.rename, l.unmarked_eq, r.unmarked_eq, Renaming.shape]
  | .call f _ args => by
    simp [Expr.unmarked, Expr.rename, f.unmarked_eq, Expr.unmarkedAll_eq args, Renaming.shape]
  | .get o _ => by simp [Expr.unmarked, Expr.rename, o.unmarked_eq, Renaming.shape]
  | .grouping e => by simp [Expr.unmarked, Expr.rename, e.unmarked_eq]
  | .literal _ => rfl
  | .logical l _ r => by
    simp [Expr.unmarked, Expr.rename, l.unmarked_eq, r.unmarked_eq, Renaming.shape]
  | .set o _ e => by
    simp [Expr.unmarked, Expr.rename, o.unmarked_eq, e.unmarked_eq, Renaming.shape]
  | .superRef _ _ _ => rfl
  | .thisRef _ _ => rfl
  | .unary _ e => by simp [Expr.unmarked, Expr.rename, e.unmarked_eq, Renaming.shape]
  | .variable _ _ => rfl

theorem Expr.unmarkedAll_eq : ∀ es : List (Expr ν), Expr.unmarkedAll es = Expr.renameAll (.shape id) es
  | [] => rfl
  | e :: es => by simp [Expr.unmarkedAll, Expr.renameAll, e.unmarked_eq, Expr.unmarkedAll_eq es]

end

theorem Expr.unmarkedOpt_eq (e : Option (Expr ν)) : Expr.unmarkedOpt e = Expr.renameOpt (.shape id) e := by
  cases e with
  | none => rfl
  | some e => simp [Expr.unmarkedOpt, Expr.renameOpt, e.unmarked_eq]

mutual

theorem Stmt.unmarked_eq : ∀ s : Stmt ν, s.unmarked = s.rename (.shape id)
  | .block body => by simp [Stmt.unmarked, Stmt.rename, Stmt.unmarkedAll_eq body]
  | .classDecl _ parent methods => by
    simp [Stmt.unmarked, Stmt.rename, Expr.unmarkedOpt_eq, Stmt.unmarkedMethods_eq methods, Renaming.shape]
  | .expression e => by simp [Stmt.unmarked, Stmt.rename, e.unmarked_eq]
  | .function f => by simp [Stmt.unmarked, Stmt.rename, Stmt.unmarkedFun_eq f]
  | .conditional c s t => by
    simp [Stmt.unmarked, Stmt.rename, c.unmarked_eq, s.unmarked_eq, Stmt.unmarkedOpt_eq t]
  | .print _ e => by simp [Stmt.unmarked, Stmt.rename, e.unmarked_eq, Renaming.shape]
  | .returning _ e => by simp [Stmt.unmarked, Stmt.rename, Expr.unmarkedOpt_eq, Renaming.shape]
  | .varDecl _ e => by simp [Stmt.unmarked, Stmt.rename, Expr.unmarkedOpt_eq, Renaming.shape]
  | .loop c s => by simp [Stmt.unmarked, Stmt.rename, c.unmarked_eq, s.unmarked_eq]

theorem Stmt.unmarkedAll_eq : ∀ ss : List (Stmt ν), Stmt.unmarkedAll ss = Stmt.renameAll (.shape id) ss
  | [] => rfl
  | s :: ss => by simp [Stmt.unmarkedAll, Stmt.renameAll, s.unmarked_eq, Stmt.unmarkedAll_eq ss]

theorem Stmt.unmarkedOpt_eq : ∀ s : Option (Stmt ν), Stmt.unmarkedOpt s = Stmt.renameOpt (.shape id) s
  | none => rfl
  | some s => by simp [Stmt.unmarkedOpt, Stmt.renameOpt, s.unmarked_eq]

theorem Stmt.unmarkedFun_eq : ∀ f : FunDecl (Stmt ν), Stmt.unmarkedFun f = Stmt.renameFun (.shape id) f
  | ⟨_, params, body⟩ => by
    simp [Stmt.unmarkedFun, Stmt.renameFun, Stmt.unmarkedAll_eq body, Renaming.shape]

theorem Stmt.unmarkedMethods_eq : ∀ ms : List (FunDecl (Stmt ν)),
    Stmt.unmarkedMethods ms = Stmt.renameMethods (.shape id) ms
  | [] => rfl
  | m :: ms => by
    simp [Stmt.unmarkedMethods, Stmt.renameMethods, Stmt.unmarkedFun_eq m, Stmt.unmarkedMethods_eq ms]

end

theorem Stmt.unmarkedAll_append (ss ts : List (Stmt ν)) :
    Stmt.unmarkedAll (ss ++ ts) = Stmt.unmarkedAll ss ++ Stmt.unmarkedAll ts := by
  simp only [Stmt.unmarkedAll_eq, Stmt.renameAll_append]

end Lox
