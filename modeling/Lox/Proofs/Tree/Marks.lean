import Lox.Tree.Basic

/-!
# The marks of a tree

The marks of the nodes that name a binding, in the order of the text, and the tree that is left when
they are taken out. Two trees with the same unmarked tree differ in their marks only.
-/

namespace Lox

mutual

def Expr.marks : Expr ν → List ν
  | .assign k _ e => e.marks ++ [k]
  | .binary l _ r => l.marks ++ r.marks
  | .call f _ args => f.marks ++ Expr.marksAll args
  | .get o _ => o.marks
  | .grouping e => e.marks
  | .literal _ => []
  | .logical l _ r => l.marks ++ r.marks
  | .set o _ e => o.marks ++ e.marks
  | .superRef k _ _ => [k]
  | .thisRef k _ => [k]
  | .unary _ e => e.marks
  | .variable k _ => [k]

def Expr.marksAll : List (Expr ν) → List ν
  | [] => []
  | e :: es => e.marks ++ Expr.marksAll es

end

def Expr.marksOpt : Option (Expr ν) → List ν
  | none => []
  | some e => e.marks

mutual

def Stmt.marks : Stmt ν → List ν
  | .block body => Stmt.marksAll body
  | .classDecl _ parent methods => Expr.marksOpt parent ++ Stmt.marksMethods methods
  | .expression e => e.marks
  | .function decl => Stmt.marksFun decl
  | .conditional c s t => c.marks ++ s.marks ++ Stmt.marksOpt t
  | .print _ e => e.marks
  | .returning _ e => Expr.marksOpt e
  | .varDecl _ e => Expr.marksOpt e
  | .loop c s => c.marks ++ s.marks

def Stmt.marksAll : List (Stmt ν) → List ν
  | [] => []
  | s :: ss => s.marks ++ Stmt.marksAll ss

def Stmt.marksOpt : Option (Stmt ν) → List ν
  | none => []
  | some s => s.marks

def Stmt.marksFun : FunDecl (Stmt ν) → List ν
  | ⟨_, _, body⟩ => Stmt.marksAll body

def Stmt.marksMethods : List (FunDecl (Stmt ν)) → List ν
  | [] => []
  | m :: ms => Stmt.marksFun m ++ Stmt.marksMethods ms

end

section
variable {k : ν}

theorem Expr.mem_marksAll {es : List (Expr ν)} : k ∈ Expr.marksAll es ↔ ∃ e ∈ es, k ∈ e.marks := by
  induction es with
  | nil => simp [Expr.marksAll]
  | cons e es ih => simp [Expr.marksAll, ih]

theorem Stmt.mem_marksAll {ss : List (Stmt ν)} : k ∈ Stmt.marksAll ss ↔ ∃ s ∈ ss, k ∈ s.marks := by
  induction ss with
  | nil => simp [Stmt.marksAll]
  | cons s ss ih => simp [Stmt.marksAll, ih]

theorem Stmt.mem_marksFun {f : FunDecl (Stmt ν)} : k ∈ Stmt.marksFun f ↔ ∃ s ∈ f.body, k ∈ s.marks := by
  cases f
  exact Stmt.mem_marksAll

theorem Stmt.mem_marksMethods {ms : List (FunDecl (Stmt ν))} :
    k ∈ Stmt.marksMethods ms ↔ ∃ m ∈ ms, k ∈ Stmt.marksFun m := by
  induction ms with
  | nil => simp [Stmt.marksMethods]
  | cons m ms ih => simp [Stmt.marksMethods, ih]

end

/-! ## Trees without marks -/

mutual

def Expr.unmarked : Expr ν → Expr Unit
  | .assign _ x e => .assign () x e.unmarked
  | .binary l op r => .binary l.unmarked op r.unmarked
  | .call f paren args => .call f.unmarked paren (Expr.unmarkedAll args)
  | .get o x => .get o.unmarked x
  | .grouping e => .grouping e.unmarked
  | .literal v => .literal v
  | .logical l op r => .logical l.unmarked op r.unmarked
  | .set o x e => .set o.unmarked x e.unmarked
  | .superRef _ kw x => .superRef () kw x
  | .thisRef _ kw => .thisRef () kw
  | .unary op e => .unary op e.unmarked
  | .variable _ x => .variable () x

def Expr.unmarkedAll : List (Expr ν) → List (Expr Unit)
  | [] => []
  | e :: es => e.unmarked :: Expr.unmarkedAll es

end

def Expr.unmarkedOpt : Option (Expr ν) → Option (Expr Unit)
  | none => none
  | some e => some e.unmarked

mutual

def Stmt.unmarked : Stmt ν → Stmt Unit
  | .block body => .block (Stmt.unmarkedAll body)
  | .classDecl x parent methods =>
    .classDecl x (Expr.unmarkedOpt parent) (Stmt.unmarkedMethods methods)
  | .expression e => .expression e.unmarked
  | .function decl => .function (Stmt.unmarkedFun decl)
  | .conditional c s t => .conditional c.unmarked s.unmarked (Stmt.unmarkedOpt t)
  | .print kw e => .print kw e.unmarked
  | .returning kw e => .returning kw (Expr.unmarkedOpt e)
  | .varDecl x e => .varDecl x (Expr.unmarkedOpt e)
  | .loop c s => .loop c.unmarked s.unmarked

def Stmt.unmarkedAll : List (Stmt ν) → List (Stmt Unit)
  | [] => []
  | s :: ss => s.unmarked :: Stmt.unmarkedAll ss

def Stmt.unmarkedOpt : Option (Stmt ν) → Option (Stmt Unit)
  | none => none
  | some s => some s.unmarked

def Stmt.unmarkedFun : FunDecl (Stmt ν) → FunDecl (Stmt Unit)
  | ⟨x, params, body⟩ => ⟨x, params, Stmt.unmarkedAll body⟩

def Stmt.unmarkedMethods : List (FunDecl (Stmt ν)) → List (FunDecl (Stmt Unit))
  | [] => []
  | m :: ms => Stmt.unmarkedFun m :: Stmt.unmarkedMethods ms

end

/-! ## Fresh marks -/

/-- Marks that were given out one by one between two counts. -/
structure Fresh (lo hi : NodeId) (marks : List NodeId) : Prop where
  le : lo ≤ hi
  nodup : marks.Nodup
  range : ∀ k ∈ marks, lo ≤ k ∧ k < hi

namespace Fresh

variable {lo mid hi : NodeId} {ks ls : List NodeId}

theorem nil (h : lo ≤ hi) : Fresh lo hi [] := ⟨h, .nil, by simp⟩

theorem one (k : NodeId) : Fresh k (k + 1) [k] := ⟨Nat.le_succ k, by simp, by simp⟩

theorem append (h : Fresh lo mid ks) (h' : Fresh mid hi ls) : Fresh lo hi (ks ++ ls) where
  le := Nat.le_trans h.le h'.le
  nodup := by
    rw [List.nodup_append]
    refine ⟨h.nodup, h'.nodup, ?_⟩
    rintro k hk l hl rfl
    have hlt : k < mid := (h.range k hk).2
    have hle : mid ≤ k := (h'.range k hl).1
    exact absurd (Nat.lt_of_lt_of_le hlt hle) (Nat.lt_irrefl k)
  range k hk := by
    rcases List.mem_append.1 hk with hk | hk
    · exact ⟨(h.range k hk).1, Nat.lt_of_lt_of_le (h.range k hk).2 h'.le⟩
    · exact ⟨Nat.le_trans h.le (h'.range k hk).1, (h'.range k hk).2⟩

theorem perm (h : Fresh lo hi ks) (hp : ks.Perm ls) : Fresh lo hi ls :=
  ⟨h.le, hp.nodup_iff.1 h.nodup, fun k hk => h.range k (hp.mem_iff.2 hk)⟩

end Fresh

end Lox
