import Lox.Proofs.Scoping.Places
import Lox.Proofs.Tree.Marks

/-!
# The places of a tree

The places of a tree are the nodes that `Scoped` asks about: what holds at the places of a tree may
be asked of its nodes, and what is asked of its nodes holds at its places. The marks of a place are
marks of the tree it stands in.
-/

namespace Lox

section
variable {N P : Place ν → Prop}

mutual

theorem Expr.scoped_of_places (scopes : Scopes ν) (pending : Option String) : ∀ e : Expr ν,
    e.Scoped N scopes pending → (∀ p ∈ e.places scopes pending, N p → P p) → e.Scoped P scopes pending
  | .assign k x e, h, hp =>
    ⟨e.scoped_of_places scopes pending h.1 fun p hm => hp p (List.mem_append_left _ hm),
      hp _ (List.mem_append_right _ (by simp)) h.2⟩
  | .binary l _ r, h, hp =>
    ⟨l.scoped_of_places scopes pending h.1 fun p hm => hp p (List.mem_append_left _ hm),
      r.scoped_of_places scopes pending h.2 fun p hm => hp p (List.mem_append_right _ hm)⟩
  | .call f _ args, h, hp =>
    ⟨f.scoped_of_places scopes pending h.1 fun p hm => hp p (List.mem_append_left _ hm),
      Expr.scopedAll_of_places scopes pending args h.2 fun p hm => hp p (List.mem_append_right _ hm)⟩
  | .get o _, h, hp => o.scoped_of_places scopes pending h hp
  | .grouping e, h, hp => e.scoped_of_places scopes pending h hp
  | .literal _, _, _ => trivial
  | .logical l _ r, h, hp =>
    ⟨l.scoped_of_places scopes pending h.1 fun p hm => hp p (List.mem_append_left _ hm),
      r.scoped_of_places scopes pending h.2 fun p hm => hp p (List.mem_append_right _ hm)⟩
  | .set o _ e, h, hp =>
    ⟨o.scoped_of_places scopes pending h.1 fun p hm => hp p (List.mem_append_left _ hm),
      e.scoped_of_places scopes pending h.2 fun p hm => hp p (List.mem_append_right _ hm)⟩
  | .superRef k kw x, h, hp => hp _ (List.mem_singleton.2 rfl) h
  | .thisRef k kw, h, hp => hp _ (List.mem_singleton.2 rfl) h
  | .unary _ e, h, hp => e.scoped_of_places scopes pending h hp
  | .variable k x, h, hp => hp _ (List.mem_singleton.2 rfl) h

theorem Expr.scopedAll_of_places (scopes : Scopes ν) (pending : Option String) :
    ∀ es : List (Expr ν), Expr.ScopedAll N scopes pending es →
      (∀ p ∈ Expr.placesAll scopes pending es, N p → P p) → Expr.ScopedAll P scopes pending es
  | [], _, _ => trivial
  | e :: es, h, hp =>
    ⟨e.scoped_of_places scopes pending h.1 fun p hm => hp p (List.mem_append_left _ hm),
      Expr.scopedAll_of_places scopes pending es h.2 fun p hm => hp p (List.mem_append_right _ hm)⟩

end

theorem Expr.scopedOpt_of_places (scopes : Scopes ν) (pending : Option String) (e : Option (Expr ν))
    (h : Expr.ScopedOpt N scopes pending e) (hp : ∀ p ∈ Expr.placesOpt scopes pending e, N p → P p) :
    Expr.ScopedOpt P scopes pending e := by
  cases e with
  | none => trivial
  | some e => exact e.scoped_of_places scopes pending h hp

mutual

theorem Stmt.scoped_of_places (scopes : Scopes ν) : ∀ s : Stmt ν,
    s.Scoped N scopes → (∀ p ∈ s.places scopes, N p → P p) → s.Scoped P scopes
  | .block body, h, hp => Stmt.scopedAll_of_places _ body h hp
  | .classDecl _ parent methods, h, hp =>
    ⟨h.1,
      Expr.scopedOpt_of_places scopes none parent h.2.1 fun p hm => hp p (List.mem_append_left _ hm),
      Stmt.scopedMethods_of_places _ methods h.2.2 fun p hm => hp p (List.mem_append_right _ hm)⟩
  | .expression e, h, hp => e.scoped_of_places scopes none h hp
  | .function decl, h, hp => ⟨h.1, Stmt.scopedFun_of_places _ decl h.2 hp⟩
  | .conditional c s t, h, hp =>
    ⟨c.scoped_of_places scopes none h.1 fun p hm =>
        hp p (List.mem_append_left _ (List.mem_append_left _ hm)),
      ⟨h.2.1.1, s.scoped_of_places scopes h.2.1.2 fun p hm =>
        hp p (List.mem_append_left _ (List.mem_append_right _ hm))⟩,
      Stmt.scopedOpt_of_places scopes t h.2.2 fun p hm => hp p (List.mem_append_right _ hm)⟩
  | .print _ e, h, hp => e.scoped_of_places scopes none h hp
  | .returning _ e, h, hp => Expr.scopedOpt_of_places scopes none e h hp
  | .varDecl _ e, h, hp => ⟨h.1, Expr.scopedOpt_of_places scopes _ e h.2 hp⟩
  | .loop c s, h, hp =>
    ⟨c.scoped_of_places scopes none h.1 fun p hm => hp p (List.mem_append_left _ hm), h.2.1,
      s.scoped_of_places scopes h.2.2 fun p hm => hp p (List.mem_append_right _ hm)⟩

theorem Stmt.scopedAll_of_places (scopes : Scopes ν) : ∀ ss : List (Stmt ν),
    Stmt.ScopedAll N scopes ss → (∀ p ∈ Stmt.placesAll scopes ss, N p → P p) → Stmt.ScopedAll P scopes ss
  | [], _, _ => trivial
  | s :: ss, h, hp =>
    ⟨s.scoped_of_places scopes h.1 fun p hm => hp p (List.mem_append_left _ hm),
      Stmt.scopedAll_of_places _ ss h.2 fun p hm => hp p (List.mem_append_right _ hm)⟩

theorem Stmt.scopedOpt_of_places (scopes : Scopes ν) : ∀ s : Option (Stmt ν),
    Stmt.ScopedOpt N scopes s → (∀ p ∈ Stmt.placesOpt scopes s, N p → P p) → Stmt.ScopedOpt P scopes s
  | none, _, _ => trivial
  | some s, h, hp => ⟨h.1, s.scoped_of_places scopes h.2 hp⟩

theorem Stmt.scopedFun_of_places (scopes : Scopes ν) : ∀ f : FunDecl (Stmt ν),
    Stmt.ScopedFun N scopes f → (∀ p ∈ Stmt.placesFun scopes f, N p → P p) → Stmt.ScopedFun P scopes f
  | ⟨_, _, body⟩, h, hp => ⟨h.1, h.2.1, Stmt.scopedAll_of_places _ body h.2.2 hp⟩

theorem Stmt.scopedMethods_of_places (scopes : Scopes ν) : ∀ ms : List (FunDecl (Stmt ν)),
    Stmt.ScopedMethods N scopes ms → (∀ p ∈ Stmt.placesMethods scopes ms, N p → P p) →
      Stmt.ScopedMethods P scopes ms
  | [], _, _ => trivial
  | m :: ms, h, hp =>
    ⟨Stmt.scopedFun_of_places _ m h.1 fun p hm => hp p (List.mem_append_left _ hm),
      Stmt.scopedMethods_of_places scopes ms h.2 fun p hm => hp p (List.mem_append_right _ hm)⟩

end

end

/-! ## Places of scoped code -/

section
variable {N : Place ν → Prop}

mutual

theorem Expr.holds_of_scoped (scopes : Scopes ν) (pending : Option String) : ∀ e : Expr ν,
    e.Scoped N scopes pending → ∀ p ∈ e.places scopes pending, N p
  | .assign k x e, h, p, hp => by
    rcases List.mem_append.1 hp with hp | hp
    · exact e.holds_of_scoped scopes pending h.1 p hp
    · obtain rfl := List.mem_singleton.1 hp
      exact h.2
  | .binary l _ r, h, p, hp => by
    rcases List.mem_append.1 hp with hp | hp
    · exact l.holds_of_scoped scopes pending h.1 p hp
    · exact r.holds_of_scoped scopes pending h.2 p hp
  | .call f _ args, h, p, hp => by
    rcases List.mem_append.1 hp with hp | hp
    · exact f.holds_of_scoped scopes pending h.1 p hp
    · exact Expr.holdsAll_of_scoped scopes pending args h.2 p hp
  | .get o _, h, p, hp => o.holds_of_scoped scopes pending h p hp
  | .grouping e, h, p, hp => e.holds_of_scoped scopes pending h p hp
  | .literal _, _, _, hp => nomatch hp
  | .logical l _ r, h, p, hp => by
    rcases List.mem_append.1 hp with hp | hp
    · exact l.holds_of_scoped scopes pending h.1 p hp
    · exact r.holds_of_scoped scopes pending h.2 p hp
  | .set o _ e, h, p, hp => by
    rcases List.mem_append.1 hp with hp | hp
    · exact o.holds_of_scoped scopes pending h.1 p hp
    · exact e.holds_of_scoped scopes pending h.2 p hp
  | .superRef k kw x, h, p, hp => by
    obtain rfl := List.mem_singleton.1 hp
    exact h
  | .thisRef k kw, h, p, hp => by
    obtain rfl := List.mem_singleton.1 hp
    exact h
  | .unary _ e, h, p, hp => e.holds_of_scoped scopes pending h p hp
  | .variable k x, h, p, hp => by
    obtain rfl := List.mem_singleton.1 hp
    exact h

theorem Expr.holdsAll_of_scoped (scopes : Scopes ν) (pending : Option String) : ∀ es : List (Expr ν),
    Expr.ScopedAll N scopes pending es → ∀ p ∈ Expr.placesAll scopes pending es, N p
  | [], _, _, hp => nomatch hp
  | e :: es, h, p, hp => by
    rcases List.mem_append.1 hp with hp | hp
    · exact e.holds_of_scoped scopes pending h.1 p hp
    · exact Expr.holdsAll_of_scoped scopes pending es h.2 p hp

end

theorem Expr.holdsOpt_of_scoped (scopes : Scopes ν) (pending : Option String) (e : Option (Expr ν))
    (h : Expr.ScopedOpt N scopes pending e) : ∀ p ∈ Expr.placesOpt scopes pending e, N p := by
  cases e with
  | none => exact fun _ hp => nomatch hp
  | some e => exact e.holds_of_scoped scopes pending h

mutual

theorem Stmt.holds_of_scoped (scopes : Scopes ν) : ∀ s : Stmt ν,
    s.Scoped N scopes → ∀ p ∈ s.places scopes, N p
  | .block body, h, p, hp => Stmt.holdsAll_of_scoped _ body h p hp
  | .classDecl _ parent methods, h, p, hp => by
    rcases List.mem_append.1 hp with hp | hp
    · exact Expr.holdsOpt_of_scoped scopes none parent h.2.1 p hp
    · exact Stmt.holdsMethods_of_scoped _ methods h.2.2 p hp
  | .expression e, h, p, hp => e.holds_of_scoped scopes none h p hp
  | .function decl, h, p, hp => Stmt.holdsFun_of_scoped _ decl h.2 p hp
  | .conditional c s t, h, p, hp => by
    rcases List.mem_append.1 hp with hp | hp
    · rcases List.mem_append.1 hp with hp | hp
      · exact c.holds_of_scoped scopes none h.1 p hp
      · exact s.holds_of_scoped scopes h.2.1.2 p hp
    · exact Stmt.holdsOpt_of_scoped scopes t h.2.2 p hp
  | .print _ e, h, p, hp => e.holds_of_scoped scopes none h p hp
  | .returning _ e, h, p, hp => Expr.holdsOpt_of_scoped scopes none e h p hp
  | .varDecl _ e, h, p, hp => Expr.holdsOpt_of_scoped scopes _ e h.2 p hp
  | .loop c s, h, p, hp => by
    rcases List.mem_append.1 hp with hp | hp
    · exact c.holds_of_scoped scopes none h.1 p hp
    · exact s.holds_of_scoped scopes h.2.2 p hp

theorem Stmt.holdsAll_of_scoped (scopes : Scopes ν) : ∀ ss : List (Stmt ν),
    Stmt.ScopedAll N scopes ss → ∀ p ∈ Stmt.placesAll scopes ss, N p
  | [], _, _, hp => nomatch hp
  | s :: ss, h, p, hp => by
    rcases List.mem_append.1 hp with hp | hp
    · exact s.holds_of_scoped scopes h.1 p hp
    · exact Stmt.holdsAll_of_scoped _ ss h.2 p hp

theorem Stmt.holdsOpt_of_scoped (scopes : Scopes ν) : ∀ s : Option (Stmt ν),
    Stmt.ScopedOpt N scopes s → ∀ p ∈ Stmt.placesOpt scopes s, N p
  | none, _, _, hp => nomatch hp
  | some s, h, p, hp => s.holds_of_scoped scopes h.2 p hp

theorem Stmt.holdsFun_of_scoped (scopes : Scopes ν) : ∀ f : FunDecl (Stmt ν),
    Stmt.ScopedFun N scopes f → ∀ p ∈ Stmt.placesFun scopes f, N p
  | ⟨_, _, body⟩, h, p, hp => Stmt.holdsAll_of_scoped _ body h.2.2 p hp

theorem Stmt.holdsMethods_of_scoped (scopes : Scopes ν) : ∀ ms : List (FunDecl (Stmt ν)),
    Stmt.ScopedMethods N scopes ms → ∀ p ∈ Stmt.placesMethods scopes ms, N p
  | [], _, _, hp => nomatch hp
  | m :: ms, h, p, hp => by
    rcases List.mem_append.1 hp with hp | hp
    · exact Stmt.holdsFun_of_scoped _ m h.1 p hp
    · exact Stmt.holdsMethods_of_scoped scopes ms h.2 p hp

end

end

/-! ## Marks of places -/

mutual

theorem Expr.marks_of_places (scopes : Scopes ν) (pending : Option String) : ∀ (e : Expr ν) (p : Place ν),
    p ∈ e.places scopes pending → p.node.marks ⊆ e.marks
  | .assign k x e, p, hp => by
    rcases List.mem_append.1 hp with hp | hp
    · exact List.subset_append_of_subset_left _ (e.marks_of_places scopes pending p hp)
    · obtain rfl := List.mem_singleton.1 hp
      exact List.Subset.refl _
  | .binary l _ r, p, hp => by
    rcases List.mem_append.1 hp with hp | hp
    · exact List.subset_append_of_subset_left _ (l.marks_of_places scopes pending p hp)
    · exact List.subset_append_of_subset_right _ (r.marks_of_places scopes pending p hp)
  | .call f _ args, p, hp => by
    rcases List.mem_append.1 hp with hp | hp
    · exact List.subset_append_of_subset_left _ (f.marks_of_places scopes pending p hp)
    · exact List.subset_append_of_subset_right _ (Expr.marksAll_of_places scopes pending args p hp)
  | .get o _, p, hp => o.marks_of_places scopes pending p hp
  | .grouping e, p, hp => e.marks_of_places scopes pending p hp
  | .literal _, p, hp => nomatch hp
  | .logical l _ r, p, hp => by
    rcases List.mem_append.1 hp with hp | hp
    · exact List.subset_append_of_subset_left _ (l.marks_of_places scopes pending p hp)
    · exact List.subset_append_of_subset_right _ (r.marks_of_places scopes pending p hp)
  | .set o _ e, p, hp => by
    rcases List.mem_append.1 hp with hp | hp
    · exact List.subset_append_of_subset_left _ (o.marks_of_places scopes pending p hp)
    · exact List.subset_append_of_subset_right _ (e.marks_of_places scopes pending p hp)
  | .superRef k kw x, p, hp => by
    obtain rfl := List.mem_singleton.1 hp
    exact List.Subset.refl _
  | .thisRef k kw, p, hp => by
    obtain rfl := List.mem_singleton.1 hp
    exact List.Subset.refl _
  | .unary _ e, p, hp => e.marks_of_places scopes pending p hp
  | .variable k x, p, hp => by
    obtain rfl := List.mem_singleton.1 hp
    exact List.Subset.refl _

theorem Expr.marksAll_of_places (scopes : Scopes ν) (pending : Option String) :
    ∀ (es : List (Expr ν)) (p : Place ν), p ∈ Expr.placesAll scopes pending es →
      p.node.marks ⊆ Expr.marksAll es
  | [], p, hp => nomatch hp
  | e :: es, p, hp => by
    rcases List.mem_append.1 hp with hp | hp
    · exact List.subset_append_of_subset_left _ (e.marks_of_places scopes pending p hp)
    · exact List.subset_append_of_subset_right _ (Expr.marksAll_of_places scopes pending es p hp)

end

theorem Expr.marksOpt_of_places (scopes : Scopes ν) (pending : Option String) (e : Option (Expr ν))
    (p : Place ν) (hp : p ∈ Expr.placesOpt scopes pending e) : p.node.marks ⊆ Expr.marksOpt e := by
  cases e with
  | none => cases hp
  | some e => exact e.marks_of_places scopes pending p hp

mutual

theorem Stmt.marks_of_places : ∀ (s : Stmt ν) (scopes : Scopes ν) (p : Place ν),
    p ∈ s.places scopes → p.node.marks ⊆ s.marks
  | .block body, scopes, p, hp => Stmt.marksAll_of_places body _ p hp
  | .classDecl _ parent methods, scopes, p, hp => by
    rcases List.mem_append.1 hp with hp | hp
    · exact List.subset_append_of_subset_left _ (Expr.marksOpt_of_places scopes none parent p hp)
    · exact List.subset_append_of_subset_right _ (Stmt.marksMethods_of_places methods _ p hp)
  | .expression e, scopes, p, hp => e.marks_of_places scopes none p hp
  | .function f, scopes, p, hp => Stmt.marksFun_of_places f _ p hp
  | .conditional c s t, scopes, p, hp => by
    rcases List.mem_append.1 hp with hp | hp
    · refine List.subset_append_of_subset_left _ ?_
      rcases List.mem_append.1 hp with hp | hp
      · exact List.subset_append_of_subset_left _ (c.marks_of_places scopes none p hp)
      · exact List.subset_append_of_subset_right _ (s.marks_of_places scopes p hp)
    · exact List.subset_append_of_subset_right _ (Stmt.marksOpt_of_places t scopes p hp)
  | .print _ e, scopes, p, hp => e.marks_of_places scopes none p hp
  | .returning _ e, scopes, p, hp => Expr.marksOpt_of_places scopes none e p hp
  | .varDecl x e, scopes, p, hp => Expr.marksOpt_of_places scopes (scopes.waiting x.lexeme) e p hp
  | .loop c s, scopes, p, hp => by
    rcases List.mem_append.1 hp with hp | hp
    · exact List.subset_append_of_subset_left _ (c.marks_of_places scopes none p hp)
    · exact List.subset_append_of_subset_right _ (s.marks_of_places scopes p hp)

theorem Stmt.marksAll_of_places : ∀ (ss : List (Stmt ν)) (scopes : Scopes ν) (p : Place ν),
    p ∈ Stmt.placesAll scopes ss → p.node.marks ⊆ Stmt.marksAll ss
  | [], _, _, hp => nomatch hp
  | s :: ss, scopes, p, hp => by
    rcases List.mem_append.1 hp with hp | hp
    · exact List.subset_append_of_subset_left _ (s.marks_of_places scopes p hp)
    · exact List.subset_append_of_subset_right _ (Stmt.marksAll_of_places ss _ p hp)

theorem Stmt.marksOpt_of_places : ∀ (s : Option (Stmt ν)) (scopes : Scopes ν) (p : Place ν),
    p ∈ Stmt.placesOpt scopes s → p.node.marks ⊆ Stmt.marksOpt s
  | none, _, _, hp => nomatch hp
  | some s, scopes, p, hp => s.marks_of_places scopes p hp

theorem Stmt.marksFun_of_places : ∀ (f : FunDecl (Stmt ν)) (scopes : Scopes ν) (p : Place ν),
    p ∈ Stmt.placesFun scopes f → p.node.marks ⊆ Stmt.marksFun f
  | ⟨_, _, body⟩, _, p, hp => Stmt.marksAll_of_places body _ p hp

theorem Stmt.marksMethods_of_places : ∀ (ms : List (FunDecl (Stmt ν))) (scopes : Scopes ν) (p : Place ν),
    p ∈ Stmt.placesMethods scopes ms → p.node.marks ⊆ Stmt.marksMethods ms
  | [], _, p, hp => nomatch hp
  | m :: ms, scopes, p, hp => by
    rcases List.mem_append.1 hp with hp | hp
    · exact List.subset_append_of_subset_left _ (Stmt.marksFun_of_places m _ p hp)
    · exact List.subset_append_of_subset_right _ (Stmt.marksMethods_of_places ms scopes p hp)

end

/-- What is recorded for a place is read off its own marks. -/
theorem Place.Resolved.congr {p : Place ν} {d d' : ν → Option Nat} (h : p.Resolved d)
    (hd : ∀ k ∈ p.node.marks, d' k = d k) : p.Resolved d' := by
  obtain ⟨scopes, pending, node⟩ := p
  cases node with
  | assign k x e =>
    have hk := hd k (List.mem_append_right _ (by simp))
    exact hk.trans h
  | superRef k kw x =>
    have hk := hd k (List.mem_singleton.2 rfl)
    obtain ⟨⟨hp, hdist⟩, hthis, hj⟩ := h
    refine ⟨⟨hp, hk.trans hdist⟩, hthis, ?_⟩
    rw [hk]
    exact hj
  | thisRef k kw => exact ⟨h.1, (hd k (List.mem_singleton.2 rfl)).trans h.2⟩
  | «variable» k x => exact ⟨h.1, (hd k (List.mem_singleton.2 rfl)).trans h.2⟩
  | _ => trivial

end Lox
