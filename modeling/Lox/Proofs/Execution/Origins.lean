import Lox.Proofs.Execution.Initializers
import Lox.Proofs.Execution.Order

/-!
# Where frames come from

A moment that makes a frame leaves it to all that comes later. `Makes` says what the store is before and
after; since frames are numbered in the order in which they are made, a moment of the same run whose store has
the frame is a later one, and its store goes back to the one after: `Makes.later`.
-/

namespace Lox

open Exec in
/-- The moment binds a method to an object; the store is the one before. -/
inductive BindsMethod (d : Distances ν) : Moment ν → Function ν → ObjectId → Store ν → Prop
  | property : Yields (eval d · o) m (.objectRef i) m' → m'.store.property i x.lexeme = .method f →
      BindsMethod d (.eval (.get o x), m) f i m'.store
  | superclass : d k = some j → m.store.frames.getAt m.env j kw.lexeme = .ok (.classRef p) →
      m.store.frames.getAt m.env (j - 1) "this" = .ok (.objectRef i) →
      m.store.method? p x.lexeme = some f → BindsMethod d (.eval (.superRef k kw x), m) f i m.store
  | initializer : BindsMethod d (.apply (.constructor c (some f)) args, m) f m.store.objects.size
      (m.construct c).store

open Exec in
/-- The moment executes the declaration of a class with these methods, and what it names as the superclass is
the given class. In the store the class has its name but is not made yet; the frame is the one around it. -/
inductive Declares (d : Distances ν) :
    Moment ν → List (FunDecl (Stmt ν)) → ClassId → Store ν → FrameId → Prop
  | derived : Yields (eval d · e) m (.classRef p) m' → Declares d (.exec (.classDecl x (some e) methods), m)
      methods p { m'.store with frames := m'.store.frames.define m'.env x.lexeme .nil } m'.env

/-- The moment makes a frame for a scope, which changes the first store into the second. -/
inductive Makes (d : Distances ν) : Moment ν → Store ν → Store ν → Site ν → Prop
  | block : Makes d (.exec (.block body), m) m.store (m.enter m.env {}).store (.block body)
  | function : Makes d (.applyFunction f args, m) m.store (m.enter f.closure (f.locals args)).store
      (.function f.decl)
  | parent : Declares d M methods p s e →
      Makes d M s (s.addFrame ⟨Table.empty.insert "super" (.classRef p), some e⟩).2 (.parent methods)
  | receiver : BindsMethod d M f i s → Makes d M s (s.bindMethod f i).2 (.receiver f.decl)

section
variable {C : Code ν} {d : Distances ν} {M E : Moment ν} {m' : Machine ν} {f : FrameId} {site : Site ν}
  {s s' : Store ν} {g : Function ν} {i : ObjectId}

theorem boundMethod_changes {m : Machine ν} (hg : C.decl g.decl)
    (hm : ((Exec.bindMethod g i >>= Exec.newFunction) m).machine? = some m') :
    Changes C (m.store.bindMethod g i).2 m'.store := by
  cases hm
  exact .single (.function hg)

theorem BindsMethod.changes (h : BindsMethod d M g i s) (ht : C.task M.1) (hs : M.2.store.Holds C)
    (hM : M.Ends d m') : Changes C (s.bindMethod g i).2 m'.store := by
  cases h with
  | property hy hf =>
    obtain ⟨n, hn⟩ := hM
    cases n with
    | zero => cases hn
    | succ n =>
      simp only [Task.leaves, Exec.eval] at hn
      have hrest := hy.rest (fun n => (Exec.fuelledRuns d n).eval _) hn
      obtain ⟨j, hmethod⟩ := Store.method?_of_property hf
      have hholds := (leads_of_eval (C.get ht) hs hy).store.holds hs
      simp only [Exec.getProperty_eq hf] at hrest
      exact boundMethod_changes (hholds.method hmethod) hrest
  | superclass hd hp hi hf =>
    obtain ⟨n, hn⟩ := hM
    cases n with
    | zero => cases hn
    | succ n =>
      simp only [Task.leaves, Exec.eval, Exec.superMethod, hd, Exec.bind_apply, Exec.read, hp, hi, hf,
        Exec.liftAt, Exec.pure_apply] at hn
      exact boundMethod_changes (hs.method hf) hn
  | initializer => exact Visits.changes (.single .initializer) ht hs hM

theorem declareClass_changes {m : Machine ν} {x : Token} {methods : List (FunDecl (Stmt ν))} {p : ClassId}
    (hx : C.name x.lexeme) (hmethods : ∀ f ∈ methods, C.decl f) (hs : m.store.Holds C)
    (hm : (Exec.declareClass x (some p) methods m).machine? = some m') :
    Changes C (Store.addFrame { m.store with frames := m.store.frames.define m.env x.lexeme .nil }
      ⟨Table.empty.insert "super" (.classRef p), some m.env⟩).2 m'.store := by
  have hnamed : Change C m.store _ := .write m.env .nil hx
  have hparent := Change.parent (C := C) (s := { m.store with
    frames := m.store.frames.define m.env x.lexeme .nil }) m.env p
  have hrest := Exec.keeps_addClass (m := { m with store := (Store.addFrame { m.store with
      frames := m.store.frames.define m.env x.lexeme .nil }
        ⟨Table.empty.insert "super" (.classRef p), some m.env⟩).2 })
    (some p) m.env (m.store.frames.define m.env x.lexeme .nil).cells.size hx hmethods
  exact (hrest (hparent.holds (hnamed.holds hs)) m' hm).store

theorem Exec.machine?_bind_pure (x : Exec ν α) (b : β) (m : Machine ν) :
    ((x >>= fun _ => pure b) m).machine? = (x m).machine? := by
  rw [bind_apply]
  cases x m <;> rfl

theorem Declares.changes {methods : List (FunDecl (Stmt ν))} {p : ClassId} {e : FrameId}
    (h : Declares d M methods p s e) (ht : C.task M.1) (hs : M.2.store.Holds C) (hM : M.Ends d m') :
    Changes C (s.addFrame ⟨Table.empty.insert "super" (.classRef p), some e⟩).2 m'.store := by
  cases h with
  | derived hy =>
    obtain ⟨hx, hparent, hmethods⟩ := C.classDecl ht
    obtain ⟨n, hn⟩ := hM
    cases n with
    | zero => cases hn
    | succ n =>
      simp only [Task.leaves, Exec.exec] at hn
      have hrest := hy.rest (fun n => (Exec.fuelledRuns d n).eval _) hn
      have hholds := (leads_of_eval (hparent _ rfl) hs hy).store.holds hs
      exact declareClass_changes hx hmethods hholds ((Exec.machine?_bind_pure _ Flow.normal _).symm.trans hrest)

theorem Makes.changes (h : Makes d M s s' site) (ht : C.task M.1) (hs : M.2.store.Holds C)
    (hM : M.Ends d m') : Changes C s' m'.store := by
  cases h with
  | block => exact Visits.changes (.single .blockBody) ht hs hM
  | function => exact Visits.changes (.single .functionBody) ht hs hM
  | parent h => exact h.changes ht hs hM
  | receiver h => exact h.changes ht hs hM

/-! ## What comes before the frame, and what comes after -/

namespace Makes

/-- The moment leads to the store in which the frame is made. -/
theorem leads (h : Makes d M s s' site) (ht : C.task M.1) (hs : M.2.store.Holds C) :
    Changes C M.2.store s := by
  cases h with
  | block => exact .refl
  | function => exact .refl
  | parent h =>
    cases h with
    | derived hy =>
      obtain ⟨hx, hparent, _⟩ := C.classDecl ht
      exact (leads_of_eval (hparent _ rfl) hs hy).store.tail (.write _ .nil hx)
  | receiver h =>
    cases h with
    | property hy => exact (leads_of_eval (C.get ht) hs hy).store
    | superclass => exact .refl
    | initializer => exact .single (.object _)

/-- What the moment starts is over before the frame is made, or is started with it. -/
theorem calls (h : Makes d M s s' site) (hc : Calls d M E) (ht : C.task M.1) :
    E.EndsBefore C d s ∨ E.2.store = s' := by
  cases h with
  | block =>
    cases hc
    exact .inr rfl
  | function =>
    cases hc
    exact .inr rfl
  | parent h =>
    cases h with
    | derived hy =>
      cases hc
      exact .inl (hy.eval_ends.later (.single (.write _ .nil (C.classDecl ht).1)))
  | receiver h =>
    cases h with
    | property hy =>
      cases hc
      exact .inl hy.eval_ends
    | superclass => cases hc
    | initializer =>
      cases hc
      exact .inr rfl

theorem visits (h : Makes d M s s' site) (hv : Visits d M E) (ht : C.task M.1) (hs : M.2.store.Holds C) :
    Changes C E.2.store s ∨ Changes C s' E.2.store := by
  rcases Relation.ReflTransGen.cases_head hv with rfl | ⟨A, hcall, hvisits⟩
  · exact .inl (h.leads ht hs)
  have hvisits : Visits d A E := hvisits
  have hnext := hcall.handsOn ht hs
  rcases h.calls hcall ht with ⟨m', hends, hlater⟩ | rfl
  · exact .inl ((hvisits.changes hnext.task (hnext.store.holds hs) hends).trans hlater)
  · exact .inr (hvisits.runsCode hnext.task (hnext.store.holds hs)).2

/-- A moment of the same run whose store has the frame comes after it. -/
theorem later (h : Makes d M s s' site) (hc : M.Comparable C d E) (ht : C.task M.1)
    (hs : M.2.store.Holds C) (htE : C.task E.1) (hsE : E.2.store.Holds C)
    (hf : s.frames.cells.size < E.2.store.frames.cells.size) : Changes C s' E.2.store := by
  have hnot : ¬ Changes C E.2.store s := fun hback => absurd hback.grows.frames (Nat.not_le_of_lt hf)
  rcases hc with hv | hv | ⟨m', hends, hlater⟩ | ⟨m', ⟨n, hn⟩, hlater⟩
  · exact (h.visits hv ht hs).resolve_left hnot
  · exact absurd ((hv.runsCode htE hsE).2.trans (h.leads ht hs)) hnot
  · exact (h.changes ht hs hends).trans hlater
  · exact absurd (((leads_of_leaves htE hsE hn).store.trans hlater).trans (h.leads ht hs)) hnot

end Makes

end

end Lox
