import Lox.Proofs.Execution.Changes
import Lox.Proofs.Execution.Raises

/-!
# Method tables

The evaluator makes a class only where one is declared, with the table of the methods written there. So
whatever a search for a method finds is a method of the name that was searched for, and it is an
initializer exactly if this name is `init` (`Tabled.found`). Tables are a case of any property of the store
that the evaluator's changes of it keep (`Store.Lasting`): it lasts through everything that is run
(`maintainingRuns`).
-/

namespace Lox

/-- A property of the store that every operation of the evaluator keeps. -/
structure Store.Lasting (P : Store ν → Prop) : Prop where
  write : ∀ {s} f x v, P s → P { s with frames := s.frames.define f x v }
  addFrame : ∀ {s} frame, P s → P (s.addFrame frame).2
  addFunction : ∀ {s} f, P s → P (s.addFunction f).2
  addClass : ∀ {s} x superclass closure methods, P s →
    P (s.addClass ⟨x, superclass, Exec.methodTable closure methods⟩).2
  addObject : ∀ {s} c, P s → P (s.addObject ⟨c, {}⟩).2
  setField : ∀ {s} i x v, P s → P (s.setField i x v)

namespace Exec

/-- However the step ends on this machine, the store keeps the property. -/
def Maintains (P : Store ν → Prop) (x : Exec ν α) (m : Machine ν) : Prop :=
  P m.store → ∀ m', (x m).machine? = some m' → P m'.store

namespace Maintains

variable {P : Store ν → Prop} {x : Exec ν α} {f : α → Exec ν β} {m : Machine ν}

theorem of_done {a : α} {m' : Machine ν} (hx : x m = .done a m') (h : P m.store → P m'.store) :
    Maintains P x m := by
  intro hm m₁ h₁
  rw [hx] at h₁
  cases h₁
  exact h hm

theorem bind (hx : Maintains P x m) (hf : ∀ a m', x m = .done a m' → Maintains P (f a) m') :
    Maintains P (x >>= f) m := by
  intro hm m' h
  rcases machine?_bind h with h | ⟨a, m₁, hr, h⟩
  · exact hx hm m' h
  · exact hf a m₁ hr (hx hm m₁ (congrArg Result.machine? hr)) m' h

theorem inFrame {frame : FrameId} (hx : Maintains P x { m with env := frame }) :
    Maintains P (Exec.inFrame frame x) m := by
  intro hm m' h
  obtain ⟨m₁, h₁, rfl⟩ := machine?_inFrame h
  exact hx hm m₁ h₁

theorem deeper (hx : Maintains P x { m with depth := m.depth + 1 }) : Maintains P (Exec.deeper x) m := by
  intro hm m' h
  obtain ⟨m₁, h₁, rfl⟩ := machine?_deeper h
  exact hx hm m₁ h₁

theorem printLine (kw : Token) (text : String) : Maintains P (Exec.printLine kw text) m := by
  intro hm m' h
  simp only [Exec.printLine] at h
  split at h <;> cases h <;> exact hm

theorem assignIn (hP : Store.Lasting P) (t : Token) (locate : Frames → Except RuntimeFault FrameId) (v : Value) :
    Maintains P (Exec.assignIn t locate v) m := by
  intro hm m' h
  simp only [Exec.assignIn] at h
  split at h
  · cases h
    exact hP.write _ t.lexeme v hm
  · cases h
    exact hm

end Maintains

section
variable {P : Store ν → Prop} (hP : Store.Lasting P)
include hP

theorem Plain.maintains {x : Exec ν α} (hx : Plain x) (m : Machine ν) : Maintains P x m := by
  induction hx generalizing m with
  | pure a => exact .of_done rfl id
  | read _ => exact .of_done rfl id
  | throwAt t cause =>
    rintro hm _ ⟨⟩
    exact hm
  | define x v => exact .of_done rfl (hP.write m.env x v)
  | assignIn x locate v => exact .assignIn hP x locate v
  | newFrame e names => exact .of_done rfl (hP.addFrame _)
  | newFunction f => exact .of_done rfl (hP.addFunction f)
  | bindMethod f this => exact .of_done rfl (hP.addFrame _)
  | newClass x superclass closure methods => exact .of_done rfl (hP.addClass x superclass closure methods)
  | newObject c => exact .of_done rfl (hP.addObject c)
  | setField i x v => exact .of_done rfl (hP.setField i x v)
  | readClock => exact .of_done rfl id
  | bind _ _ ihx ihf => exact .bind (ihx m) fun a m' _ => ihf a m'

theorem maintains_law (d : Distances ν) : Law d fun _ _ x m => Maintains P x m where
  outOfFuel _ _ h := nomatch h
  plain hx _ := hx.maintains hP _
  printLine _ := .printLine _ _
  bind := .bind
  inFrame := .inFrame
  deeper := .deeper
  calls _ hx := hx

/-- What is run with some fuel keeps the property. -/
theorem maintainingRuns (d : Distances ν) (n : Nat) : Runs d (fun _ _ x m => Maintains P x m) n :=
  (maintains_law hP d).runs n

/-- However a program ends. -/
theorem interpret_maintains (d : Distances ν) (n : Nat) (tree : List (Stmt ν)) (m : Machine ν) :
    Maintains P (interpret d n tree) m := by
  induction tree generalizing m with
  | nil => exact .of_done rfl id
  | cons t ts ih => exact .bind ((maintainingRuns hP d n).exec t m) fun _ m' _ => ih m'

end

end Exec

/-! ## Moments -/

section
variable {P : Store ν → Prop} {d : Distances ν} {m m' : Machine ν}

theorem Exec.Yields.maintains {x : Nat → Exec ν α} {a : α} (h : Exec.Yields x m a m')
    (hx : ∀ n, Exec.Maintains P (x n) m) (hm : P m.store) : P m'.store := by
  obtain ⟨n, hn⟩ := h
  exact hx n hm m' (congrArg Result.machine? hn)

variable (hP : Store.Lasting P)
include hP

theorem maintains_of_leaves {T : Task ν} {n : Nat} (hm : P m.store) (h : T.leaves d n m = some m') :
    P m'.store := by
  rw [T.leaves_eq] at h
  exact (Exec.maintains_law hP d).run (T, m) n hm m' h

/-- One step of the walk: a task is started where others left the store, or in a fresh frame. -/
theorem Calls.maintains {M M' : Moment ν} (h : Calls d M M') (hM : P M.2.store) : P M'.2.store := by
  have heval : ∀ {e m v m'}, P m.store → Exec.Yields (Exec.eval d · e) m v m' → P m'.store :=
    fun hm hy => hy.maintains (fun n => (Exec.maintainingRuns hP d n).eval _ _) hm
  have hexec : ∀ {t m flow m'}, P m.store → Exec.Yields (Exec.exec d · t) m flow m' → P m'.store :=
    fun hm hy => hy.maintains (fun n => (Exec.maintainingRuns hP d n).exec _ _) hm
  cases h with
  | binaryRight hl => exact heval hM hl
  | arguments hf => exact heval hM hf
  | invoke hf ha => exact ha.maintains (fun n => (Exec.maintainingRuns hP d n).evalAll _ _) (heval hM hf)
  | logicalRight hl => exact heval hM hl
  | setValue ho => exact heval hM ho
  | others he => exact heval hM he
  | initializer => exact hP.addFrame _ (hP.addObject _ hM)
  | functionBody => exact hP.addFrame _ hM
  | blockBody => exact hP.addFrame _ hM
  | thenBranch hc => exact heval hM hc
  | elseBranch hc => exact heval hM hc
  | loopBody hc => exact heval hM hc
  | loopAgain hc _ hb => exact hexec (heval hM hc) hb
  | otherStatements hst => exact hexec hM hst
  | _ => exact hM

theorem Visits.maintains {M M' : Moment ν} (h : Visits d M M') (hM : P M.2.store) : P M'.2.store := by
  induction h with
  | refl => exact hM
  | tail _ hcall ih => exact hcall.maintains hP ih

theorem Starts.maintains {tree : List (Stmt ν)} {S : Moment ν} (h : Starts d tree m S) (hm : P m.store) :
    P S.2.store := by
  induction h with
  | first => exact hm
  | next hy _ ih => exact ih (hy.maintains (fun n => (Exec.maintainingRuns hP d n).exec _ _) hm)

end

/-! ## Tables -/

/-- Every method of a class stands under its own name, and those that stand under `init` are the
initializers. -/
def Store.Tabled (s : Store ν) : Prop :=
  ∀ (i : Nat) c, s.classes[i]? = some c → ∀ p ∈ c.methods.entries,
    p.2.decl.name.lexeme = p.1 ∧ p.2.isInitializer = decide (p.1 = "init")

namespace Store

theorem tabled_lasting : Lasting (Tabled (ν := ν)) where
  write _ _ _ h := h
  addFrame _ h := h
  addFunction _ h := h
  addObject _ h := h
  setField _ _ _ h := h
  addClass {s} x superclass closure methods h := by
    intro i c hc p hp
    simp only [addClass, Array.getElem?_push] at hc
    split at hc
    · cases hc
      rcases Exec.mem_insertAll hp with hp | hp
      · obtain ⟨m, _, rfl⟩ := List.mem_map.1 hp
        exact ⟨rfl, rfl⟩
      · cases hp
    · exact h i c hc p hp

/-- What a search finds has the name that was searched for. -/
theorem Tabled.found {s : Store ν} (h : s.Tabled) {i : ClassId} {x : String} {f : Function ν}
    (hf : s.method? i x = some f) : f.decl.name.lexeme = x ∧ f.isInitializer = decide (x = "init") := by
  obtain ⟨j, c, hc, hmem⟩ := mem_of_methodWithin? hf
  exact h j c hc _ hmem

end Store

end Lox
