import Lox.Proofs.Execution.Properties
import Lox.Proofs.Session.Construction

/-!
# Properties in a session

Every state of a session comes after some events, and the code that runs is what adds to them: a class
declaration declares a class, the call of a class makes an object, an assignment to a property sets it
(`Attempt.Tells`). So what a property gives is told by the declarations, calls and assignments so far:
`property_lookup_law`.
-/

namespace Lox

open Exec in
/-- What a run does to the classes and the objects. -/
structure Attempt.Tells (r : Attempt) : Prop where
  /-- Every state comes after some events, and in it every object is of a class that was declared. -/
  reached : ∀ m, r.Reaches m → ∃ H, m.store.After H ∧ ∀ i < m.store.objects.size,
    ∃ c superclass closure methods, .constructed i c ∈ H ∧ .declared c superclass closure methods ∈ H
  /-- A task adds to the events before it. -/
  continues : ∀ T m H n m', r.Visits (T, m) → m.store.After H → T.leaves r.distances n m = some m' →
    ∃ H', m'.store.After (H' ++ H)
  /-- A class declaration declares its class last, under what its superclass clause gives, and nothing happens
  before but what is done for the clause. -/
  declares : ∀ x parent methods m H flow m', r.Visits (.exec (.classDecl x parent methods), m) →
    m.store.After H → Yields (exec r.distances · (.classDecl x parent methods)) m flow m' →
    ∃ c superclass closure H', m'.store.After (.declared c superclass closure methods :: (H' ++ H)) ∧
      ((parent = none ∧ superclass = none ∧ H' = []) ∨ ∃ e p m₁, parent = some e ∧ superclass = some p ∧
        Yields (eval r.distances · e) m (.classRef p) m₁ ∧ m₁.store.After (H' ++ H))
  /-- The call of a class makes the object that it gives, and does no more where there is no initializer. -/
  constructs : ∀ c paren args m H v m', r.Visits (.invoke paren (.classRef c) args, m) → m.store.After H →
    Yields (invoke r.distances · paren (.classRef c) args) m v m' →
    ∃ i H', v = .objectRef i ∧ m'.store.After (H' ++ .constructed i c :: H) ∧
      (m.store.method? c "init" = none → H' = [])
  /-- An assignment to a property evaluates the object, then the value, and then sets the property and changes
  nothing else. -/
  sets : ∀ o x e m H v m', r.Visits (.eval (.set o x e), m) → m.store.After H →
    Yields (eval r.distances · (.set o x e)) m v m' →
    ∃ i m₁ m₂ H', Yields (eval r.distances · o) m (.objectRef i) m₁ ∧ Yields (eval r.distances · e) m₁ v m₂ ∧
      m₂.store.After (H' ++ H) ∧ m' = m₂.setField i x.lexeme v ∧ m'.store.After (.set i x.lexeme v :: (H' ++ H))
  /-- A property is read where the evaluation of its object ends. -/
  gets : ∀ o x m H i m₁, r.Visits (.eval (.get o x), m) → m.store.After H →
    Yields (eval r.distances · o) m (.objectRef i) m₁ →
    ∃ n H', eval r.distances n (.get o x) m = getProperty i x m₁ ∧ m₁.store.After (H' ++ H)

section
variable {clock : Clock} {limit : Option Nat} {rs : List Attempt} {r : Attempt} {m m' : Machine NodeId}
  {H : List (Event NodeId)}

/-- Superclasses come before their classes in every state of a session. -/
theorem Attempt.Reaches.after (hist : Session.History clock limit rs r.session) (hm : r.Reaches m)
    (h : m.store.Continues H) : ∃ H', m.store.After (H' ++ H) :=
  h (hm.sound hist).store.superclass_leadsBack

theorem Attempt.Reaches.exists_after (hist : Session.History clock limit rs r.session) (hm : r.Reaches m) :
    ∃ H, m.store.After H ∧ ∀ i < m.store.objects.size,
      ∃ c superclass closure methods, .constructed i c ∈ H ∧ .declared c superclass closure methods ∈ H := by
  have hfirst : (Machine.initial (ν := NodeId) clock limit).store.After [] := .start rfl rfl
  obtain ⟨H, h⟩ := hm.after hist (hm.lasting (Store.continues_lasting []) hfirst.continues hist)
  rw [List.append_nil] at h
  refine ⟨H, h, fun i hi => ?_⟩
  obtain ⟨o, ho⟩ : ∃ o, m.store.objects[i]? = some o := ⟨_, Array.getElem?_eq_getElem hi⟩
  have hclass : o.classId < m.store.classes.size := ((hm.sound hist).store.objects i o ho).classId
  obtain ⟨closure, methods, hdeclared, _⟩ := h.recorded.classes o.classId _ (Array.getElem?_eq_getElem hclass)
  exact ⟨o.classId, _, closure, methods, (h.recorded.objects i o ho).1, hdeclared⟩

/-- Every run tells what it does. -/
theorem Session.History.tells (hist : Session.History clock limit rs r.session) : r.Tells where
  reached _ hm := hm.exists_after hist
  continues T m H n m' hv h hl := by
    have hlater := maintains_of_leaves (Store.continues_lasting H) h.continues hl
    exact (Attempt.Reaches.ends hv hl).after hist hlater
  declares x parent methods m H flow m' hv h hy := by
    obtain ⟨n, hn⟩ := hy
    obtain ⟨superclass, m₁, hdeclare, hparent⟩ := Exec.yields_classDecl hn
    have hsound := (Attempt.Reaches.starts hv).sound hist
    rcases hparent with ⟨rfl, rfl, rfl⟩ | ⟨e, p, rfl, rfl, he⟩
    · obtain ⟨closure, hafter⟩ := Exec.after_declareClass h (by simp) hdeclare
      exact ⟨_, none, closure, [], hafter, .inl ⟨rfl, rfl, rfl⟩⟩
    · obtain ⟨H', hbefore⟩ := h.eval hsound he
      obtain ⟨_, hclass⟩ := advances_of_eval hsound he
      obtain ⟨closure, hafter⟩ := Exec.after_declareClass hbefore (by rintro _ ⟨⟩; exact hclass) hdeclare
      exact ⟨_, some p, closure, H', hafter, .inr ⟨e, p, m₁, rfl, rfl, he, hbefore⟩⟩
  constructs c paren args m H v m' hv h hy := by
    obtain ⟨n, hn⟩ := hy
    obtain ⟨rfl, hlater, hbare⟩ := Exec.continues_invoke_class h hn
    by_cases hinit : m.store.method? c "init" = none
    · exact ⟨_, [], rfl, hbare hinit, fun _ => rfl⟩
    · obtain ⟨H', hafter⟩ := (Attempt.Reaches.ends (n := n) hv (congrArg Result.machine? hn)).after hist hlater
      exact ⟨_, H', rfl, hafter, fun h => absurd h hinit⟩
  sets o x e m H v m' hv h hy := by
    obtain ⟨n, hn⟩ := hy
    obtain ⟨i, m₁, m₂, ho, he, rfl⟩ := Exec.yields_set hn
    have hsound := (Attempt.Reaches.starts hv).sound hist
    obtain ⟨hobject, hi⟩ := advances_of_eval hsound ho
    obtain ⟨hvalue, _⟩ := advances_of_eval (hobject.sound hsound) he
    -- the object is evaluated, then the value
    obtain ⟨H₁, hfirst⟩ := h.eval hsound ho
    obtain ⟨H₂, hthen⟩ := hfirst.eval (hobject.sound hsound) he
    rw [← List.append_assoc] at hthen
    exact ⟨i, m₁, m₂, H₂ ++ H₁, ho, he, hthen, rfl, hthen.set x.lexeme v (hvalue.has hi)⟩
  gets o x m H i m₁ hv h ho := by
    obtain ⟨H', hafter⟩ := h.eval ((Attempt.Reaches.starts hv).sound hist) ho
    obtain ⟨n, hn⟩ : ∃ n, Exec.eval r.distances n o m = .done (.objectRef i) m₁ := ho
    refine ⟨n + 1, H', ?_, hafter⟩
    rw [Exec.eval, Exec.bind_apply, hn]

/-- After any events, a property of an object gives the value that was set last, if one was; otherwise the
method of the first class upwards from that of the object whose body declares it, the last one there, bound to
the object; otherwise an error. Setting a property leaves the method tables alone and changes no other property
of any object. And the events of a session are what its code does. -/
theorem property_lookup_law (hist : Session.History clock limit rs r.session) :
    (∀ (m : Machine NodeId) H, m.store.After H → ∀ i c superclass closure methods, .constructed i c ∈ H →
      .declared c superclass closure methods ∈ H → ∀ x : Token,
        ∃ found, (∀ f, Event.Inherits H x.lexeme c f ↔ f = found) ∧
          m.Gives i x (Event.lastSet i x.lexeme H) found) ∧
    (∀ x, RuntimeFault.message (.undefinedProperty x) = "Undefined property '" ++ x ++ "'.") ∧
    (∀ (m : Machine NodeId) i x v, (m.setField i x v).store.classes = m.store.classes ∧
      ∀ j y, ¬(j = i ∧ y.lexeme = x) →
        Exec.getProperty j y (m.setField i x v) = (Exec.getProperty j y m).update (·.setField i x v)) ∧
    r.Tells := by
  refine ⟨fun m H h i c superclass closure methods hi hc x => ?_, fun _ => rfl,
    fun m i x v => ⟨rfl, fun j y hne => ?_⟩, hist.tells⟩
  · have hfound := h.recorded.inherits_method hc x.lexeme
    refine ⟨m.store.method? c x.lexeme, fun f => ⟨h.recorded.eq_of_inherits, ?_⟩, h.gives hi hfound⟩
    rintro rfl
    exact hfound
  · exact Exec.getProperty_setField hne m v

end

/-- Three methods, two of them of one name. -/
def overloaded : List (FunDecl (Stmt NodeId)) :=
  [⟨.ident "f" 1, [], []⟩, ⟨.ident "f" 2, [], []⟩, ⟨.ident "g" 3, [], []⟩]

/-- Two objects of a class that inherits the methods. For one of them a property hides a method. -/
def siblings : List (Event NodeId) :=
  [.set 0 "f" .nil, .constructed 1 1, .constructed 0 1, .declared 1 (some 0) 0 [], .declared 0 none 0 overloaded]

theorem exists_siblings : ∃ m : Machine NodeId, m.store.After siblings := by
  have hnone : ({} : Store NodeId).After [] := .start rfl rfl
  have hA := hnone.declare "A" 0 overloaded fun p (hp : p ∈ none) => nomatch hp
  have hB := hA.declare "B" 0 [] fun p (hp : p ∈ some 0) => by
    cases hp
    decide
  have hobjects := (hB.construct 1).construct 1
  exact ⟨{ (Machine.initial ⟨fun _ => 0, 0⟩ : Machine NodeId) with store := _ },
    hobjects.set "f" .nil (i := 0) (by decide)⟩

/-- The later method of the name is inherited. -/
theorem siblings_inherit : Event.Inherits siblings "f" 1 (some ⟨⟨.ident "f" 2, [], []⟩, 0, false⟩) := by
  have hB : .declared 1 (some 0) 0 [] ∈ siblings := by simp [siblings]
  have hA : .declared 0 none 0 ([⟨.ident "f" 1, [], []⟩] ++ ⟨.ident "f" 2, [], []⟩ :: [⟨.ident "g" 3, [], []⟩]) ∈
      siblings := by simp [siblings, overloaded]
  exact .above hB (by simp) (.own hA rfl (by decide))

/-- A program that declares a class. -/
def oneClass : Attempt := ⟨.fresh ⟨fun _ => 0, 0⟩, "class A {}"⟩

theorem siblings_give :
    (∃ m : Machine NodeId, m.store.After siblings ∧
      m.Gives 0 (.ident "f" 4) (some .nil) (some ⟨⟨.ident "f" 2, [], []⟩, 0, false⟩) ∧
      m.Gives 1 (.ident "f" 4) none (some ⟨⟨.ident "f" 2, [], []⟩, 0, false⟩) ∧
      m.Gives 1 (.ident "h" 4) none none) ∧
    ∃ m c closure H, oneClass.Reaches m ∧ m.store.After (.declared c none closure [] :: H) := by
  obtain ⟨hlaw, _, _, htells⟩ := property_lookup_law (r := oneClass) .fresh
  have ha : oneClass.Accepted := ⟨by decide +kernel, by decide +kernel, by decide +kernel⟩
  have ht : oneClass.tree = [.classDecl (.ident "A" 1) none []] := by cbv
  constructor
  · obtain ⟨m, hm⟩ := exists_siblings
    have hB : .declared 1 (some 0) 0 [] ∈ siblings := by simp [siblings]
    have hread : ∀ i x, .constructed i 1 ∈ siblings → ∀ f, Event.Inherits siblings x 1 f →
        m.Gives i (.ident x 4) (Event.lastSet i x siblings) f := by
      intro i x hi f hf
      obtain ⟨found, hfound, hgives⟩ := hlaw m siblings hm i 1 _ _ _ hi hB (.ident x 4)
      obtain rfl := (hfound f).1 hf
      exact hgives
    have hh : Event.Inherits siblings "h" 1 none := by
      have hA : .declared 0 none 0 overloaded ∈ siblings := by simp [siblings]
      exact .above hB (by simp) (.nowhere hA (by decide))
    exact ⟨m, hm, hread 0 "f" (by simp [siblings]) _ siblings_inherit,
      hread 1 "f" (by simp [siblings]) _ siblings_inherit, hread 1 "h" (by simp [siblings]) _ hh⟩
  · have hv : oneClass.Visits (.exec (.classDecl (.ident "A" 1) none []), oneClass.session.machine) :=
      ⟨ha, _, ht ▸ .first, .refl⟩
    obtain ⟨c, _, closure, H, hafter, hparent⟩ := htells.declares _ _ _ _ _ _ _ hv (.start rfl rfl) ⟨1, rfl⟩
    obtain ⟨-, rfl, -⟩ | ⟨e, _, _, he, _⟩ := hparent
    · exact ⟨_, c, closure, _, .ends (T := .exec _) (n := 1) hv rfl, hafter⟩
    · cases he

end Lox
