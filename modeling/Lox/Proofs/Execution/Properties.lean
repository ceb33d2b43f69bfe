import Lox.Proofs.Execution.Initializers
import Lox.Proofs.Execution.Links

/-!
# Properties

What an object answers is told by what has happened to classes and objects: which classes were declared, which
objects were made, which properties were set. A store that is there after such events records them
(`Store.After.recorded`), so that a field holds the value that was set last and the search for a method runs
through the bodies of the declarations (`Store.Recorded.findsMethod_iff`). What reading a property gives is then
read off the events (`Store.After.gives`); and a property that is set changes no other one
(`Exec.getProperty_setField`).
-/

namespace Lox

/-- What happens to the classes and the objects of a store. -/
inductive Event (ν : Type) where
  | declared (c : ClassId) (superclass : Option ClassId) (closure : FrameId) (methods : List (FunDecl (Stmt ν)))
  | constructed (i : ObjectId) (c : ClassId)
  | set (i : ObjectId) (x : String) (v : Value)

namespace Event

/-- The value that was set last for a property of an object. The events are listed newest first. -/
def lastSet (i : ObjectId) (x : String) : List (Event ν) → Option Value
  | [] => none
  | .set j y v :: H => if j = i ∧ y = x then some v else lastSet i x H
  | .declared .. :: H | .constructed .. :: H => lastSet i x H

/-- The method of a name: the last of this name in the body of the class, or what the superclass has. -/
inductive Inherits (H : List (Event ν)) (x : String) : ClassId → Option (Function ν) → Prop
  | own {superclass : Option ClassId} {closure : FrameId} : .declared c superclass closure (before ++ f :: after) ∈ H →
      f.name.lexeme = x → (∀ g ∈ after, g.name.lexeme ≠ x) → Inherits H x c (some ⟨f, closure, x = "init"⟩)
  | above {closure : FrameId} : .declared c (some p) closure methods ∈ H → (∀ g ∈ methods, g.name.lexeme ≠ x) →
      Inherits H x p found → Inherits H x c found
  | nowhere {closure : FrameId} : .declared c none closure methods ∈ H → (∀ g ∈ methods, g.name.lexeme ≠ x) →
      Inherits H x c none

end Event

/-- A store after some events, newest first: a class is declared after its superclass, and a property is set of
an object that is there. Between the events anything may have happened that leaves classes and objects alone. -/
inductive Store.After : List (Event ν) → Store ν → Prop
  | start : s.classes = #[] → s.objects = #[] → After [] s
  | declare (name : String) (closure : FrameId) (methods : List (FunDecl (Stmt ν))) : After H s →
      (∀ p ∈ superclass, p < s.classes.size) →
      After (.declared s.classes.size superclass closure methods :: H)
        (s.addClass ⟨name, superclass, Exec.methodTable closure methods⟩).2
  | construct (c : ClassId) : After H s → After (.constructed s.objects.size c :: H) (s.addObject ⟨c, {}⟩).2
  | set (x : String) (v : Value) : After H s → i < s.objects.size →
      After (.set i x v :: H) (s.setField i x v)
  | other : After H s → s'.classes = s.classes → s'.objects = s.objects → After H s'

/-! ## Method tables -/

namespace Table

theorem insertAll_append (t : Table α) (l l' : List (String × α)) :
    t.insertAll (l ++ l') = (t.insertAll l).insertAll l' :=
  List.foldl_append

theorem get?_insertAll_of_ne {l : List (String × α)} {x : String} (h : ∀ p ∈ l, p.1 ≠ x) (t : Table α) :
    (t.insertAll l).get? x = t.get? x := by
  induction l generalizing t with
  | nil => rfl
  | cons p l ih =>
    obtain ⟨hp, hl⟩ := List.forall_mem_cons.1 h
    exact (ih hl (t.insert p.1 p.2)).trans ((get?_insert t p.1 x p.2).trans (if_neg (Ne.symm hp)))

end Table

namespace Exec

variable {closure : FrameId} {methods : List (FunDecl (Stmt ν))} {x : String} {f : Lox.Function ν}

/-- Where a name is declared at all, one declaration is the last. -/
theorem exists_last (methods : List (FunDecl (Stmt ν))) (x : String) :
    (∀ g ∈ methods, g.name.lexeme ≠ x) ∨ ∃ before g after, methods = before ++ g :: after ∧
      g.name.lexeme = x ∧ ∀ g' ∈ after, g'.name.lexeme ≠ x := by
  induction methods with
  | nil => exact .inl fun g hg => nomatch hg
  | cons f rest ih =>
    rcases ih with hnone | ⟨before, g, after, rfl, hg, hafter⟩
    · by_cases hf : f.name.lexeme = x
      · exact .inr ⟨[], f, rest, rfl, hf, hnone⟩
      · exact .inl (List.forall_mem_cons.2 ⟨hf, hnone⟩)
    · exact .inr ⟨f :: before, g, after, rfl, hg, hafter⟩

theorem get?_insertAll_declarations (h : ∀ g ∈ methods, g.name.lexeme ≠ x) (t : Table (Lox.Function ν)) :
    (t.insertAll (methods.map fun g => (g.name.lexeme, ⟨g, closure, g.name.lexeme = "init"⟩))).get? x =
      t.get? x := by
  refine Table.get?_insertAll_of_ne (fun p hp => ?_) t
  obtain ⟨g, hg, rfl⟩ := List.mem_map.1 hp
  exact h g hg

theorem methodTable_of_ne (h : ∀ g ∈ methods, g.name.lexeme ≠ x) : (methodTable closure methods).get? x = none :=
  get?_insertAll_declarations h _

/-- The last declaration of a name counts. -/
theorem methodTable_of_last {before after : List (FunDecl (Stmt ν))} {g : FunDecl (Stmt ν)}
    (hg : g.name.lexeme = x) (hafter : ∀ g' ∈ after, g'.name.lexeme ≠ x) :
    (methodTable closure (before ++ g :: after)).get? x = some ⟨g, closure, x = "init"⟩ := by
  subst hg
  rw [methodTable, List.map_append, List.map_cons, Table.insertAll_append]
  exact (get?_insertAll_declarations hafter _).trans ((Table.get?_insert _ _ _ _).trans (if_pos rfl))

theorem methodTable_eq_none :
    (methodTable closure methods).get? x = none ↔ ∀ g ∈ methods, g.name.lexeme ≠ x := by
  refine ⟨fun h => ?_, methodTable_of_ne⟩
  rcases exists_last methods x with hnone | ⟨before, g, after, rfl, hg, hafter⟩
  · exact hnone
  · cases h.symm.trans (methodTable_of_last hg hafter)

theorem methodTable_eq_some :
    (methodTable closure methods).get? x = some f ↔ ∃ before g after, methods = before ++ g :: after ∧
      g.name.lexeme = x ∧ (∀ g' ∈ after, g'.name.lexeme ≠ x) ∧ f = ⟨g, closure, x = "init"⟩ := by
  constructor
  · intro h
    rcases exists_last methods x with hnone | ⟨before, g, after, rfl, hg, hafter⟩
    · cases h.symm.trans (methodTable_of_ne hnone)
    · exact ⟨before, g, after, rfl, hg, hafter, Option.some.inj (h.symm.trans (methodTable_of_last hg hafter))⟩
  · rintro ⟨before, g, after, rfl, hg, hafter, rfl⟩
    exact methodTable_of_last hg hafter

end Exec

/-! ## What a store records -/

/-- The store and the events agree: on classes and their methods, on objects and their fields. -/
structure Store.Recorded (s : Store ν) (H : List (Event ν)) : Prop where
  declared : ∀ c superclass closure methods, .declared c superclass closure methods ∈ H →
    ∃ name, s.classes[c]? = some ⟨name, superclass, Exec.methodTable closure methods⟩
  classes : ∀ (c : Nat) k, s.classes[c]? = some k → ∃ closure methods,
    .declared c k.superclass closure methods ∈ H ∧ k.methods = Exec.methodTable closure methods
  superclass : LeadsBack s.superclass?
  constructed : ∀ i c, .constructed i c ∈ H → ∃ o, s.objects[i]? = some o ∧ o.classId = c
  objects : ∀ (i : Nat) o, s.objects[i]? = some o → .constructed i o.classId ∈ H ∧
    ∀ x, o.fields.get? x = Event.lastSet i x H
  unset : ∀ i x, s.objects.size ≤ i → Event.lastSet i x H = none

namespace Store.Recorded

open Event

variable {s s' : Store ν} {H : List (Event ν)} {i : ObjectId} {c : ClassId} {x : String} {v : Value}

theorem declare (h : s.Recorded H) (name : String) {superclass : Option ClassId} (closure : FrameId)
    (methods : List (FunDecl (Stmt ν))) (hp : ∀ p ∈ superclass, p < s.classes.size) :
    (s.addClass ⟨name, superclass, Exec.methodTable closure methods⟩).2.Recorded
      (.declared s.classes.size superclass closure methods :: H) where
  declared c superclass' closure' methods' hmem := by
    rcases List.mem_cons.1 hmem with heq | hmem
    · cases heq
      exact ⟨name, Array.getElem?_push_size⟩
    · obtain ⟨name', hc⟩ := h.declared _ _ _ _ hmem
      exact ⟨name', getElem?_push_of_some hc⟩
  classes := by
    refine forall_push (fun c k hk => ?_) ⟨closure, methods, List.mem_cons_self, rfl⟩
    obtain ⟨closure', methods', hmem, hmethods⟩ := h.classes c k hk
    exact ⟨closure', methods', List.mem_cons_of_mem _ hmem, hmethods⟩
  superclass := by
    intro c p hlink
    obtain ⟨k, hk, hkp⟩ := Option.bind_eq_some_iff.1 hlink
    refine forall_push (P := fun c k => ∀ p ∈ k.superclass, p < c) (fun c k hk p hkp => ?_) hp c k hk p hkp
    exact h.superclass c p (Option.bind_eq_some_iff.2 ⟨k, hk, hkp⟩)
  constructed i c hmem := h.constructed i c (by simpa using hmem)
  objects i o ho := by
    obtain ⟨hmem, hfields⟩ := h.objects i o ho
    exact ⟨List.mem_cons_of_mem _ hmem, hfields⟩
  unset := h.unset

theorem construct (h : s.Recorded H) (c : ClassId) :
    (s.addObject ⟨c, {}⟩).2.Recorded (.constructed s.objects.size c :: H) where
  declared c superclass closure methods hmem := h.declared c superclass closure methods (by simpa using hmem)
  classes c k hk := by
    obtain ⟨closure, methods, hmem, hmethods⟩ := h.classes c k hk
    exact ⟨closure, methods, List.mem_cons_of_mem _ hmem, hmethods⟩
  superclass := h.superclass
  constructed i c' hmem := by
    rcases List.mem_cons.1 hmem with heq | hmem
    · cases heq
      exact ⟨⟨c, {}⟩, Array.getElem?_push_size, rfl⟩
    · obtain ⟨o, ho, hclass⟩ := h.constructed i c' hmem
      exact ⟨o, getElem?_push_of_some ho, hclass⟩
  objects := by
    refine forall_push (fun i o ho => ?_) ⟨List.mem_cons_self, fun x => ?_⟩
    · obtain ⟨hmem, hfields⟩ := h.objects i o ho
      exact ⟨List.mem_cons_of_mem _ hmem, hfields⟩
    · -- nothing was set for an object that was not there
      exact (h.unset _ x (Nat.le_refl _)).symm
  unset i x hi := by
    refine h.unset i x (Nat.le_of_succ_le ?_)
    simpa [addObject] using hi

theorem lastSet_cons_of_ne {j : ObjectId} (hne : j ≠ i) : lastSet i x (.set j y v :: H) = lastSet i x H := by
  rw [lastSet, if_neg fun heq => hne heq.1]

theorem set (h : s.Recorded H) (hi : i < s.objects.size) (x : String) (v : Value) :
    (s.setField i x v).Recorded (.set i x v :: H) where
  declared c superclass closure methods hmem := h.declared c superclass closure methods (by simpa using hmem)
  classes c k hk := by
    obtain ⟨closure, methods, hmem, hmethods⟩ := h.classes c k hk
    exact ⟨closure, methods, List.mem_cons_of_mem _ hmem, hmethods⟩
  superclass := h.superclass
  constructed j c hmem := by
    obtain ⟨o, ho, rfl⟩ := h.constructed j c (by simpa using hmem)
    obtain ⟨o', ho', hclass, _⟩ := (Change.field (C := .all ν) i x v).keeps.objects j o ho
    exact ⟨o', ho', hclass⟩
  objects j o ho := by
    simp only [setField, Array.getElem?_modify] at ho
    split at ho
    · next heq =>
      subst heq
      obtain ⟨old, hold, rfl⟩ := Option.map_eq_some_iff.1 ho
      obtain ⟨hmem, hfields⟩ := h.objects _ old hold
      refine ⟨List.mem_cons_of_mem _ hmem, fun y => ?_⟩
      simp only [Table.get?_insert, lastSet, true_and, hfields y, eq_comm (a := y)]
    · next hne =>
      obtain ⟨hmem, hfields⟩ := h.objects j o ho
      refine ⟨List.mem_cons_of_mem _ hmem, fun y => ?_⟩
      rw [lastSet_cons_of_ne hne, hfields y]
  unset j y hj := by
    have hsize : s.objects.size ≤ j := by simpa [setField] using hj
    rw [lastSet_cons_of_ne (Nat.ne_of_lt (Nat.lt_of_lt_of_le hi hsize)), h.unset j y hsize]

end Store.Recorded

theorem Store.After.recorded {s : Store ν} {H : List (Event ν)} (h : s.After H) : s.Recorded H := by
  induction h with
  | start hclasses hobjects =>
    refine ⟨fun _ _ _ _ hmem => (nomatch hmem), fun c k hk => ?_, fun c p hp => ?_,
      fun _ _ hmem => (nomatch hmem), fun i o ho => ?_, fun _ _ _ => rfl⟩
    · simp [hclasses] at hk
    · simp [Store.superclass?, hclasses] at hp
    · simp [hobjects] at ho
  | declare name closure methods _ hp ih => exact ih.declare name closure methods hp
  | construct c _ ih => exact ih.construct c
  | set x v _ hi ih => exact ih.set hi x v
  | other _ hclasses hobjects ih =>
    refine ⟨hclasses ▸ ih.declared, hclasses ▸ ih.classes, ?_, hobjects ▸ ih.constructed, hobjects ▸ ih.objects,
      hobjects ▸ ih.unset⟩
    unfold Store.superclass?
    exact hclasses ▸ ih.superclass

/-! ## Searches -/

namespace Store.Recorded

open Event

variable {s : Store ν} {H : List (Event ν)} {c : ClassId} {x : String} {found : Option (Function ν)}

theorem findsMethod_of_inherits (h : s.Recorded H) (hin : Inherits H x c found) : s.FindsMethod x c found := by
  induction hin with
  | own hmem hf hafter =>
    obtain ⟨_, hc⟩ := h.declared _ _ _ _ hmem
    exact .own hc (Exec.methodTable_of_last hf hafter)
  | above hmem hnone _ ih =>
    obtain ⟨_, hc⟩ := h.declared _ _ _ _ hmem
    exact .above hc (Exec.methodTable_of_ne hnone) rfl ih
  | nowhere hmem hnone =>
    obtain ⟨_, hc⟩ := h.declared _ _ _ _ hmem
    exact .nowhere hc (Exec.methodTable_of_ne hnone) rfl

theorem inherits_of_findsMethod (h : s.Recorded H) (hfind : s.FindsMethod x c found) : Inherits H x c found := by
  induction hfind with
  | own hc hf =>
    obtain ⟨closure, methods, hmem, hmethods⟩ := h.classes _ _ hc
    rw [hmethods] at hf
    obtain ⟨before, g, after, rfl, hg, hafter, rfl⟩ := Exec.methodTable_eq_some.1 hf
    exact .own hmem hg hafter
  | above hc hnone hp _ ih =>
    obtain ⟨closure, methods, hmem, hmethods⟩ := h.classes _ _ hc
    rw [hmethods] at hnone
    rw [hp] at hmem
    exact .above hmem (Exec.methodTable_eq_none.1 hnone) ih
  | nowhere hc hnone hp =>
    obtain ⟨closure, methods, hmem, hmethods⟩ := h.classes _ _ hc
    rw [hmethods] at hnone
    rw [hp] at hmem
    exact .nowhere hmem (Exec.methodTable_eq_none.1 hnone)

/-- The search for a method runs through the bodies of the declarations. -/
theorem findsMethod_iff (h : s.Recorded H) : s.FindsMethod x c found ↔ Inherits H x c found :=
  ⟨h.inherits_of_findsMethod, h.findsMethod_of_inherits⟩

/-- Every search from a declared class ends. -/
theorem inherits_method (h : s.Recorded H) {parent : Option ClassId} {closure : FrameId}
    {methods : List (FunDecl (Stmt ν))} (hc : .declared c parent closure methods ∈ H) (x : String) :
    Inherits H x c (s.method? c x) := by
  obtain ⟨_, hc⟩ := h.declared _ _ _ _ hc
  obtain ⟨hlt, _⟩ := Array.getElem?_eq_some_iff.1 hc
  exact h.findsMethod_iff.1 (findsMethod_within h.superclass x hlt hlt)

/-- Every search ends with the same. -/
theorem eq_of_inherits (h : s.Recorded H) (hin : Inherits H x c found) : found = s.method? c x := by
  have hfind := h.findsMethod_iff.2 hin
  have hlt : c < s.classes.size := by
    cases hfind <;> exact (Array.getElem?_eq_some_iff.1 ‹s.classes[c]? = some _›).1
  exact hfind.unique (findsMethod_within h.superclass x hlt hlt)

end Store.Recorded

/-! ## Reading -/

/-- A call of the value runs the body of the method, in a frame that lies inside one which holds the object
under `this` and lies in turn inside the frame of the method. Only the number of arguments and the depth of the
calls are checked before. -/
def Machine.CallRuns (m : Machine ν) (v : Value) (f : Function ν) (i : ObjectId) : Prop :=
  ∃ g, m.store.frames.enclosing? g = some f.closure ∧ m.store.frames.lookup? g "this" = some (.objectRef i) ∧
    ∀ d n paren args, Exec.invoke d (n + 2) paren v args m =
      if args.length ≠ f.arity then .failed ⟨paren, .wrongArity f.arity args.length⟩ m
      else if maxCallDepth ≤ m.depth then .failed ⟨paren, .stackOverflow⟩ m
      else Exec.deeper (Exec.applyFunction d n { f with closure := g } args) m

theorem Store.Binds.callRuns {m : Machine ν} {v : Value} {f : Function ν} {i : ObjectId}
    (h : m.store.Binds v f i) : m.CallRuns v f i := by
  obtain ⟨k, g, rfl, hf, he, hthis⟩ := h
  refine ⟨g, he, hthis, fun d n paren args => ?_⟩
  have hcallable : Callable.of? m.store (.functionRef k) = some (.function { f with closure := g }) := by
    rw [Callable.of?, hf]
    rfl
  have harity : (Callable.function { f with closure := g }).arity = f.arity := rfl
  rw [Exec.invoke, Exec.bind_apply]
  simp only [Exec.read, hcallable, harity]
  by_cases hargs : args.length = f.arity
  · rw [if_neg (not_not_intro hargs), if_neg (not_not_intro hargs), Exec.bind_apply]
    simp only [Exec.read]
    by_cases hdepth : maxCallDepth ≤ m.depth
    · simp only [if_pos hdepth, Exec.throwAt]
    · simp only [if_neg hdepth, Exec.apply]
  · simp only [if_pos hargs, Exec.throwAt]

/-- What reading a property gives: the value that was set, else the method, bound to the object for good, else
an error. Classes and objects are the same afterwards. -/
def Machine.Gives (m : Machine ν) (i : ObjectId) (x : Token) : Option Value → Option (Function ν) → Prop
  | some v, _ => Exec.getProperty i x m = .done v m
  | none, some f => ∃ v m', Exec.getProperty i x m = .done v m' ∧ m'.store.classes = m.store.classes ∧
      m'.store.objects = m.store.objects ∧
      ∀ m'' : Machine ν, Changes (.formed ν) m'.store m''.store → m''.CallRuns v f i
  | none, none => Exec.getProperty i x m = .failed ⟨x, .undefinedProperty x.lexeme⟩ m

namespace Exec

variable {m : Machine ν} {i : ObjectId} {x : Token}

theorem gives_of_field {v : Value} (h : m.store.property i x.lexeme = .field v) (found : Option (Lox.Function ν)) :
    m.Gives i x (some v) found := by
  simp only [Machine.Gives, getProperty, bind_apply, read, h, pure_apply]

theorem gives_of_method {f : Lox.Function ν} (h : m.store.property i x.lexeme = .method f) :
    m.Gives i x none (some f) := by
  obtain ⟨v, m', hdone, hbinds⟩ := boundMethod_done m f i
  rw [← getProperty_eq h] at hdone
  have hsame : m'.store.classes = m.store.classes ∧ m'.store.objects = m.store.objects := by
    rw [getProperty_eq h] at hdone
    cases hdone
    exact ⟨rfl, rfl⟩
  exact ⟨v, m', hdone, hsame.1, hsame.2, fun _ hlater => (hbinds.later hlater).callRuns⟩

theorem gives_of_missing (h : m.store.property i x.lexeme = .missing) : m.Gives i x none none := by
  simp only [Machine.Gives, getProperty, bind_apply, read, h, throwAt]

end Exec

/-- What a property gives is told by the events: the value that was set last, else the method that the class of
the object inherits. -/
theorem Store.After.gives {m : Machine ν} {H : List (Event ν)} (h : m.store.After H) {i : ObjectId} {c : ClassId}
    (hi : .constructed i c ∈ H) {x : Token} {found : Option (Function ν)}
    (hin : Event.Inherits H x.lexeme c found) : m.Gives i x (Event.lastSet i x.lexeme H) found := by
  obtain ⟨o, ho, rfl⟩ := h.recorded.constructed i c hi
  obtain ⟨_, hfields⟩ := h.recorded.objects i o ho
  obtain rfl := h.recorded.eq_of_inherits hin
  cases hset : Event.lastSet i x.lexeme H with
  | some v => exact Exec.gives_of_field (by simp only [Store.property, ho, hfields, hset]) _
  | none =>
    cases hf : m.store.method? o.classId x.lexeme with
    | some f => exact Exec.gives_of_method (by simp only [Store.property, ho, hfields, hset, hf])
    | none => exact Exec.gives_of_missing (by simp only [Store.property, ho, hfields, hset, hf])

/-! ## Setting -/

/-- The machine after a property was set. -/
def Machine.setField (m : Machine ν) (i : ObjectId) (x : String) (v : Value) : Machine ν :=
  { m with store := m.store.setField i x v }

/-- The search for a method sees the classes only. -/
theorem Store.methodWithin?_of_classes {s s' : Store ν} (h : s'.classes = s.classes) (x : String) (fuel : Nat)
    (c : ClassId) : s'.methodWithin? x fuel c = s.methodWithin? x fuel c := by
  induction fuel generalizing c with
  | zero => rfl
  | succ n ih =>
    unfold methodWithin?
    rw [h, funext ih]

theorem Store.property_setField_of_ne {i j : ObjectId} {x y : String} (h : ¬(j = i ∧ y = x)) (s : Store ν)
    (v : Value) : (s.setField i x v).property j y = s.property j y := by
  have hclasses : (s.setField i x v).classes = s.classes := rfl
  have hmethod : ∀ c, (s.setField i x v).method? c y = s.method? c y :=
    methodWithin?_of_classes hclasses y s.classes.size
  simp only [property, hmethod]
  simp only [setField, Array.getElem?_modify]
  by_cases hi : i = j
  · subst hi
    have hne : y ≠ x := fun hy => h ⟨rfl, hy⟩
    rw [if_pos rfl]
    cases s.objects[i]? with
    | none => rfl
    | some o => simp only [Option.map_some, Table.get?_insert, if_neg hne]
  · rw [if_neg hi]

/-- Another property reads the same, before a property is set and after. -/
theorem Exec.getProperty_setField {i j : ObjectId} {x : String} {y : Token} (h : ¬(j = i ∧ y.lexeme = x))
    (m : Machine ν) (v : Value) :
    getProperty j y (m.setField i x v) = (getProperty j y m).update (·.setField i x v) := by
  have hproperty : (m.setField i x v).store.property j y.lexeme = m.store.property j y.lexeme :=
    Store.property_setField_of_ne h m.store v
  simp only [getProperty, bind_apply, read, hproperty]
  cases m.store.property j y.lexeme <;> rfl

/-! ## Runs -/

/-- The store has come further since some events: if superclasses were there before their classes, then there is
a list of events that ends with these. -/
def Store.Continues (H : List (Event ν)) (s : Store ν) : Prop :=
  LeadsBack s.superclass? → ∃ H', s.After (H' ++ H)

theorem Store.After.continues {s : Store ν} {H : List (Event ν)} (h : s.After H) : s.Continues H :=
  fun _ => ⟨[], h⟩

theorem Store.Continues.other {s s' : Store ν} {H : List (Event ν)} (h : s.Continues H)
    (hclasses : s'.classes = s.classes) (hobjects : s'.objects = s.objects) : s'.Continues H := by
  intro hback
  have hsame : s'.superclass? = s.superclass? := by
    unfold superclass?
    rw [hclasses]
  obtain ⟨H', h⟩ := h (hsame ▸ hback)
  exact ⟨H', h.other hclasses hobjects⟩

theorem Store.continues_lasting (H : List (Event ν)) : Lasting (Continues H) where
  write _ _ _ h := h.other rfl rfl
  addFrame _ h := h.other rfl rfl
  addFunction _ h := h.other rfl rfl
  addClass {s} name superclass closure methods h hback := by
    have hold : LeadsBack s.superclass? := by
      intro c p hp
      obtain ⟨k, hk, hkp⟩ := Option.bind_eq_some_iff.1 hp
      exact hback c p (Option.bind_eq_some_iff.2 ⟨k, getElem?_push_of_some hk, hkp⟩)
    obtain ⟨H', h⟩ := h hold
    refine ⟨_ :: H', h.declare name closure methods fun p hp => hback s.classes.size p ?_⟩
    exact Option.bind_eq_some_iff.2 ⟨_, Array.getElem?_push_size, hp⟩
  addObject c h hback := by
    obtain ⟨H', h⟩ := h hback
    exact ⟨_ :: H', h.construct c⟩
  setField {s} i x v h := by
    by_cases hi : i < s.objects.size
    · intro hback
      obtain ⟨H', h⟩ := h hback
      exact ⟨_ :: H', h.set x v hi⟩
    · -- there is no such object
      refine h.other rfl (Array.ext_getElem? fun j => ?_)
      simp only [setField, Array.getElem?_modify]
      split
      · next heq =>
        subst heq
        rw [Array.getElem?_eq_none (Nat.le_of_not_lt hi)]
        rfl
      · rfl

/-- What an expression does comes after the events before it. -/
theorem Store.After.eval {d : Distances ν} {m m' : Machine ν} {H : List (Event ν)} {e : Expr ν} {v : Value}
    (h : m.store.After H) (hm : m.Sound) (hy : Exec.Yields (Exec.eval d · e) m v m') :
    ∃ H', m'.store.After (H' ++ H) := by
  have hlater : m'.store.Continues H :=
    hy.maintains (fun n => (Exec.maintainingRuns (continues_lasting H) d n).eval e _) h.continues
  exact hlater ((advances_of_eval hm hy).1.sound hm).store.superclass_leadsBack

namespace Exec

variable {d : Distances ν} {m m' : Machine ν} {H : List (Event ν)}

/-- Where a class is declared, this is an event. -/
theorem after_declareClass {x : Token} {superclass : Option ClassId} {methods : List (FunDecl (Stmt ν))}
    (h : m.store.After H) (hp : ∀ p ∈ superclass, p < m.store.classes.size)
    (hrun : declareClass x superclass methods m = .done () m') :
    ∃ closure, m'.store.After (.declared m.store.classes.size superclass closure methods :: H) := by
  have hclass : ∀ closure m₁, m₁.store.classes = m.store.classes → m₁.store.objects = m.store.objects →
      (do
        let id ← updateStore (·.addClass ⟨x.lexeme, superclass, methodTable closure methods⟩)
        assignIn x (·.locate m.env x.lexeme) (.classRef id)) m₁ = .done () m' →
      m'.store.After (.declared m.store.classes.size superclass closure methods :: H) := by
    intro closure m₁ hclasses hobjects hrun
    obtain ⟨c, m₂, hclass, hrun⟩ := bind_eq_done hrun
    cases hclass
    have hdeclared := (h.other hclasses hobjects).declare x.lexeme closure methods (hclasses ▸ hp)
    rw [hclasses] at hdeclared
    simp only [assignIn] at hrun
    split at hrun
    · cases hrun
      exact hdeclared.other rfl rfl
    · cases hrun
  let m₁ : Machine ν := { m with store := { m.store with frames := m.store.frames.define m.env x.lexeme .nil } }
  cases superclass with
  | none => exact ⟨_, hclass m.env m₁ rfl rfl hrun⟩
  | some p =>
    let parent := m₁.store.addFrame ⟨Table.empty.insert "super" (.classRef p), some m.env⟩
    exact ⟨_, hclass parent.1 { m₁ with store := parent.2 } rfl rfl hrun⟩

/-- A class that is declared was given its superclass first. -/
theorem yields_classDecl {n : Nat} {x : Token} {parent : Option (Expr ν)} {methods : List (FunDecl (Stmt ν))}
    {flow : Flow} (h : exec d n (.classDecl x parent methods) m = .done flow m') :
    ∃ superclass m₁, declareClass x superclass methods m₁ = .done () m' ∧
      ((parent = none ∧ superclass = none ∧ m₁ = m) ∨
        ∃ e p, parent = some e ∧ superclass = some p ∧ Yields (eval d · e) m (.classRef p) m₁) := by
  cases n with
  | zero => cases h
  | succ n =>
    cases parent with
    | none =>
      rw [exec] at h
      obtain ⟨superclass, m₁, hnone, h⟩ := bind_eq_done h
      cases hnone
      obtain ⟨_, m₂, hdeclare, hlast⟩ := bind_eq_done h
      cases hlast
      exact ⟨none, m, hdeclare, .inl ⟨rfl, rfl, rfl⟩⟩
    | some e =>
      rw [exec] at h
      obtain ⟨v, m₁, he, h⟩ := bind_eq_done h
      cases v with
      | classRef p =>
        obtain ⟨superclass, m₁, hparent, h⟩ := bind_eq_done h
        cases hparent
        obtain ⟨_, m₂, hdeclare, hlast⟩ := bind_eq_done h
        cases hlast
        exact ⟨some p, m₁, hdeclare, .inr ⟨e, p, rfl, rfl, n, he⟩⟩
      | _ => cases h

/-- A property that is set: first its object is evaluated, then its value. -/
theorem yields_set {n : Nat} {o e : Expr ν} {x : Token} {v : Value} (h : eval d n (.set o x e) m = .done v m') :
    ∃ i m₁ m₂, Yields (eval d · o) m (.objectRef i) m₁ ∧ Yields (eval d · e) m₁ v m₂ ∧
      m' = m₂.setField i x.lexeme v := by
  cases n with
  | zero => cases h
  | succ n =>
    rw [eval] at h
    obtain ⟨w, m₁, ho, h⟩ := bind_eq_done h
    cases w with
    | objectRef i =>
      obtain ⟨u, m₂, he, h⟩ := bind_eq_done h
      obtain ⟨_, m₃, hset, hlast⟩ := bind_eq_done h
      cases hset
      cases hlast
      exact ⟨i, m₁, m₂, ⟨n, ho⟩, ⟨n, he⟩, rfl⟩
    | _ => cases h

/-- Where a class is called, an object is made first, and nothing else happens without an initializer. -/
theorem continues_invoke_class {n : Nat} {paren : Token} {c : ClassId} {args : List Value} {v : Value}
    (h : m.store.After H) (hrun : invoke d n paren (.classRef c) args m = .done v m') :
    v = .objectRef m.store.objects.size ∧ m'.store.Continues (.constructed m.store.objects.size c :: H) ∧
      (m.store.method? c "init" = none → m'.store.After (.constructed m.store.objects.size c :: H)) := by
  refine ⟨(invoke_class hrun).2.1, ?_⟩
  obtain ⟨k, f, m₁, hf, _, happly, hstore⟩ := invoke_eq_done hrun
  cases hf
  have hP := Store.continues_lasting (.constructed m.store.objects.size c :: H)
  have hnew := h.construct c
  rw [hstore]
  cases k with
  | zero => cases happly
  | succ k =>
    rw [apply] at happly
    obtain ⟨object, m₂, hobject, happly⟩ := bind_eq_done happly
    cases hobject
    cases hinit : m.store.method? c "init" with
    | none =>
      rw [hinit] at happly
      cases happly
      exact ⟨hnew.continues, fun _ => hnew⟩
    | some f =>
      rw [hinit] at happly
      obtain ⟨bound, m₃, hbound, happly⟩ := bind_eq_done happly
      cases hbound
      obtain ⟨_, m₄, hcall, hlast⟩ := bind_eq_done happly
      cases hlast
      have hbody := (maintainingRuns hP d k).applyFunction _ args _ (hP.addFrame _ hnew.continues) _
        (congrArg Result.machine? hcall)
      exact ⟨hbody, fun hnone => absurd hnone (Option.some_ne_none f)⟩

end Exec

end Lox
