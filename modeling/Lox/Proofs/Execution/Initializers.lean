import Lox.Proofs.Execution.References
import Lox.Proofs.Execution.Slots
import Lox.Proofs.Execution.Tables

/-!
# Bound methods and initializers

A method that is read off an object comes with a frame of its own, which holds the object under `this`.
No code of the grammar writes that name, so the object is still there whenever the method is called
(`Store.Binds.later`), and at the end of an initializer, which yields it (`invoke_initializer`). The call of
a class yields a new object of that class (`invoke_class`).
-/

namespace Lox

/-! ## Names that the code does not write -/

section
variable {C : Code ν} {s s' : Store ν} {f : FrameId} {x : String}

theorem Frames.lookup?_add_of_lt {fr : Frames} (frame : Frame) (hf : f < fr.cells.size) :
    (fr.add frame).2.lookup? f x = fr.lookup? f x := by
  rw [lookup?_add, if_neg (Nat.ne_of_lt hf)]

theorem Change.lookup (h : Change C s s') (hx : ¬ C.name x) (hf : f < s.frames.cells.size) :
    s'.frames.lookup? f x = s.frames.lookup? f x := by
  cases h with
  | @write g y v hy =>
    have hne : x ≠ y := by
      rintro rfl
      exact hx hy
    simp only [Frames.lookup?_define, hne, false_and, and_false, if_false]
  | frame e _ => exact Frames.lookup?_add_of_lt _ hf
  | parent e p => exact Frames.lookup?_add_of_lt _ hf
  | receiver f this => exact Frames.lookup?_add_of_lt _ hf
  | function _ => rfl
  | newClass _ => rfl
  | object o => rfl
  | field i x v => rfl

/-- In the frames that are there the name stays as it is. -/
theorem Changes.lookup (h : Changes C s s') (hx : ¬ C.name x) (hf : f < s.frames.cells.size) :
    s'.frames.lookup? f x = s.frames.lookup? f x := by
  induction h with
  | refl => rfl
  | tail hpath hstep ih =>
    rw [hstep.lookup hx (Nat.lt_of_lt_of_le hf (Changes.grows hpath).frames), ih]

theorem Changes.lookup_of_some (h : Changes C s s') (hx : ¬ C.name x) {v : Value}
    (hv : s.frames.lookup? f x = some v) : s'.frames.lookup? f x = some v := by
  rw [h.lookup hx (Frames.lt_size_of_lookup? (by rw [hv]; rfl)), hv]

theorem Changes.enclosing (h : Changes C s s') {e : FrameId} (he : s.frames.enclosing? f = some e) :
    s'.frames.enclosing? f = some e := by
  obtain ⟨frame, hf, hframe⟩ := Option.bind_eq_some_iff.1 he
  obtain ⟨frame', hf', he', _⟩ := h.keeps.frames f frame hf
  simp [Frames.enclosing?, hf', he', hframe]

theorem Code.not_formed_this : ¬ (Code.formed ν).name "this" := fun h => h.1 rfl

end

/-! ## Bound methods -/

/-- The value is a method, bound to an object: a function with the method's declaration and a frame of its
own, which holds the object under `this` and lies inside the frame of the method. -/
def Store.Binds (s : Store ν) (v : Value) (f : Function ν) (i : ObjectId) : Prop :=
  ∃ (k : FunctionId) (g : FrameId), v = .functionRef k ∧ s.functions[k]? = some { f with closure := g } ∧
    s.frames.enclosing? g = some f.closure ∧ s.frames.lookup? g "this" = some (.objectRef i)

theorem Store.Binds.later {s s' : Store ν} {v : Value} {f : Function ν} {i : ObjectId} (h : s.Binds v f i)
    (hc : Changes (.formed ν) s s') : s'.Binds v f i := by
  obtain ⟨k, g, rfl, hf, he, hthis⟩ := h
  exact ⟨k, g, rfl, hc.keeps.functions k _ hf, hc.enclosing he, hc.lookup_of_some Code.not_formed_this hthis⟩

namespace Exec

section
variable {d : Distances ν} {n : Nat} {m m' : Machine ν} {f : Lox.Function ν} {i : ObjectId} {v : Value}

theorem boundMethod_done (m : Machine ν) (f : Lox.Function ν) (i : ObjectId) :
    ∃ v m', (bindMethod f i >>= newFunction) m = .done v m' ∧ m'.store.Binds v f i := by
  refine ⟨_, _, rfl, m.store.functions.size, m.store.frames.cells.size, rfl, ?_, ?_, ?_⟩
  · exact Array.getElem?_push_size
  · exact (Frames.enclosing?_add m.store.frames _ _).trans (if_pos rfl)
  · exact (Frames.lookup?_add m.store.frames _ _ _).trans (if_pos rfl)

theorem getProperty_eq {x : Token} (h : m.store.property i x.lexeme = .method f) :
    getProperty i x m = (bindMethod f i >>= newFunction) m := by
  rw [getProperty, bind_apply]
  simp only [read, h]

/-- A property that is a method is that method, bound to the object. -/
theorem getProperty_method {x : Token} (h : m.store.property i x.lexeme = .method f) :
    ∃ v m', getProperty i x m = .done v m' ∧ m'.store.Binds v f i := by
  rw [getProperty_eq h]
  exact boundMethod_done m f i

/-- `super` gives the method that the search from the superclass finds, bound to the object of `this`; or
it fails, if the search finds none. -/
theorem superMethod_eq {j : Nat} {kw x : Token} {p : ClassId}
    (hsuper : m.store.frames.getAt m.env (j + 1) kw.lexeme = .ok (.classRef p))
    (hthis : m.store.frames.getAt m.env j "this" = .ok (.objectRef i)) :
    superMethod (some (j + 1)) kw x m = match m.store.method? p x.lexeme with
      | some f => (bindMethod f i >>= newFunction) m
      | none => .failed ⟨x, .undefinedProperty x.lexeme⟩ m := by
  simp only [superMethod, bind_apply, read, hsuper, liftAt, pure_apply, Nat.add_sub_cancel, hthis]
  cases m.store.method? p x.lexeme <;> rfl

/-! ## Calls -/

theorem invoke_eq_done {paren : Token} {callee : Value} {args : List Value}
    (h : invoke d n paren callee args m = .done v m') :
    ∃ k f m₁, Callable.of? m.store callee = some f ∧ args.length = f.arity ∧
      apply d k f args { m with depth := m.depth + 1 } = .done v m₁ ∧ m'.store = m₁.store := by
  cases n with
  | zero => cases h
  | succ n =>
    rw [invoke] at h
    obtain ⟨found, _, hread, h⟩ := bind_eq_done h
    obtain ⟨hf, rfl⟩ := read_eq_done.1 hread
    cases found with
    | none => cases h
    | some f =>
      simp only at h
      split at h
      · cases h
      · rename_i hargs
        obtain ⟨depth, _, hread, h⟩ := bind_eq_done h
        obtain ⟨-, rfl⟩ := read_eq_done.1 hread
        split at h
        · cases h
        · unfold deeper at h
          cases hr : apply d n f args { m with depth := m.depth + 1 } with
          | done a m₁ =>
            rw [hr] at h
            cases h
            exact ⟨n, f, m₁, hf, Decidable.of_not_not hargs, hr, rfl⟩
          | failed e m₁ =>
            rw [hr] at h
            cases h
          | outOfFuel =>
            rw [hr] at h
            cases h

/-- However its body ends, an initializer gives the object it is bound to. -/
theorem applyFunction_initializer {args : List Value} (hs : m.store.Holds (.formed ν))
    (hf : (Code.formed ν).decl f.decl) (hi : f.isInitializer = true)
    (hthis : m.store.frames.lookup? f.closure "this" = some (.objectRef i))
    (h : applyFunction d n f args m = .done v m') : v = .objectRef i := by
  cases n with
  | zero => cases h
  | succ n =>
    rw [applyFunction] at h
    obtain ⟨frame, m₁, hframe, h⟩ := bind_eq_done h
    cases hframe
    obtain ⟨flow, m₂, hframed, h⟩ := bind_eq_done h
    obtain ⟨m₃, hbody, rfl⟩ := inFrame_eq_done hframed
    rw [if_pos hi] at h
    have henter : Change (.formed ν) m.store (m.enter f.closure (f.locals args)).store :=
      .frame f.closure (name_of_locals hf)
    have hleads := ((keptRuns (.formed ν) d n).execAll f.decl.body _ hf.2).done (henter.holds hs) hbody
    have hchanges : Changes (.formed ν) m.store m₃.store := .head henter hleads.store
    have hget : m₃.store.frames.getAt f.closure 0 "this" = .ok (.objectRef i) :=
      Frames.getAt_eq_ok rfl (hchanges.lookup_of_some Code.not_formed_this hthis)
    simp only [bind_apply, read, hget, liftAt, pure_apply] at h
    cases h
    rfl

theorem invoke_initializer {paren : Token} {callee : Value} {args : List Value}
    (hs : m.store.Holds (.formed ν)) (hb : m.store.Binds callee f i) (hi : f.isInitializer = true)
    (h : invoke d n paren callee args m = .done v m') : v = .objectRef i := by
  obtain ⟨k, g, rfl, hg, _, hthis⟩ := hb
  obtain ⟨k', c, m₁, hc, _, happly, _⟩ := invoke_eq_done h
  obtain ⟨f', hf', rfl⟩ := Option.map_eq_some_iff.1 hc
  rw [hg] at hf'
  cases hf'
  cases k' with
  | zero => cases happly
  | succ k' =>
    rw [apply] at happly
    exact applyFunction_initializer (m := { m with depth := m.depth + 1 }) hs (hs.functions k _ hg) hi hthis happly

/-- The call of a class yields the object that it makes first. -/
theorem invoke_class {paren : Token} {c : ClassId} {args : List Value}
    (h : invoke d n paren (.classRef c) args m = .done v m') :
    args.length = (m.store.method? c "init").elim 0 Lox.Function.arity ∧
      v = .objectRef m.store.objects.size ∧
      ∃ o, m'.store.objects[m.store.objects.size]? = some o ∧ o.classId = c := by
  obtain ⟨k, f, m₁, hf, hargs, happly, hstore⟩ := invoke_eq_done h
  cases hf
  refine ⟨hargs, ?_⟩
  have hnew : (m.store.addObject ⟨c, {}⟩).2.objects[m.store.objects.size]? = some ⟨c, {}⟩ := by
    simp [Store.addObject]
  rw [hstore]
  cases k with
  | zero => cases happly
  | succ k =>
    rw [apply] at happly
    obtain ⟨object, m₂, hobject, happly⟩ := bind_eq_done happly
    cases hobject
    cases hinit : m.store.method? c "init" with
    | none =>
      rw [hinit] at happly
      cases happly
      exact ⟨rfl, _, hnew, rfl⟩
    | some f =>
      rw [hinit] at happly
      obtain ⟨bound, m₃, hbound, happly⟩ := bind_eq_done happly
      cases hbound
      obtain ⟨_, m₄, hcall, hlast⟩ := bind_eq_done happly
      cases hlast
      have hleads := ((keptRuns (.all ν) d k).applyFunction _ args _ (Code.task_all (.applyFunction _ args))).done
        (Store.holds_all _) hcall
      have hkeeps := Changes.keeps (.head (.receiver f m.store.objects.size) hleads.store)
      obtain ⟨o, ho, hclass, _⟩ := hkeeps.objects _ _ hnew
      exact ⟨rfl, o, ho, hclass⟩

end

end Exec

end Lox
