import Lox.Proofs.Execution.Fuel
import Lox.Proofs.Session.Heap
import Lox.Proofs.Session.Unreachable

/-!
# Construction and initializers

In every state that a session reaches, the call of a class gives a new object of that class, and an
initializer gives the object it is bound to, however its body ends and however long it was kept before the
call: `construction_yields_instance`.
-/

namespace Lox

/-- A machine at the start or at the end of a task of a run. -/
inductive Attempt.Reaches (r : Attempt) : Machine NodeId → Prop
  | starts : r.Visits (T, m) → Reaches r m
  | ends : r.Visits (T, m) → T.leaves r.distances n m = some m' → Reaches r m'

section
variable {clock : Clock} {limit : Option Nat} {rs : List Attempt} {r : Attempt} {s : Session}
  {m m' : Machine NodeId}

/-! ## What holds in every state -/

theorem Session.History.reached (h : Session.History clock limit rs s) : s.machine.Reached clock limit := by
  induction h with
  | fresh => exact .initial
  | run _ hrun ih => exact Session.reached_of_run ih hrun

/-- What holds at first and lasts. -/
theorem Session.History.lasting {P : Store NodeId → Prop} (hP : Store.Lasting P)
    (hfirst : P (Machine.initial clock limit).store) (h : Session.History clock limit rs s) :
    P s.machine.store := by
  induction h with
  | fresh => exact hfirst
  | @run rs s s' source fuel outcome _ hrun ih =>
    by_cases ha : (Attempt.mk s source).Accepted
    · exact Exec.interpret_maintains hP _ fuel _ _ ih _ (Session.machine_of_run ha hrun).1
    · rw [(Session.run_of_not_accepted ha hrun).1]
      exact ih

theorem Starts.sound {d : Distances ν} {tree : List (Stmt ν)} {m : Machine ν} {S : Moment ν}
    (h : Starts d tree m S) (hm : m.Sound) : S.Sound := by
  induction h with
  | first => exact ⟨trivial, hm⟩
  | next hy _ ih => exact ih ((advances_of_exec hm hy).sound hm)

theorem sound_of_visits (hist : Session.History clock limit rs r.session) {M : Moment NodeId}
    (hv : r.Visits M) : M.Sound := by
  obtain ⟨_, S, hS, hM⟩ := hv
  have hsession := hist.reached.advances.sound (Machine.initial_sound clock limit)
  exact (hM.follows (hS.sound hsession)).sound

namespace Attempt.Reaches

theorem sound (hist : Session.History clock limit rs r.session) (h : r.Reaches m) : m.Sound := by
  cases h with
  | starts hv => exact (sound_of_visits hist hv).machine
  | ends hv hl =>
    have hM := sound_of_visits hist hv
    exact (hM.advances hl).sound hM.machine

theorem holds (hist : Session.History clock limit rs r.session) (h : r.Reaches m) :
    m.store.Holds (.formed NodeId) := by
  cases h with
  | starts hv => exact (slotted_of_visits hist hv).2.1
  | ends hv hl =>
    obtain ⟨htask, hholds, _⟩ := slotted_of_visits hist hv
    exact (leads_of_leaves htask hholds hl).store.holds hholds

theorem lasting {P : Store NodeId → Prop} (hP : Store.Lasting P) (hfirst : P (Machine.initial clock limit).store)
    (hist : Session.History clock limit rs r.session) (h : r.Reaches m) : P m.store := by
  have hstart : ∀ {T m}, r.Visits (T, m) → P m.store := by
    rintro T m ⟨_, S, hS, hM⟩
    exact hM.maintains hP (hS.maintains hP (hist.lasting hP hfirst))
  cases h with
  | starts hv => exact hstart hv
  | ends hv hl => exact maintains_of_leaves hP (hstart hv) hl

theorem tabled (hist : Session.History clock limit rs r.session) (h : r.Reaches m) : m.store.Tabled :=
  h.lasting Store.tabled_lasting (by simp [Store.Tabled, Machine.initial]) hist

end Attempt.Reaches

/-! ## Calls from now on -/

/-- From now on, whatever the code does before to the store, every call of the value that finishes gives the
object. -/
def Machine.AlwaysYields (m : Machine NodeId) (callee : Value) (i : ObjectId) : Prop :=
  ∀ m' : Machine NodeId, Changes (.formed NodeId) m.store m'.store → ∀ d n paren args v m'',
    Exec.invoke d n paren callee args m' = .done v m'' → v = .objectRef i

theorem alwaysYields_of_binds {v : Value} {f : Function NodeId} {i : ObjectId}
    (hs : m.store.Holds (.formed NodeId)) (hb : m.store.Binds v f i) (hi : f.isInitializer = true) :
    m.AlwaysYields v i :=
  fun _ hc _ _ _ _ _ _ hrun => Exec.invoke_initializer (hc.holds hs) (hb.later hc) hi hrun

/-- A call that is written calls what its callee evaluates to, after its arguments. -/
theorem Machine.AlwaysYields.call {callee : Expr NodeId} {paren : Token} {args : List (Expr NodeId)}
    {w v : Value} {i : ObjectId} {m₁ : Machine NodeId} (hist : Session.History clock limit rs r.session)
    (hv : r.Visits (.eval (.call callee paren args), m))
    (hcallee : Exec.Yields (Exec.eval r.distances · callee) m w m₁) (h : m₁.AlwaysYields w i)
    (hcall : Exec.Yields (Exec.eval r.distances · (.call callee paren args)) m v m') : v = .objectRef i := by
  obtain ⟨htask, hholds, _⟩ := slotted_of_visits hist hv
  obtain ⟨hc, hargs⟩ := (Code.formed NodeId).call htask
  obtain ⟨n, hn⟩ := hcall
  cases n with
  | zero => cases hn
  | succ n =>
    simp only [Exec.eval] at hn
    obtain ⟨w', m₁', hfirst, hn⟩ := Exec.bind_eq_done hn
    obtain ⟨vs, m₂, hrest, hinvoke⟩ := Exec.bind_eq_done hn
    obtain ⟨rfl, rfl⟩ := hcallee.eval_unique ⟨n, hfirst⟩
    have hleads := leads_of_eval hc hholds hcallee
    have hlater := leads_of_evalAll hargs (hleads.store.holds hholds) ⟨n, hrest⟩
    exact h m₂ hlater.store _ _ _ _ _ _ hinvoke

/-! ## Initializers -/

/-- A method that is read off an object under the name `init` always gives the object. -/
theorem getProperty_alwaysYields (hist : Session.History clock limit rs r.session) (hm : r.Reaches m)
    {i : ObjectId} {x : Token} {f : Function NodeId} (hx : x.lexeme = "init")
    (hf : m.store.property i "init" = .method f) :
    ∃ v m', Exec.getProperty i x m = .done v m' ∧ m'.AlwaysYields v i := by
  obtain ⟨v, m', hrun, hbinds⟩ := Exec.getProperty_method (hx ▸ hf)
  obtain ⟨c, hc⟩ := Store.method?_of_property hf
  have hinit : f.isInitializer = true := (hm.tabled hist).found hc |>.2
  have hholds := hm.holds hist
  have hlater := (Exec.keeps_getProperty (C := .formed NodeId) i x).done hholds hrun
  exact ⟨v, m', hrun, alwaysYields_of_binds (hlater.store.holds hholds) hbinds hinit⟩

/-- And so does one that `super` gives: it is bound to the object of `this`. -/
theorem superMethod_alwaysYields (hist : Session.History clock limit rs r.session) {k : NodeId} {kw x : Token}
    {v : Value} (hv : r.Visits (.eval (.superRef k kw x), m)) (hx : x.lexeme = "init")
    (hrun : Exec.superMethod (r.distances k) kw x m = .done v m') :
    ∃ j i, r.distances k = some (j + 1) ∧ m.store.frames.getAt m.env j "this" = .ok (.objectRef i) ∧
      m'.AlwaysYields v i := by
  obtain ⟨j, c, i, hj, hsuper, hthis⟩ := super_reads hist hv
  refine ⟨j, i, hj, hthis, ?_⟩
  have hholds := (Attempt.Reaches.starts hv).holds hist
  have hlater := (Exec.keeps_superMethod (C := .formed NodeId) (r.distances k) kw x).done hholds hrun
  rw [hj, Exec.superMethod_eq hsuper hthis] at hrun
  cases hf : m.store.method? c x.lexeme with
  | none =>
    rw [hf] at hrun
    cases hrun
  | some f =>
    rw [hf] at hrun
    obtain ⟨w, m'', hbound, hbinds⟩ := Exec.boundMethod_done m f i
    cases hbound.symm.trans hrun
    have hinit := ((Attempt.Reaches.starts hv).tabled hist).found hf |>.2
    exact alwaysYields_of_binds (hlater.store.holds hholds) hbinds (by rw [hinit, hx]; rfl)

/-- Every initializer that has become a value is bound to an object, which it always gives. -/
theorem initializer_alwaysYields (hist : Session.History clock limit rs r.session) {T : Task NodeId}
    {k : FunctionId} {f : Function NodeId} (hv : r.Visits (T, m)) (hf : m.store.functions[k]? = some f)
    (hi : f.isInitializer = true) :
    ∃ i, m.store.frames.lookup? f.closure "this" = some (.objectRef i) ∧ m.AlwaysYields (.functionRef k) i := by
  obtain ⟨⟨σ, st, hm, _⟩, _⟩ := matched_of_visits (steady_of_history hist) hv
  obtain ⟨_, hholds, hslots⟩ := slotted_of_visits hist hv
  have hrel := hm.functions k
  rw [hf] at hrel
  cases hst : st.functions[k]? with
  | none =>
    rw [hst] at hrel
    cases hrel
  | some g =>
    rw [hst] at hrel
    obtain ⟨⟨scs, ⟨_, _, hchain⟩, _, hreceiver⟩⟩ := hrel
    obtain ⟨outer, rfl⟩ := hreceiver hi
    obtain ⟨e, _, he, _, hnames, _⟩ := hchain.inner
    obtain ⟨v, hthis⟩ := Option.isSome_iff_exists.1 (hnames "this" List.mem_cons_self)
    obtain ⟨i, rfl⟩ := hslots.this _ _ hthis
    have hbinds : m.store.Binds (.functionRef k) { f with closure := e } i := ⟨k, f.closure, rfl, hf, he, hthis⟩
    exact ⟨i, hthis, alwaysYields_of_binds hholds hbinds hi⟩

/-! ## Construction -/

/-- The call of a class that finishes was given as many arguments as the nearest `init` has parameters, and
gives an object of the class that was not there before. -/
def Machine.Constructs (m : Machine NodeId) (c : ClassId) : Prop :=
  ∀ d n paren args v m', Exec.invoke d n paren (.classRef c) args m = .done v m' →
    (∃ found, m.store.FindsMethod "init" c found ∧ args.length = found.elim 0 Function.arity) ∧
      ∃ i o, v = .objectRef i ∧ m.store.objects.size ≤ i ∧ m'.store.objects[i]? = some o ∧ o.classId = c

theorem Attempt.Reaches.constructs (hist : Session.History clock limit rs r.session) (hm : r.Reaches m)
    {c : ClassId} (hc : c < m.store.classes.size) : m.Constructs c := by
  intro d n paren args v m' hrun
  obtain ⟨hargs, rfl, o, ho, hclass⟩ := Exec.invoke_class hrun
  exact ⟨⟨_, (hm.sound hist).store.linked.methods "init" c hc, hargs⟩, _, o, rfl, Nat.le_refl _, ho, hclass⟩

/-- In every state of every run the calls of classes construct. A method that is read off an object under the
name `init`, or that `super.init` gives, always gives the object, or the object of `this`, however late it is
called. Every initializer that is a value gives the object it is bound to, and so does a written call whose
callee is one. -/
theorem construction_yields_instance (hist : Session.History clock limit rs r.session) :
    (∀ m, r.Reaches m → ∀ c < m.store.classes.size, m.Constructs c) ∧
    (∀ m, r.Reaches m → ∀ i x f, x.lexeme = "init" → m.store.property i "init" = .method f →
      ∃ v m', Exec.getProperty i x m = .done v m' ∧ m'.AlwaysYields v i) ∧
    (∀ m k kw x v m', r.Visits (.eval (.superRef k kw x), m) → x.lexeme = "init" →
      Exec.superMethod (r.distances k) kw x m = .done v m' →
      ∃ j i, r.distances k = some (j + 1) ∧ m.store.frames.getAt m.env j "this" = .ok (.objectRef i) ∧
        m'.AlwaysYields v i) ∧
    (∀ T m k f, r.Visits (T, m) → m.store.functions[k]? = some f → f.isInitializer = true →
      ∃ i, m.store.frames.lookup? f.closure "this" = some (.objectRef i) ∧ m.AlwaysYields (.functionRef k) i) ∧
    ∀ callee paren args m w m₁ i v m', r.Visits (.eval (.call callee paren args), m) →
      Exec.Yields (Exec.eval r.distances · callee) m w m₁ → m₁.AlwaysYields w i →
      Exec.Yields (Exec.eval r.distances · (.call callee paren args)) m v m' → v = .objectRef i := by
  refine ⟨fun m hm c hc => hm.constructs hist hc, fun m hm i x f hx hf => ?_, fun m k kw x v m' hv hx hrun => ?_,
    fun T m k f hv hf hi => ?_, fun callee paren args m w m₁ i v m' hv hcallee h hcall => ?_⟩
  · exact getProperty_alwaysYields hist hm hx hf
  · exact superMethod_alwaysYields hist hv hx hrun
  · exact initializer_alwaysYields hist hv hf hi
  · exact h.call hist hv hcallee hcall

/-- A class that inherits an initializer, and an object of it. -/
def inherited : Option (Outcome × Session) :=
  (Session.fresh ⟨fun _ => 0, 0⟩).run 20 "class A { init(x) { this.x = x; return; } } class B < A {} var b = B(nil);"

/-- A source that calls the initializer of the object once more. -/
def Session.initializesAgain (s : Session) : Attempt := ⟨s, "b.init(true);"⟩

/-- The object that a call gives. -/
def Session.instance? (s : Session) (callee : Value) (args : List Value) : Option ObjectId :=
  match Exec.invoke s.bindings.find? 20 (.ident "again" 1) callee args s.machine with
  | .done (.objectRef i) _ => some i
  | _ => none

theorem inherited_yields :
    ∃ s, inherited = some (.ok, s) ∧ s.initializesAgain.Reaches s.machine ∧ s.machine.Constructs 1 ∧
      s.instance? (.classRef 1) [.nil] = some 1 ∧
      ∃ v m', Exec.getProperty 0 (.ident "init" 1) s.machine = .done v m' ∧ m'.AlwaysYields v 0 := by
  have hrun : (inherited.map fun p => (p.1, p.2.machine.store.classes.size,
      p.2.instance? (.classRef 1) [.nil], match p.2.machine.store.property 0 "init" with
        | .method _ => true
        | _ => false)) = some (.ok, 2, some 1, true) := by
    decide +kernel
  have hnext : (inherited.map fun p => (Scan.reports p.2.initializesAgain.source,
      p.2.initializesAgain.parsed.reports, p.2.initializesAgain.resolved.2,
      p.2.initializesAgain.tree.isEmpty)) = some ([], [], [], false) := by
    decide +kernel
  obtain ⟨⟨outcome, s⟩, hs, heq⟩ := Option.map_eq_some_iff.1 hrun
  obtain ⟨rfl, heq⟩ := Prod.mk.inj heq
  obtain ⟨hsize, heq⟩ := Prod.mk.inj heq
  obtain ⟨hcall, hmethod⟩ := Prod.mk.inj heq
  rw [hs] at hnext
  obtain ⟨hscan, heq⟩ := Prod.mk.inj (Option.some.inj hnext)
  obtain ⟨hparsed, heq⟩ := Prod.mk.inj heq
  obtain ⟨hresolved, htree⟩ := Prod.mk.inj heq
  have hist : Session.History ⟨fun _ => 0, 0⟩ none [_] s.initializesAgain.session := .run .fresh hs
  have hreaches : s.initializesAgain.Reaches s.machine := by
    obtain ⟨t, ts, ht⟩ := List.exists_cons_of_ne_nil (l := s.initializesAgain.tree) (by
      intro h
      rw [h] at htree
      cases htree)
    refine .starts (T := .exec t) ⟨⟨hscan, hparsed, hresolved⟩, _, ?_, .refl⟩
    rw [ht]
    exact .first
  obtain ⟨hconstructs, hproperty, _⟩ := construction_yields_instance hist
  refine ⟨s, hs, hreaches, hconstructs _ hreaches 1 (by rw [hsize]; decide), hcall, ?_⟩
  split at hmethod
  · next f hf => exact hproperty _ hreaches 0 _ f rfl hf
  · cases hmethod

end

end Lox
