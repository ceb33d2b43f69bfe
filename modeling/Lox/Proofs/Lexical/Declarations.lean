import Lox.Proofs.Lexical.Agreement

/-!
# Declarations on both sides

A declaration adds a name to the current frame on one side and puts a pair in front of the names on
the other. Scopes with frames of their own are entered and left again (`Agree.inFrame`,
`Agree.inScope`), and the place is the same afterwards.
-/

namespace Lox.Lexical

section
variable {N : Place ν → Prop} {O : FrameId → Site ν → Prop} {σ : Slots} {m : Machine ν} {s : State ν}
  {scs : Scopes ν} {x : String}

theorem Here.slot_eq_none (hh : Here O σ scs none m s) (hx : scs.Free x) : σ m.env x = none := by
  cases hc : σ m.env x with
  | none => rfl
  | some c =>
    rcases hh.slots x (by simp [hc]) with ⟨sc, hsc, hm⟩ | hp
    · exact absurd hm (hx.2.2 sc hsc)
    · cases hp

/-- A name is declared where both sides stand. -/
theorem Here.declare (hh : Here O σ scs none m s) (h : Mirrors N O σ m s) (hx : scs.Free x)
    (v : Value) :
    ∃ σ', Moved N O (· ≠ m.env) σ m σ' (withFrames m (m.store.frames.define m.env x v))
        (s.declare x v) ∧
      Here O σ' (scs.declare x) none (withFrames m (m.store.frames.define m.env x v))
        (s.declare x v) := by
  have hlocal := hh.isLocal
  have hsees := hh.sees
  cases scs with
  | nil =>
    have hs : s.declare x v = { s with globals := s.globals.insert x v } := by
      simp [State.declare, hlocal]
    generalize hn : s.names = ps at hsees
    generalize he : m.env = f at hsees
    cases hsees with
    | ready hc =>
      cases hc with
      | global =>
        have hw := h.writeGlobal x v
        rw [hs]
        exact ⟨σ, ⟨hw, .define σ _ _ x v, rfl⟩, .top hw he hn hlocal⟩
  | cons sc outer =>
    have hs : s.declare x v =
        { s with cells := s.cells.push (some v), names := (x, s.cells.size) :: s.names } := by
      simp [State.declare, hlocal, State.addCell]
    have hne : m.env ≠ globalFrame := (hh.isLocal_iff h).1 hlocal
    have hlt := hh.env_lt h
    have hslot := hh.slot_eq_none hx
    have hd := h.declare hne hlt hslot v
    have hg : Grows (· ≠ m.env) σ m.store.frames (σ.set m.env x s.cells.size)
        (m.store.frames.define m.env x v) :=
      (Grows.reserve hslot m.store.frames s.cells.size).trans (.define _ _ _ _ _)
    rw [hs]
    refine ⟨σ.set m.env x s.cells.size, ⟨hd.relocate m.env _ s.isLocal, hg, rfl⟩, hlocal, ?_, ?_⟩
    · intro y hy
      obtain ⟨c, hc⟩ := Option.isSome_iff_exists.1 hy
      rcases Slots.set_eq_some hc with ⟨-, rfl, -⟩ | hc
      · exact .inl ⟨_, rfl, by simp⟩
      · rcases hh.slots y (by simp [hc]) with ⟨_, ⟨⟩, hm⟩ | hp
        · exact .inl ⟨_, rfl, by simp [hm]⟩
        · cases hp
    · cases hsees with
      | ready hc =>
        exact .ready (Here.chain_declare (hc.mono hg) (Slots.set_self σ _ _ _)
          (by simp [Frames.lookup?_define, hlt]))

/-- A local variable gets its cell before its initializer runs. -/
theorem Here.reserve (hh : Here O σ scs none m s) (h : Mirrors N O σ m s) (hx : scs.Free x)
    (hl : s.isLocal = true) :
    ∃ σ', Mirrors N O σ' m { s with cells := s.cells.push none } ∧
      Grows (· ≠ m.env) σ m.store.frames σ' m.store.frames ∧
      Here O σ' scs (some x) m { s with
        cells := s.cells.push none, names := (x, s.cells.size) :: s.names, isLocal := true } := by
  have hne : m.env ≠ globalFrame := (hh.isLocal_iff h).1 hl
  have hslot := hh.slot_eq_none hx
  have hr := h.reserve hne (hh.env_lt h) hslot
  have hg := Grows.reserve hslot m.store.frames s.cells.size
  have hval : m.store.frames.lookup? m.env x = none := by
    rw [← hr.slot_value m.env x s.cells.size (Slots.set_self σ _ _ _)]
    simp [State.cell?]
  refine ⟨σ.set m.env x s.cells.size, hr, hg, hl ▸ hh.isLocal, ?_, ?_⟩
  · intro y hy
    obtain ⟨c, hc⟩ := Option.isSome_iff_exists.1 hy
    rcases Slots.set_eq_some hc with ⟨-, rfl, -⟩ | hc
    · exact .inr rfl
    · rcases hh.slots y (by simp [hc]) with hm | hp
      · exact .inl hm
      · cases hp
  · have hsees := hh.sees
    generalize s.names = ps at hsees
    cases hsees with
    | ready hc => exact .waiting (hc.mono hg) (Slots.set_self σ _ _ _) hval

/-- The initializer of a local variable is behind it. -/
theorem Here.fill (hh : Here O σ scs (some x) m s) (h : Mirrors N O σ m s) {c : CellId} {ps : Names}
    (hn : s.names = (x, c) :: ps) (v : Value) :
    Moved N O (· ≠ m.env) σ m σ (withFrames m (m.store.frames.define m.env x v))
        { s with cells := s.cells.setIfInBounds c (some v) } ∧
      Here O σ (scs.declare x) none (withFrames m (m.store.frames.define m.env x v))
        { s with cells := s.cells.setIfInBounds c (some v) } := by
  have hsees := hh.sees
  rw [hn] at hsees
  cases hsees with
  | waiting hc hslot hlook =>
    have hg := Grows.define σ m.store.frames m.env x v
    have hne := h.slot_local m.env x (by simp [hslot])
    refine ⟨⟨h.write hslot v, hg, rfl⟩, ?_⟩
    cases scs with
    | nil => exact absurd (hc.local_iff h.outermost |>.2 rfl) hne
    | cons sc outer =>
      refine ⟨hh.isLocal, ?_, ?_⟩
      · intro y hy
        rcases hh.slots y hy with ⟨_, ⟨⟩, hm⟩ | hp
        · exact .inl ⟨_, rfl, by simp [hm]⟩
        · cases hp
          exact .inl ⟨_, rfl, by simp⟩
      · simp only [hn]
        exact .ready (Here.chain_declare (hc.mono hg) hslot
          (by simp [Frames.lookup?_define, hh.env_lt h]))

/-- A fresh frame for a scope, with its names declared in it, is a place of its own. -/
theorem Here.enter (site : Site ν) (h : Mirrors N O σ m s) (pairs : List (String × Value))
    (hnd : (pairs.map Prod.fst).Nodup) {e : FrameId} {names : Names}
    (hc : Chain O σ m.store.frames e scs names) (ho : O m.store.frames.cells.size site) :
    ∃ σ', Mirrors N O σ' (m.enter e (Table.empty.insertAll pairs)) { (s.addCells pairs names).2 with
          names := (s.addCells pairs names).1, isLocal := true } ∧
      Grows (fun _ => True) σ m.store.frames σ'
        (m.enter e (Table.empty.insertAll pairs)).store.frames ∧
      Here O σ' (⟨site, (pairs.map Prod.fst).reverse⟩ :: scs) none
        (m.enter e (Table.empty.insertAll pairs)) { (s.addCells pairs names).2 with
          names := (s.addCells pairs names).1, isLocal := true } := by
  obtain ⟨seg, σ', h1, h2, h3, h4, h5, h6, h7⟩ := h.openFrame pairs hnd e names
  refine ⟨σ', h3.relocate _ _ _, h4, rfl, ?_, ?_⟩
  · intro x hx
    exact .inl ⟨_, rfl, List.mem_reverse.2 (h7 x hx)⟩
  · simp only [h1]
    exact .ready (.scope h5 ho h2 h6 (hc.mono h4))

end

/-! ## Functions and classes -/

section
variable {N : Place ν → Prop} {O : FrameId → Site ν → Prop} {σ : Slots} {m : Machine ν} {s : State ν}
  {scs : Scopes ν}

theorem Here.chain (hh : Here O σ scs none m s) : Chain O σ m.store.frames m.env scs s.names := by
  have hsees := hh.sees
  generalize s.names = ps at hsees ⊢
  cases hsees with
  | ready hc => exact hc

theorem Here.declareFunction (hh : Here O σ scs none m s) (h : Mirrors N O σ m s)
    (decl : FunDecl (Stmt ν)) (hx : scs.Free decl.name.lexeme)
    (hs : Stmt.ScopedFun N (scs.declare decl.name.lexeme) decl) :
    ∃ σ' m' s', (Exec.newFunction ⟨decl, m.env, false⟩ >>= Exec.define decl.name.lexeme) m =
        .done () m' ∧ Run.declareFunction decl s = .done () s' ∧
      Moved N O (· ≠ m.env) σ m σ' m' s' ∧
      Here O σ' (scs.declare decl.name.lexeme) none m' s' := by
  obtain ⟨σ', hmove, hhere⟩ := hh.declare h hx (.functionRef s.functions.size)
  have hr : FunctionRel N O σ' (m.store.frames.define m.env decl.name.lexeme
        (.functionRef s.functions.size)) ⟨decl, m.env, false⟩
      ⟨decl, (s.declare decl.name.lexeme (.functionRef s.functions.size)).names, false⟩ :=
    ⟨scs.declare decl.name.lexeme, ⟨rfl, rfl, hhere.chain⟩, hs, fun hf => nomatch hf⟩
  refine ⟨σ', _, _, ?_, rfl, ⟨hmove.mirrors.addFunction hr, hmove.grows, rfl⟩,
    hhere.isLocal, hhere.slots, hhere.sees⟩
  rw [h.functions_size]
  rfl

theorem insertAll_rel {R : α → β → Prop} (key : γ → String) {f : γ → α} {g : γ → β} (l : List γ)
    (h : ∀ c ∈ l, R (f c) (g c)) (t : Table α) (t' : Table β)
    (ht : ∀ x, Option.Rel R (t.get? x) (t'.get? x)) (x : String) :
    Option.Rel R ((t.insertAll (l.map fun c => (key c, f c))).get? x)
      ((t'.insertAll (l.map fun c => (key c, g c))).get? x) := by
  induction l generalizing t t' with
  | nil => exact ht x
  | cons c rest ih =>
    refine ih (fun d hd => h d (by simp [hd])) (t.insert (key c) (f c)) (t'.insert (key c) (g c)) ?_
    intro y
    rw [Table.get?_insert, Table.get?_insert]
    split
    · exact .some (h c (by simp))
    · exact ht y

theorem scopedFun_of_mem {ms : List (FunDecl (Stmt ν))} {f : FunDecl (Stmt ν)}
    (h : Stmt.ScopedMethods N scs ms) (hf : f ∈ ms) :
    Stmt.ScopedFun N (.ofReceiver f :: scs) f := by
  induction ms with
  | nil => cases hf
  | cons g gs ih =>
    rw [Stmt.ScopedMethods] at h
    rcases List.mem_cons.1 hf with rfl | hf
    · exact h.1
    · exact ih h.2 hf

theorem methodTable_rel {fr : Frames} {f : FrameId} {names : Names} {ms : List (FunDecl (Stmt ν))}
    (hc : Chain O σ fr f scs names) (hs : Stmt.ScopedMethods N scs ms) (x : String) :
    Option.Rel (MethodRel N O σ fr) ((Exec.methodTable f ms).get? x)
      ((Run.methodTable names ms).get? x) := by
  refine insertAll_rel (fun m => m.name.lexeme) ms ?_ Table.empty Table.empty ?_ x
  · intro g hg
    exact ⟨scs, ⟨rfl, rfl, hc⟩, scopedFun_of_mem hs hg⟩
  · intro y
    exact .none

/-- The frame and the names that the methods of a class close over. -/
theorem Here.openParent (hh : Here O σ scs none m s) (h : Mirrors N O σ m s)
    (methods : List (FunDecl (Stmt ν))) (parent : ClassId)
    (ho : O m.store.frames.cells.size (.parent methods)) :
    let fr' := (m.store.frames.add ⟨Table.empty.insert "super" (.classRef parent), some m.env⟩).2
    ∃ σ', Mirrors N O σ' (withFrames m fr')
        (s.addCell "super" (some (.classRef parent)) s.names).2 ∧
      Grows (fun _ => True) σ m.store.frames σ' fr' ∧
      Chain O σ' fr' m.store.frames.cells.size (.ofParent methods :: scs)
        (s.addCell "super" (some (.classRef parent)) s.names).1 := by
  intro fr'
  obtain ⟨seg, σ', h1, h2, h3, h4, h5, h6, -⟩ :=
    h.openFrame [("super", .classRef parent)] (by simp) m.env s.names
  have hnames : (s.addCell "super" (some (.classRef parent)) s.names).1 = seg ++ s.names := h1
  refine ⟨σ', h3, h4, ?_⟩
  rw [hnames]
  exact .scope h5 ho h2 h6 (hh.chain.mono h4)

/-- A class is declared empty on one side and filled in later, and declared whole on the other. -/
theorem Here.declareClass (hh : Here O σ scs none m s) (h : Mirrors N O σ m s) (name : Token)
    (superclass : Option ClassId) (methods : List (FunDecl (Stmt ν))) (hx : scs.Free name.lexeme)
    (hs : Stmt.ScopedMethods N (scs.ofClass name.lexeme superclass.isSome methods) methods)
    (ho : superclass.isSome → O m.store.frames.cells.size (.parent methods)) :
    ∃ σ' m' s', Exec.declareClass name superclass methods m = .done () m' ∧
      Run.declareClass name superclass methods s = .done () s' ∧
      Moved N O (· ≠ m.env) σ m σ' m' s' ∧ Here O σ' (scs.declare name.lexeme) none m' s' := by
  have hlt := hh.env_lt h
  obtain ⟨σ₁, hmove, hhere⟩ := hh.declare h hx (.classRef s.classes.size)
  cases superclass with
  | none =>
    have hr : ClassRel N O σ₁ (m.store.frames.define m.env name.lexeme (.classRef s.classes.size))
        ⟨name.lexeme, none, Exec.methodTable m.env methods⟩
        ⟨name.lexeme, none, Run.methodTable
          (s.declare name.lexeme (.classRef s.classes.size)).names methods⟩ :=
      ⟨rfl, rfl, methodTable_rel hhere.chain hs⟩
    refine ⟨σ₁, _, _, ?_, rfl, ⟨hmove.mirrors.addClass hr, hmove.grows, rfl⟩,
      hhere.isLocal, hhere.slots, hhere.sees⟩
    have hlook : ((m.store.frames.define m.env name.lexeme .nil).lookup? m.env
        name.lexeme).isSome := by simp [Frames.lookup?_define, hlt]
    simp only [Exec.declareClass, Exec.bind_apply, Exec.define, Exec.read, Exec.updateStore,
      Exec.pure_apply, Store.addClass, Exec.assignIn, Frames.locate_self hlook,
      Frames.define_define, h.classes_size]
  | some parent =>
    have hopen : O (m.store.frames.define m.env name.lexeme
        (.classRef s.classes.size)).cells.size (.parent methods) := by simpa using ho rfl
    obtain ⟨σ', hm', hg', hc'⟩ := hhere.openParent hmove.mirrors methods parent hopen
    have hr : ClassRel N O σ' _ ⟨name.lexeme, some parent, Exec.methodTable _ methods⟩
        ⟨name.lexeme, some parent, Run.methodTable _ methods⟩ := ⟨rfl, rfl, methodTable_rel hc' hs⟩
    have hhere' : Here O σ' _ _ (withFrames m _) { s.declare name.lexeme
        (.classRef s.classes.size) with cells := _ } := hhere.mono hmove.mirrors hg' rfl rfl rfl
    refine ⟨σ', _, _, ?_, rfl, ⟨hm'.addClass hr, hmove.grows.trans (hg'.weaken fun _ _ _ => trivial),
      rfl⟩, hhere'.isLocal, hhere'.slots, hhere'.sees⟩
    have hlook : (((m.store.frames.define m.env name.lexeme .nil).add
        ⟨Table.empty.insert "super" (.classRef parent), some m.env⟩).2.lookup? m.env
        name.lexeme).isSome := by
      rw [Frames.lookup?_add, Frames.size_define, if_neg (Nat.ne_of_lt hlt)]
      simp [Frames.lookup?_define, hlt]
    simp only [Exec.declareClass, Exec.bind_apply, Exec.define, Exec.read, Exec.newFrame,
      Store.addFrame, Exec.updateStore, Store.addClass, Exec.assignIn, Frames.locate_self hlook,
      Frames.define_add _ (Nat.lt_of_lt_of_eq hlt (Frames.size_define _ _ _ _).symm),
      Frames.define_define, Frames.fst_add, Frames.size_define, h.classes_size]

end

/-! ## Scopes of their own -/

section
variable {P : α → Machine ν → State ν → Prop} {F : Machine ν → State ν → Prop}

theorem Agree.inFrame {x : Exec ν α} {m : Machine ν} {frame : FrameId} {R : Result ν α}
    (h : Agree P F (x { m with env := frame }) R) :
    Agree (fun a m' s' => ∃ m₁, P a m₁ s' ∧ m' = { m₁ with env := m.env })
      (fun m' s' => ∃ m₁, F m₁ s' ∧ m' = { m₁ with env := m.env }) (Exec.inFrame frame x m) R := by
  unfold Exec.inFrame
  generalize x { m with env := frame } = r at h
  cases h with
  | done h => exact .done ⟨_, h, rfl⟩
  | failed e h => exact .failed e ⟨_, h, rfl⟩
  | outOfFuel => exact .outOfFuel

theorem Agree.inScope {y : Run ν α} {s : State ν} {names : Names} {r : Lox.Result ν α}
    (h : Agree P F r (y { s with names, isLocal := true })) :
    Agree (fun a m' s' => ∃ s₁, P a m' s₁ ∧ s' = { s₁ with names := s.names, isLocal := s.isLocal })
      (fun m' s' => ∃ s₁, F m' s₁ ∧ s' = { s₁ with names := s.names, isLocal := s.isLocal }) r
      (Run.inScope names y s) := by
  unfold Run.inScope
  generalize y { s with names, isLocal := true } = R at h
  cases h with
  | done h => exact .done ⟨_, h, rfl⟩
  | failed e h => exact .failed e ⟨_, h, rfl⟩
  | outOfFuel => exact .outOfFuel

theorem Agree.deeper {x : Exec ν α} {y : Run ν α} {m : Machine ν} {s : State ν}
    (h : Agree P F (x { m with depth := m.depth + 1 }) (y { s with depth := s.depth + 1 })) :
    Agree (fun a m' s' => ∃ m₁ s₁, P a m₁ s₁ ∧ m' = { m₁ with depth := m₁.depth - 1 } ∧
        s' = { s₁ with depth := s₁.depth - 1 })
      (fun m' s' => ∃ m₁ s₁, F m₁ s₁ ∧ m' = { m₁ with depth := m₁.depth - 1 } ∧
        s' = { s₁ with depth := s₁.depth - 1 }) (Exec.deeper x m) (Run.deeper y s) := by
  unfold Exec.deeper Run.deeper
  generalize x { m with depth := m.depth + 1 } = r at h
  generalize y { s with depth := s.depth + 1 } = R at h
  cases h with
  | done h => exact .done ⟨_, _, h, rfl, rfl⟩
  | failed e h => exact .failed e ⟨_, _, h, rfl, rfl⟩
  | outOfFuel => exact .outOfFuel

end

end Lox.Lexical
