import Lox.Proofs.Execution.Calls
import Lox.Proofs.Lexical.Position

/-!
# Steps that agree

A step of a machine and a step of a state agree if they end the same way and leave the two in step.
`Evaluates` is agreement for expressions and calls, which leave both sides where they stood and add
no name to a frame that was there. Agreement is kept by `bind`, so that it is enough to look at one
operation at a time.
-/

namespace Lox.Lexical

/-- The fault of a machine that stands for a fault. A variable that waits for its initializer lies in
the current frame. -/
def Fault.onMachine : Fault → RuntimeFault
  | .runtime cause => cause
  | .uninitialised x => .unresolvedVariable x 0

def Error.onMachine (e : Error) : RuntimeError := ⟨e.blamed, e.cause.onMachine⟩

/-- The two sides end the same way. -/
inductive Agree (P : α → Machine ν → State ν → Prop) (F : Machine ν → State ν → Prop) :
    Lox.Result ν α → Result ν α → Prop
  | done {a : α} {m : Machine ν} {s : State ν} : P a m s → Agree P F (.done a m) (.done a s)
  | failed {m : Machine ν} {s : State ν} (e : Error) : F m s →
      Agree P F (.failed e.onMachine m) (.failed e s)
  | outOfFuel : Agree P F .outOfFuel .outOfFuel

namespace Run

@[simp] theorem pure_apply (a : α) (s : State ν) : (pure a : Run ν α) s = .done a s := rfl

theorem bind_apply (x : Run ν α) (f : α → Run ν β) (s : State ν) :
    (x >>= f) s = match x s with
      | .done a s => f a s
      | .failed e s => .failed e s
      | .outOfFuel => .outOfFuel := rfl

end Run

section
variable {P : α → Machine ν → State ν → Prop} {Q : β → Machine ν → State ν → Prop}
  {F F' : Machine ν → State ν → Prop}

theorem Agree.mono {P' : α → Machine ν → State ν → Prop} {r : Lox.Result ν α} {R : Result ν α}
    (h : Agree P F r R) (hp : ∀ a m s, P a m s → P' a m s) (hf : ∀ m s, F m s → F' m s) :
    Agree P' F' r R := by
  cases h with
  | done h => exact .done (hp _ _ _ h)
  | failed e h => exact .failed e (hf _ _ h)
  | outOfFuel => exact .outOfFuel

theorem Agree.bind {x : Exec ν α} {y : Run ν α} {f : α → Exec ν β} {g : α → Run ν β}
    {m : Machine ν} {s : State ν} (h : Agree P F (x m) (y s))
    (hf : ∀ a m' s', x m = .done a m' → P a m' s' → Agree Q F' (f a m') (g a s'))
    (hF : ∀ m' s', F m' s' → F' m' s') : Agree Q F' ((x >>= f) m) ((y >>= g) s) := by
  rw [Exec.bind_apply, Run.bind_apply]
  generalize hr : x m = r at h
  generalize y s = R at h
  cases h with
  | done h => exact hf _ _ _ hr h
  | failed e h => exact .failed e (hF _ _ h)
  | outOfFuel => exact .outOfFuel

end

section
variable (N : Place ν → Prop) (O : FrameId → Site ν → Prop)

/-- The machine went on and is back in its frame; the frames with `p` gained no name. -/
structure Moved (p : FrameId → Prop) (σ : Slots) (m : Machine ν) (σ' : Slots) (m' : Machine ν)
    (s' : State ν) : Prop where
  mirrors : Mirrors N O σ' m' s'
  grows : Grows p σ m.store.frames σ' m'.store.frames
  env : m'.env = m.env

/-- Both sides went on and stand where they stood. -/
structure Onward (σ : Slots) (m : Machine ν) (s : State ν) (σ' : Slots) (m' : Machine ν)
    (s' : State ν) : Prop extends Moved N O (fun _ => True) σ m σ' m' s' where
  names : s'.names = s.names
  isLocal : s'.isLocal = s.isLocal

/-- The machine stopped at an error and is back in its frame. -/
def Halted (m m' : Machine ν) (s' : State ν) : Prop := m'.env = m.env ∧ ∃ σ', Mirrors N O σ' m' s'

/-- Two steps agree and leave both sides where they stood. -/
abbrev Evaluates (σ : Slots) (m : Machine ν) (s : State ν) : Lox.Result ν α → Result ν α → Prop :=
  Agree (fun _ m' s' => ∃ σ', Onward N O σ m s σ' m' s') (Halted N O m)

end

section
variable {N : Place ν → Prop} {O : FrameId → Site ν → Prop} {p : FrameId → Prop} {σ σ' σ'' : Slots}
  {m m' m'' : Machine ν} {s s' s'' : State ν} {scs : Scopes ν} {pend : Option String}

theorem Moved.trans (h : Moved N O p σ m σ' m' s') (h' : Moved N O p σ' m' σ'' m'' s'') :
    Moved N O p σ m σ'' m'' s'' :=
  ⟨h'.mirrors, h.grows.trans h'.grows, h'.env.trans h.env⟩

namespace Onward

theorem refl (h : Mirrors N O σ m s) : Onward N O σ m s σ m s := ⟨⟨h, .refl, rfl⟩, rfl, rfl⟩

theorem trans (h : Onward N O σ m s σ' m' s') (h' : Onward N O σ' m' s' σ'' m'' s'') :
    Onward N O σ m s σ'' m'' s'' :=
  ⟨h.toMoved.trans h'.toMoved, h'.names.trans h.names, h'.isLocal.trans h.isLocal⟩

/-- The place is still there. -/
theorem here (ho : Onward N O σ m s σ' m' s') (h : Mirrors N O σ m s)
    (hh : Here O σ scs pend m s) : Here O σ' scs pend m' s' :=
  hh.mono h ho.grows ho.env ho.names ho.isLocal

theorem halted (ho : Onward N O σ m s σ' m' s') (hh : Halted N O m' m'' s'') : Halted N O m m'' s'' :=
  ⟨hh.1.trans ho.env, hh.2⟩

end Onward

namespace Evaluates

theorem pure (h : Mirrors N O σ m s) (a : α) :
    Evaluates N O σ m s ((pure a : Exec ν α) m) ((pure a : Run ν α) s) :=
  .done ⟨σ, .refl h⟩

theorem throwAt (h : Mirrors N O σ m s) (t : Token) (cause : RuntimeFault) :
    Evaluates N O σ m s ((Exec.throwAt t cause : Exec ν α) m)
      ((Run.throwAt t (.runtime cause) : Run ν α) s) :=
  .failed ⟨t, .runtime cause⟩ ⟨rfl, σ, h⟩

theorem liftAt (h : Mirrors N O σ m s) (t : Token) (r : Except RuntimeFault α) :
    Evaluates N O σ m s ((Exec.liftAt t r : Exec ν α) m) ((Run.liftAt t r : Run ν α) s) := by
  cases r with
  | ok a => exact pure h a
  | error cause => exact throwAt h t cause

theorem trans {r : Lox.Result ν α} {R : Result ν α} (ho : Onward N O σ m s σ' m' s')
    (h : Evaluates N O σ' m' s' r R) : Evaluates N O σ m s r R := by
  refine h.mono ?_ (fun _ _ hh => ho.halted hh)
  rintro _ _ _ ⟨σ'', ho'⟩
  exact ⟨σ'', ho.trans ho'⟩

/-- What follows a step goes on from where the step left off. -/
theorem bind {x : Exec ν α} {y : Run ν α} {f : α → Exec ν β} {g : α → Run ν β}
    (h : Evaluates N O σ m s (x m) (y s))
    (hf : ∀ a σ' m' s', x m = .done a m' → Onward N O σ m s σ' m' s' →
      Evaluates N O σ' m' s' (f a m') (g a s')) :
    Evaluates N O σ m s ((x >>= f) m) ((y >>= g) s) := by
  refine Agree.bind h ?_ (fun _ _ hh => hh)
  rintro a m' s' hx ⟨σ', ho⟩
  exact trans ho (hf a σ' m' s' hx ho)

end Evaluates

/-! ## Names -/

theorem readName_agrees (h : Mirrors N O σ m s) (hh : Here O σ scs pend m s) (x : Token)
    (hp : pend ≠ some x.lexeme) :
    Evaluates N O σ m s (Exec.readName (scs.distance? x.lexeme) x m) (Run.readName x s) := by
  cases hk : scs.distance? x.lexeme with
  | some k =>
    obtain ⟨g, _, c, ha, _, _, _, hc, hb, hl⟩ := hh.sees.find hp hk
    obtain ⟨v, hv⟩ := Option.isSome_iff_exists.1 hb
    have hm : Exec.readName (some k) x m = .done v m := by
      have : Exec.readName (some k) x m =
        Exec.liftAt x (m.store.frames.getAt m.env k x.lexeme) m := rfl
      rw [this, Frames.getAt_eq_ok ha hv]
      rfl
    have hs : Run.readName x s = .done v s := by
      simp only [Run.readName, hl, h.slot_value g x.lexeme c hc, hv]
    rw [hm, hs]
    exact .done ⟨σ, .refl h⟩
  | none =>
    have hm : Exec.readName none x m =
      Exec.liftAt x (m.store.frames.get globalFrame x.lexeme) m := rfl
    rw [hm]
    simp only [Run.readName, hh.sees.lookup_eq_none hp hk, ← h.globals]
    cases hv : m.store.frames.lookup? globalFrame x.lexeme with
    | some v =>
      rw [Frames.get_self hv]
      exact .done ⟨σ, .refl h⟩
    | none =>
      rw [Frames.get_none h.outermost hv]
      exact .failed ⟨x, .runtime (.undefinedVariable x.lexeme)⟩ ⟨rfl, σ, h⟩

theorem locate_global (h : Mirrors N O σ m s) (x : String) :
    m.store.frames.locate globalFrame x =
      if s.globals.contains x then .ok globalFrame else .error (.undefinedVariable x) := by
  unfold Table.contains
  rw [← h.globals]
  cases hv : m.store.frames.lookup? globalFrame x with
  | some v =>
    rw [Frames.locate_self (by rw [hv]; rfl)]
    rfl
  | none =>
    rw [Frames.locate_none h.outermost hv]
    rfl

/-- A write succeeds on both sides or on neither. It fails on a variable that waits for its
initializer, and on a global that was never declared. -/
theorem assignName_agrees (h : Mirrors N O σ m s) (hh : Here O σ scs pend m s) (x : Token)
    (v : Value) :
    Evaluates N O σ m s
      (Exec.assignName (if pend = some x.lexeme then some 0 else scs.distance? x.lexeme) x v m)
      (Run.assignName x v s) := by
  by_cases hp : pend = some x.lexeme
  · rw [if_pos hp]
    have hsees := hh.sees
    rw [hp] at hsees
    generalize hn : s.names = names at hsees
    cases hsees with
    | @waiting ps _ c hc hslot hlook =>
      have hm : Exec.assignName (some 0) x v m =
          .failed ⟨x, .unresolvedVariable x.lexeme 0⟩ m := by
        simp only [Exec.assignName, Exec.bind_apply, Exec.read, Exec.assignIn,
          Frames.locateAt_eq_error (k := 0) rfl hlook]
      have hs : Run.assignName x v s = .failed ⟨x, .uninitialised x.lexeme⟩ s := by
        have hcell : s.cell? c = none := (h.slot_value _ _ _ hslot).trans hlook
        simp [Run.assignName, hn, hcell]
      rw [hm, hs]
      exact .failed ⟨x, .uninitialised x.lexeme⟩ ⟨rfl, σ, h⟩
  · rw [if_neg hp]
    cases hk : scs.distance? x.lexeme with
    | some k =>
      obtain ⟨g, _, c, ha, _, _, _, hc, hb, hl⟩ := hh.sees.find hp hk
      have hm : Exec.assignName (some k) x v m =
          .done () (withFrames m (m.store.frames.define g x.lexeme v)) := by
        simp only [Exec.assignName, Exec.bind_apply, Exec.read, Exec.assignIn,
          Frames.locateAt_eq_ok ha hb]
      have hs : Run.assignName x v s =
          .done () { s with cells := s.cells.setIfInBounds c (some v) } := by
        simp [Run.assignName, hl, h.slot_value g x.lexeme c hc, hb]
      rw [hm, hs]
      exact .done ⟨σ, ⟨h.write hc v, .assign σ hb v, rfl⟩, rfl, rfl⟩
    | none =>
      have hm : Exec.assignName none x v m =
        Exec.assignIn x (·.locate globalFrame x.lexeme) v m := rfl
      simp only [hm, Exec.assignIn, locate_global h, Run.assignName,
        hh.sees.lookup_eq_none hp hk]
      by_cases hc : s.globals.contains x.lexeme = true
      · have hb : (m.store.frames.lookup? globalFrame x.lexeme).isSome := by
          rw [h.globals]
          exact hc
        simp only [hc, ↓reduceIte]
        exact .done ⟨σ, ⟨h.writeGlobal x.lexeme v, .assign σ hb v, rfl⟩, rfl, rfl⟩
      · simp only [hc, Bool.false_eq_true, ↓reduceIte]
        exact .failed ⟨x, .runtime (.undefinedVariable x.lexeme)⟩ ⟨rfl, σ, h⟩

/-! ## Properties -/

theorem boundMethod_agrees (h : Mirrors N O σ m s) {f : Lox.Function ν} {g : Function ν}
    (hr : MethodRel N O σ m.store.frames f g) (object : ObjectId)
    (ho : O m.store.frames.cells.size (.receiver f.decl)) :
    Evaluates N O σ m s ((Exec.bindMethod f object >>= Exec.newFunction) m)
      (Run.boundMethod g object s) := by
  obtain ⟨σ', h', hg, hf⟩ := h.bindMethod hr object ho
  have hm : (Exec.bindMethod f object >>= Exec.newFunction) m = .done (.functionRef s.functions.size)
      { m with store := ((m.store.bindMethod f object).2.addFunction
        (m.store.bindMethod f object).1).2 } := by
    rw [h.functions_size]
    rfl
  rw [hm]
  exact .done ⟨σ', ⟨h'.addFunction hf, hg, rfl⟩, rfl, rfl⟩

theorem getProperty_agrees (h : Mirrors N O σ m s) (i : ObjectId) (x : Token)
    (ho : ∀ f, m.store.property i x.lexeme = .method f →
      O m.store.frames.cells.size (.receiver f.decl)) :
    Evaluates N O σ m s (Exec.getProperty i x m) (Run.getProperty i x s) := by
  simp only [Exec.getProperty, Exec.bind_apply, Exec.read, Run.getProperty, Run.bind_apply, Run.read,
    h.objects]
  cases hobj : m.store.objects[i]? with
  | none =>
    simp only [Store.property, hobj]
    exact Evaluates.throwAt h x _
  | some o =>
    cases hf : o.fields.get? x.lexeme with
    | some v =>
      simp only [Store.property, hobj, hf]
      exact Evaluates.pure h v
    | none =>
      have hr := h.method o.classId x.lexeme
      have hopen := ho
      simp only [Store.property, hobj, hf, Run.bind_apply, Run.read] at hopen ⊢
      generalize s.method? o.classId x.lexeme = b at hr
      generalize m.store.method? o.classId x.lexeme = a at hr hopen
      cases hr with
      | some hr => exact boundMethod_agrees h hr i (hopen _ rfl)
      | none => exact Evaluates.throwAt h x _

theorem superMethod_agrees (h : Mirrors N O σ m s) (hh : Here O σ scs pend m s) (kw x : Token)
    (hp : pend ≠ some kw.lexeme) (ht : pend ≠ some "this")
    (hd : ∀ j, scs.distance? kw.lexeme = some j → ∃ i, j = i + 1 ∧ scs.distance? "this" = some i)
    (ho : ∀ j p i f, scs.distance? kw.lexeme = some j →
      m.store.frames.getAt m.env j kw.lexeme = .ok (.classRef p) →
      m.store.frames.getAt m.env (j - 1) "this" = .ok (.objectRef i) →
      m.store.method? p x.lexeme = some f → O m.store.frames.cells.size (.receiver f.decl)) :
    Evaluates N O σ m s (Exec.superMethod (scs.distance? kw.lexeme) kw x m)
      (Run.superMethod kw x s) := by
  cases hk : scs.distance? kw.lexeme with
  | none =>
    have hs : Run.superMethod kw x s = .failed ⟨kw, .runtime .superOutsideClass⟩ s := by
      simp only [Run.superMethod, Run.bind_apply, Run.read, hh.sees.lookup_eq_none hp hk]
      rfl
    rw [hs]
    exact Evaluates.throwAt h kw .superOutsideClass
  | some j =>
    obtain ⟨i, rfl, hi⟩ := hd j hk
    obtain ⟨g, _, c, ha, _, _, _, hc, hb, hl⟩ := hh.sees.find hp hk
    obtain ⟨g', _, c', ha', _, _, _, hc', hb', hl'⟩ := hh.sees.find ht hi
    obtain ⟨v, hv⟩ := Option.isSome_iff_exists.1 hb
    obtain ⟨v', hv'⟩ := Option.isSome_iff_exists.1 hb'
    have hget := Frames.getAt_eq_ok ha hv
    have hget' := Frames.getAt_eq_ok ha' hv'
    have hread : Run.readName kw s = .done v s := by
      simp only [Run.readName, hl, h.slot_value g _ c hc, hv]
    have hread' : Run.readName (.ident "this" kw.line) s = .done v' s := by
      simp only [Run.readName, Token.ident, Token.ofSymbol, hl', h.slot_value g' _ c' hc', hv']
    simp only [Exec.superMethod, Exec.bind_apply, Exec.read, hget, Exec.liftAt, Exec.pure_apply,
      Run.superMethod, Run.bind_apply, Run.read, hl, hread]
    cases v with
    | classRef p =>
      simp only [Exec.bind_apply, Nat.add_sub_cancel, hget', Exec.pure_apply, Run.bind_apply, hread']
      cases v' with
      | objectRef object =>
        have hr := h.method p x.lexeme
        have hopen := ho (i + 1) p object
        simp only [Exec.bind_apply, Exec.read, Run.bind_apply, Run.read]
        generalize m.store.method? p x.lexeme = a at hr hopen
        generalize s.method? p x.lexeme = b at hr
        cases hr with
        | some hr => exact boundMethod_agrees h hr object (hopen _ hk hget hget' rfl)
        | none => exact Evaluates.throwAt h x _
      | _ => exact Evaluates.throwAt h kw .noProperties
    | _ => exact Evaluates.throwAt h kw .superclassNotClass

end

end Lox.Lexical
