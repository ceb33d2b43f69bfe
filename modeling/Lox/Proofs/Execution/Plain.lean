import Lox.Proofs.Execution.Calls

/-!
# Plain steps

Between the calls it makes, the evaluator takes steps that run no code and print nothing: it reads the
store and the current frame, changes the store in one of a few ways, reads the clock, or fails. `Plain`
says how these are put together, so what holds of every plain step is shown by induction over it, and the
operations on names, properties and classes are gone through only once.
-/

namespace Lox.Exec

/-- A step that runs no code and does not touch the output. -/
inductive Plain : {α : Type} → Exec ν α → Prop
  | pure {α : Type} (a : α) : Plain (Pure.pure a)
  | read {α : Type} {g : Machine ν → α} : (∀ m o, g { m with output := o } = g m) → Plain (Exec.read g)
  | throwAt {α : Type} (t : Token) (cause : RuntimeFault) : Plain (Exec.throwAt t cause : Exec ν α)
  | define (x : String) (v : Value) : Plain (Exec.define x v)
  | assignIn (x : Token) (locate : Frames → Except RuntimeFault FrameId) (v : Value) :
      Plain (Exec.assignIn x locate v)
  | newFrame (e : FrameId) (names : Table Value) : Plain (Exec.newFrame e names)
  | newFunction (f : Function ν) : Plain (Exec.newFunction f)
  | bindMethod (f : Function ν) (this : ObjectId) : Plain (Exec.bindMethod f this)
  | newClass (x : String) (superclass : Option ClassId) (closure : FrameId)
      (methods : List (FunDecl (Stmt ν))) :
      Plain (Exec.updateStore (·.addClass ⟨x, superclass, methodTable closure methods⟩))
  | newObject (c : ClassId) : Plain (Exec.updateStore (·.addObject ⟨c, {}⟩))
  | setField (i : ObjectId) (x : String) (v : Value) :
      Plain (Exec.updateStore fun s => ((), s.setField i x v))
  | readClock : Plain Exec.readClock
  | bind {α β : Type} {x : Exec ν α} {f : α → Exec ν β} :
      Plain x → (∀ a, Plain (f a)) → Plain (x >>= f)

namespace Plain

theorem liftAt (t : Token) (r : Except RuntimeFault α) : Plain (Exec.liftAt t r : Exec ν α) := by
  cases r with
  | ok a => exact .pure a
  | error cause => exact .throwAt t cause

theorem readName (distance : Option Nat) (x : Token) : Plain (Exec.readName distance x : Exec ν Value) := by
  refine .bind (.read fun _ _ => rfl) fun frames => ?_
  cases distance with
  | some j => exact .bind (.read fun _ _ => rfl) fun env => .liftAt _ _
  | none => exact .liftAt _ _

theorem assignName (distance : Option Nat) (x : Token) (v : Value) :
    Plain (Exec.assignName distance x v : Exec ν Unit) := by
  refine .bind (.read fun _ _ => rfl) fun env => ?_
  cases distance with
  | some j => exact .assignIn _ _ _
  | none => exact .assignIn _ _ _

/-- A method, bound to an object, as a value. -/
theorem boundMethod (f : Lox.Function ν) (object : ObjectId) :
    Plain (Exec.bindMethod f object >>= Exec.newFunction) :=
  .bind (.bindMethod f object) fun bound => .newFunction bound

theorem getProperty (i : ObjectId) (x : Token) : Plain (Exec.getProperty i x : Exec ν Value) := by
  refine .bind (.read fun _ _ => rfl) fun property => ?_
  cases property with
  | field v => exact .pure v
  | method f => exact .boundMethod f i
  | missing => exact .throwAt _ _

theorem superMethod (distance : Option Nat) (kw x : Token) :
    Plain (Exec.superMethod distance kw x : Exec ν Value) := by
  cases distance with
  | none => exact .throwAt _ _
  | some j =>
    refine .bind (.read fun _ _ => rfl) fun env => .bind (.read fun _ _ => rfl) fun frames => ?_
    refine .bind (.liftAt _ _) fun v => ?_
    cases v with
    | classRef p =>
      refine .bind (.liftAt _ _) fun u => ?_
      cases u with
      | objectRef object =>
        refine .bind (.read fun _ _ => rfl) fun found => ?_
        cases found with
        | some f => exact .boundMethod f object
        | none => exact .throwAt _ _
      | _ => exact .throwAt _ _
    | _ => exact .throwAt _ _

theorem declareClass (x : Token) (superclass : Option ClassId) (methods : List (FunDecl (Stmt ν))) :
    Plain (Exec.declareClass x superclass methods) := by
  have hclass : ∀ env closure, Plain (do
      let id ← updateStore (·.addClass ⟨x.lexeme, superclass, methodTable closure methods⟩)
      Exec.assignIn x (·.locate env x.lexeme) (.classRef id)) :=
    fun env closure => .bind (.newClass _ _ _ _) fun id => .assignIn _ _ _
  refine .bind (.define _ _) fun _ => .bind (.read fun _ _ => rfl) fun env => ?_
  cases superclass with
  | some p => exact .bind (.newFrame env _) (hclass env)
  | none => exact .bind (.pure env) (hclass env)

end Plain

end Lox.Exec
