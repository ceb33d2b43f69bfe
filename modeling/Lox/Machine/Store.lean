import Lox.Machine.Frames
import Lox.Text.Quoted

/-!
# The store

Everything that values refer to: frames, functions, classes and objects, each kind in an array of
its own. Properties of an object are its fields and, behind them, the methods of its class and of
the classes above.
-/

namespace Lox

/-- A function with the frame it was declared in. -/
structure Function (ν : Type) where
  decl          : FunDecl (Stmt ν)
  closure       : FrameId
  isInitializer : Bool
deriving Repr

namespace Function

def name (f : Function ν) : String := f.decl.name.lexeme

def arity (f : Function ν) : Nat := f.decl.params.length

end Function

structure Class (ν : Type) where
  name       : String
  superclass : Option ClassId
  methods    : Table (Function ν)
deriving Repr

structure Object where
  classId : ClassId
  fields  : Table Value := {}
deriving Repr

structure Store (ν : Type) where
  frames    : Frames := {}
  functions : Array (Function ν) := #[]
  classes   : Array (Class ν) := #[]
  objects   : Array Object := #[]

namespace Store

/-- The method of a name in the first `fuel` classes from a class upwards. -/
def methodWithin? (s : Store ν) (name : String) : Nat → ClassId → Option (Function ν)
  | 0, _ => none
  | fuel + 1, id => s.classes[id]?.bind fun c =>
    match c.methods.get? name with
    | some method => some method
    | none => c.superclass.bind (s.methodWithin? name fuel)

/-- The method of a name: the class's own, else the nearest one above. A chain of classes is no
longer than there are classes. -/
def method? (s : Store ν) (id : ClassId) (name : String) : Option (Function ν) :=
  s.methodWithin? name s.classes.size id

def addFrame (s : Store ν) (frame : Frame) : FrameId × Store ν :=
  let (id, frames) := s.frames.add frame
  (id, { s with frames })

def addFunction (s : Store ν) (f : Function ν) : FunctionId × Store ν :=
  (s.functions.size, { s with functions := s.functions.push f })

def addClass (s : Store ν) (c : Class ν) : ClassId × Store ν :=
  (s.classes.size, { s with classes := s.classes.push c })

def addObject (s : Store ν) (o : Object) : ObjectId × Store ν :=
  (s.objects.size, { s with objects := s.objects.push o })

/-- The method with a frame around its closure that holds `this`. -/
def bindMethod (s : Store ν) (method : Function ν) (this : ObjectId) : Function ν × Store ν :=
  let names := Table.empty.insert "this" (.objectRef this)
  let (closure, s) := s.addFrame ⟨names, some method.closure⟩
  ({ method with closure }, s)

/-- What a property of an object is. -/
inductive Property (ν : Type) where
  | field (value : Value)
  | method (f : Function ν)
  | missing

/-- Fields hide methods. -/
def property (s : Store ν) (id : ObjectId) (name : String) : Property ν :=
  match s.objects[id]? with
  | none => .missing
  | some o =>
    match o.fields.get? name with
    | some value => .field value
    | none =>
      match s.method? o.classId name with
      | some f => .method f
      | none => .missing

def setField (s : Store ν) (id : ObjectId) (name : String) (value : Value) : Store ν :=
  { s with objects := s.objects.modify id fun o => { o with fields := o.fields.insert name value } }

/-! ## Texts -/

def className (s : Store ν) (id : ClassId) : String := s.classes[id]?.elim "" (·.name)

/-- What `print` writes for a value. -/
def text (s : Store ν) : Value → String
  | .nil => "nil"
  | .bool b => if b then "true" else "false"
  | .number x => Number.valueText x
  | .string text => text
  | .native _ => "<native fn>"
  | .functionRef id => "<fn " ++ s.functions[id]?.elim "" (·.name) ++ ">"
  | .classRef id => s.className id
  | .objectRef id => s.objects[id]?.elim "" (fun o => s.className o.classId) ++ " instance"

/-- A record with named fields, as descriptions show it. -/
def describeRecord (name : String) (fields : List (String × String)) : String :=
  let shown := fields.map fun (key, value) => key ++ ": " ++ value
  name ++ " \x7b " ++ ", ".intercalate shown ++ " \x7d"

/-- Names in the order of their characters. -/
def sortNames (names : List String) : List String := names.mergeSort fun a b => a ≤ b

/-- What a function or object is made of; `none` for values that their text tells all about. -/
def describe? (s : Store ν) : Value → Option String
  | .native f => some ("<native fn " ++ f.name ++ ">")
  | .functionRef id => s.functions[id]?.map fun f =>
    describeRecord "LoxFunction"
      [("name", Text.describedName f.name), ("arity", Nat.repr f.arity),
       ("is_initializer", if f.isInitializer then "true" else "false")]
  | .objectRef id => s.objects[id]?.map fun o =>
    let names := (sortNames o.fields.names).map Text.describedName
    describeRecord "LoxInstance"
      [("class", Text.describedName (s.className o.classId)),
       ("fields", "[" ++ ", ".intercalate names ++ "]")]
  | _ => none

end Store

end Lox
