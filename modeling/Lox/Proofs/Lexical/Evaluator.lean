import Lox.Machine.Run

/-!
# Evaluation by lexical environments

A second meaning of programs, with no resolver, no distances and no frames. The local names in scope
are a list of pairs of a name and a cell, nearest first. A declaration puts one pair in front of the
list, a function or class keeps the list as it stands at its declaration, its own name included, and
a name means the nearest pair of that name, or else the global of that name at the time of use. The
cell of a local variable is in scope but empty while its initializer runs.
-/

namespace Lox.Lexical

abbrev CellId := Nat

/-- The local names in scope, nearest first. -/
abbrev Names := List (String × CellId)

/-- A function with the names in scope where it was declared. -/
structure Function (ν : Type) where
  decl          : FunDecl (Stmt ν)
  names         : Names
  isInitializer : Bool

structure Class (ν : Type) where
  name       : String
  superclass : Option ClassId
  methods    : Table (Function ν)

structure State (ν : Type) where
  globals   : Table Value
  /-- The cells of local names; an empty one belongs to a variable whose initializer is running. -/
  cells     : Array (Option Value) := #[]
  functions : Array (Function ν) := #[]
  classes   : Array (Class ν) := #[]
  objects   : Array Object := #[]
  names     : Names := []
  /-- Whether a declaration made here is local. -/
  isLocal   : Bool := false
  depth     : Nat := 0
  output    : Output := {}
  clock     : Clock

inductive Fault where
  | runtime (cause : RuntimeFault)
  /-- An assignment to a variable whose initializer is still running. -/
  | uninitialised (name : String)
deriving DecidableEq, Repr

def Fault.message : Fault → String
  | .runtime cause => cause.message
  | .uninitialised name => "Variable '" ++ name ++ "' has no value yet."

/-- A fault and the token to blame for it. -/
structure Error where
  blamed : Token
  cause  : Fault
deriving DecidableEq, Repr

namespace State

/-- A state at rest at the top level. -/
def initial (clock : Clock) (limit : Option Nat := none) : State ν :=
  { globals := Table.empty.insert Native.clock.name (.native .clock), output := { limit }, clock }

/-- The value in a cell, if it has one. -/
def cell? (s : State ν) (c : CellId) : Option Value := (s.cells[c]?).bind id

/-- The method of a name in the first `fuel` classes from a class upwards. -/
def methodWithin? (s : State ν) (name : String) : Nat → ClassId → Option (Function ν)
  | 0, _ => none
  | fuel + 1, id => s.classes[id]?.bind fun c =>
    match c.methods.get? name with
    | some method => some method
    | none => c.superclass.bind (s.methodWithin? name fuel)

/-- The method of a name: the class's own, else the nearest one above. -/
def method? (s : State ν) (id : ClassId) (name : String) : Option (Function ν) :=
  s.methodWithin? name s.classes.size id

def className (s : State ν) (id : ClassId) : String := s.classes[id]?.elim "" (·.name)

/-- What `print` writes for a value. -/
def text (s : State ν) : Value → String
  | .nil => "nil"
  | .bool b => if b then "true" else "false"
  | .number x => Number.valueText x
  | .string text => text
  | .native _ => "<native fn>"
  | .functionRef id => "<fn " ++ s.functions[id]?.elim "" (·.decl.name.lexeme) ++ ">"
  | .classRef id => s.className id
  | .objectRef id => s.objects[id]?.elim "" (fun o => s.className o.classId) ++ " instance"

/-- Makes a cell that holds a value and puts its name in front of the given names. -/
def addCell (s : State ν) (name : String) (value : Option Value) (names : Names) : Names × State ν :=
  ((name, s.cells.size) :: names, { s with cells := s.cells.push value })

/-- Makes a cell for each parameter, from left to right. -/
def addCells (s : State ν) : List (String × Value) → Names → Names × State ν
  | [], names => (names, s)
  | (name, value) :: rest, names =>
    let (names, s) := s.addCell name (some value) names
    s.addCells rest names

/-- Declares a name: in a cell of its own, or among the globals. -/
def declare (s : State ν) (name : String) (value : Value) : State ν :=
  if s.isLocal then
    let (names, s) := s.addCell name (some value) s.names
    { s with names }
  else { s with globals := s.globals.insert name value }

/-- The method with a cell in front of its names that holds `this`. -/
def bindMethod (s : State ν) (method : Function ν) (this : ObjectId) : Function ν × State ν :=
  let (names, s) := s.addCell "this" (some (.objectRef this)) method.names
  ({ method with names }, s)

end State

/-- Something that can be called. -/
inductive Callable (ν : Type) where
  | native (f : Native)
  | function (f : Function ν)
  | constructor (id : ClassId) (initializer : Option (Function ν))

def Callable.arity : Callable ν → Nat
  | .native f => f.arity
  | .function f => f.decl.params.length
  | .constructor _ initializer => initializer.elim 0 (·.decl.params.length)

/-- What a value calls, if it can be called. -/
def Callable.of? (s : State ν) : Value → Option (Callable ν)
  | .native f => some (.native f)
  | .functionRef id => s.functions[id]?.map .function
  | .classRef id => some (.constructor id (s.method? id "init"))
  | _ => none

/-- How a step ends. -/
inductive Result (ν α : Type) where
  | done (value : α) (s : State ν)
  | failed (error : Error) (s : State ν)
  | outOfFuel

/-- A step of the evaluator. -/
def Run (ν α : Type) := State ν → Result ν α

namespace Run

protected def pure (a : α) : Run ν α := fun s => .done a s

protected def bind (x : Run ν α) (f : α → Run ν β) : Run ν β := fun s =>
  match x s with
  | .done a s => f a s
  | .failed e s => .failed e s
  | .outOfFuel => .outOfFuel

instance : Monad (Run ν) where
  pure := Run.pure
  bind := Run.bind

def outOfFuel : Run ν α := fun _ => .outOfFuel

def throwAt (t : Token) (cause : Fault) : Run ν α := fun s => .failed ⟨t, cause⟩ s

def liftAt (t : Token) : Except RuntimeFault α → Run ν α
  | .ok a => pure a
  | .error cause => throwAt t (.runtime cause)

def read (f : State ν → α) : Run ν α := fun s => .done (f s) s

def update (f : State ν → α × State ν) : Run ν α := fun s => .done (f s).1 (f s).2

/-- Runs a step with other local names in scope, and puts the old ones back however it ends. -/
def inScope (names : Names) (x : Run ν α) : Run ν α := fun s =>
  match x { s with names, isLocal := true } with
  | .done a s' => .done a { s' with names := s.names, isLocal := s.isLocal }
  | .failed e s' => .failed e { s' with names := s.names, isLocal := s.isLocal }
  | .outOfFuel => .outOfFuel

/-- Runs a step one call deeper. -/
def deeper (x : Run ν α) : Run ν α := fun s =>
  match x { s with depth := s.depth + 1 } with
  | .done a s => .done a { s with depth := s.depth - 1 }
  | .failed e s => .failed e { s with depth := s.depth - 1 }
  | .outOfFuel => .outOfFuel

def readClock : Run ν Value := fun s =>
  .done (.number (s.clock.reading s.clock.taken)) { s with clock.taken := s.clock.taken + 1 }

def printLine (keyword : Token) (text : String) : Run ν Unit := fun s =>
  let (whole, output) := s.output.write (text ++ "\n").toUTF8
  if whole then .done () { s with output }
  else .failed ⟨keyword, .runtime .outputClosed⟩ { s with output }

/-! ## Names and properties -/

/-- Reads a name: from its nearest cell, or among the globals. -/
def readName (name : Token) : Run ν Value := fun s =>
  match s.names.lookup name.lexeme with
  | some c =>
    match s.cell? c with
    | some value => .done value s
    | none => .failed ⟨name, .uninitialised name.lexeme⟩ s
  | none =>
    match s.globals.get? name.lexeme with
    | some value => .done value s
    | none => .failed ⟨name, .runtime (.undefinedVariable name.lexeme)⟩ s

/-- Writes a name: to its nearest cell, unless that is still empty, or among the globals. -/
def assignName (name : Token) (value : Value) : Run ν Unit := fun s =>
  match s.names.lookup name.lexeme with
  | some c =>
    if (s.cell? c).isSome then .done () { s with cells := s.cells.setIfInBounds c (some value) }
    else .failed ⟨name, .uninitialised name.lexeme⟩ s
  | none =>
    if s.globals.contains name.lexeme then
      .done () { s with globals := s.globals.insert name.lexeme value }
    else .failed ⟨name, .runtime (.undefinedVariable name.lexeme)⟩ s

def newFunction (f : Function ν) : Run ν Value :=
  update fun s => (.functionRef s.functions.size, { s with functions := s.functions.push f })

/-- The method of an object, bound to it, as a value. -/
def boundMethod (f : Function ν) (object : ObjectId) : Run ν Value := do
  newFunction (← update (·.bindMethod f object))

/-- Reads a property: a field, or behind the fields a method, bound to its object. -/
def getProperty (object : ObjectId) (name : Token) : Run ν Value := do
  match ← read (·.objects[object]?) with
  | none => throwAt name (.runtime (.undefinedProperty name.lexeme))
  | some o =>
    match o.fields.get? name.lexeme with
    | some value => pure value
    | none =>
      match ← read (·.method? o.classId name.lexeme) with
      | some f => boundMethod f object
      | none => throwAt name (.runtime (.undefinedProperty name.lexeme))

def setField (object : ObjectId) (name : String) (value : Value) : Run ν Unit :=
  update fun s => ((), { s with
    objects := s.objects.modify object fun o => { o with fields := o.fields.insert name value } })

/-- The superclass method that `super` names, bound to what `this` names. -/
def superMethod (keyword method : Token) : Run ν Value := do
  match ← read (·.names.lookup keyword.lexeme) with
  | none => throwAt keyword (.runtime .superOutsideClass)
  | some _ =>
    match ← readName keyword with
    | .classRef parent =>
      match ← readName (.ident "this" keyword.line) with
      | .objectRef object =>
        match ← read (·.method? parent method.lexeme) with
        | some f => boundMethod f object
        | none => throwAt method (.runtime (.undefinedProperty method.lexeme))
      | _ => throwAt keyword (.runtime .noProperties)
    | _ => throwAt keyword (.runtime .superclassNotClass)

/-! ## Declarations -/

/-- Declares a local variable. Its cell is in scope, and empty, while its initializer runs. -/
def initialise (name : String) (value : Run ν Value) : Run ν Unit := do
  let c ← read (·.cells.size)
  let names ← update fun s => s.addCell name none s.names
  let v ← inScope names value
  update fun s => ((), { s with cells := s.cells.setIfInBounds c (some v), names })

/-- Declares a function, which sees its own name. -/
def declareFunction (decl : FunDecl (Stmt ν)) : Run ν Unit :=
  update fun s =>
    let s := s.declare decl.name.lexeme (.functionRef s.functions.size)
    ((), { s with functions := s.functions.push ⟨decl, s.names, false⟩ })

/-- The names that the methods of a class see: with a superclass, `super` is the nearest of them. -/
def classNames (s : State ν) : Option ClassId → Names × State ν
  | some parent => s.addCell "super" (some (.classRef parent)) s.names
  | none => (s.names, s)

/-- The methods of a class; of two with one name the later counts. -/
def methodTable (names : Names) (methods : List (FunDecl (Stmt ν))) : Table (Function ν) :=
  Table.empty.insertAll
    (methods.map fun m => (m.name.lexeme, ⟨m, names, m.name.lexeme = "init"⟩))

/-- Declares a class, whose methods see its name. -/
def declareClass (name : Token) (superclass : Option ClassId) (methods : List (FunDecl (Stmt ν))) :
    Run ν Unit :=
  update fun s =>
    let s := s.declare name.lexeme (.classRef s.classes.size)
    let (names, s) := classNames s superclass
    ((), { s with classes := s.classes.push ⟨name.lexeme, superclass, methodTable names methods⟩ })

/-! ## Evaluation -/

mutual

/-- The value of an expression. -/
def eval : Nat → Expr ν → Run ν Value
  | 0, _ => outOfFuel
  | n + 1, .assign _ name value => do
    let v ← eval n value
    assignName name v
    return v
  | n + 1, .binary left operator right => do
    let a ← eval n left
    let b ← eval n right
    liftAt operator (Exec.applyBinary operator.kind a b)
  | n + 1, .call callee paren arguments => do
    let f ← eval n callee
    let args ← evalAll n arguments
    invoke n paren f args
  | n + 1, .get object name => do
    match ← eval n object with
    | .objectRef id => getProperty id name
    | _ => throwAt name (.runtime .noProperties)
  | n + 1, .grouping inner => eval n inner
  | _ + 1, .literal value => pure (.ofLiteral value)
  | n + 1, .logical left operator right => do
    let a ← eval n left
    if a.truthy = operator.is .orKw then return a
    eval n right
  | n + 1, .set object name value => do
    match ← eval n object with
    | .objectRef id =>
      let v ← eval n value
      setField id name.lexeme v
      return v
    | _ => throwAt name (.runtime .noFields)
  | _ + 1, .superRef _ keyword method => superMethod keyword method
  | _ + 1, .thisRef _ keyword => readName keyword
  | n + 1, .unary operator right => do
    let a ← eval n right
    liftAt operator (Exec.applyUnary operator.kind a)
  | _ + 1, .variable _ name => readName name

def evalAll : Nat → List (Expr ν) → Run ν (List Value)
  | 0, _ => outOfFuel
  | _ + 1, [] => pure []
  | n + 1, e :: es => do
    let v ← eval n e
    let vs ← evalAll n es
    return v :: vs

/-- Calls a value. -/
def invoke : Nat → Token → Value → List Value → Run ν Value
  | 0, _, _, _ => outOfFuel
  | n + 1, paren, callee, args => do
    match ← read (Callable.of? · callee) with
    | none => throwAt paren (.runtime .notCallable)
    | some f =>
      if args.length ≠ f.arity then throwAt paren (.runtime (.wrongArity f.arity args.length))
      else if maxCallDepth ≤ (← read (·.depth)) then throwAt paren (.runtime .stackOverflow)
      else deeper (apply n f args)

def apply : Nat → Callable ν → List Value → Run ν Value
  | 0, _, _ => outOfFuel
  | _ + 1, .native .clock, _ => readClock
  | n + 1, .function f, args => applyFunction n f args
  | n + 1, .constructor id initializer, args => do
    let object ← update fun s => (s.objects.size, { s with objects := s.objects.push ⟨id, {}⟩ })
    match initializer with
    | some f =>
      let bound ← update (·.bindMethod f object)
      let _ ← applyFunction n bound args
    | none => pure ()
    return .objectRef object

/-- Runs the body of a function with its parameters in front of the names it was declared under. An
initializer gives what `this` names there. -/
def applyFunction : Nat → Function ν → List Value → Run ν Value
  | 0, _, _ => outOfFuel
  | n + 1, f, args => do
    let names ← update (·.addCells ((f.decl.params.map Token.lexeme).zip args) f.names)
    let flow ← inScope names (execAll n f.decl.body)
    if f.isInitializer then inScope f.names (readName (.ident "this" f.decl.name.line))
    else return flow.value

/-- Executes a statement. -/
def exec : Nat → Stmt ν → Run ν Flow
  | 0, _ => outOfFuel
  | n + 1, .block body => do inScope (← read (·.names)) (execAll n body)
  | n + 1, .classDecl name parent methods => do
    let superclass ← match parent with
      | some e => do
        match ← eval n e with
        | .classRef id => pure (some id)
        | _ => throwAt (Exec.superclassToken name e) (.runtime .superclassNotClass)
      | none => pure none
    declareClass name superclass methods
    return .normal
  | n + 1, .expression e => do
    let _ ← eval n e
    return .normal
  | _ + 1, .function decl => do
    declareFunction decl
    return .normal
  | n + 1, .conditional condition thenBranch elseBranch => do
    if (← eval n condition).truthy then exec n thenBranch
    else match elseBranch with
      | some s => exec n s
      | none => return .normal
  | n + 1, .print keyword value => do
    let v ← eval n value
    printLine keyword (← read (·.text v))
    return .normal
  | _ + 1, .returning _ none => return .returned .nil
  | n + 1, .returning _ (some value) => do return .returned (← eval n value)
  | _ + 1, .varDecl name none => do
    update fun s => ((), s.declare name.lexeme .nil)
    return .normal
  | n + 1, .varDecl name (some value) => do
    if ← read (·.isLocal) then initialise name.lexeme (eval n value)
    else
      let v ← eval n value
      update fun s => ((), s.declare name.lexeme v)
    return .normal
  | n + 1, .loop condition body => do
    if (← eval n condition).truthy then
      match ← exec n body with
      | .normal => exec n (.loop condition body)
      | .returned value => return .returned value
    else return .normal

def execAll : Nat → List (Stmt ν) → Run ν Flow
  | 0, _ => outOfFuel
  | _ + 1, [] => return .normal
  | n + 1, s :: rest => do
    match ← exec n s with
    | .normal => execAll n rest
    | .returned value => return .returned value

end

/-- Runs a program: every statement in order, up to the first error. -/
def interpret (fuel : Nat) : List (Stmt ν) → Run ν Unit
  | [] => pure ()
  | s :: rest => do
    let _ ← exec fuel s
    interpret fuel rest

end Run

end Lox.Lexical
