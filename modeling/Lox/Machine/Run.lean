import Lox.Machine.Basic

/-!
# Running programs

What expressions evaluate to and what statements do. The functions take the binding distances as a
function of the marks of a tree: a marked node with a distance is looked up that many frames out, one
without is global. Recursion is bounded by fuel, which every call uses up by one.
-/

namespace Lox

/-- How a statement ends: it falls off its end, or returns from the function around it. -/
inductive Flow where
  | normal
  | returned (value : Value)
deriving DecidableEq, Repr

/-- The value of a call whose body ended so. -/
def Flow.value : Flow → Value
  | .normal => .nil
  | .returned value => value

/-- Something that can be called. -/
inductive Callable (ν : Type) where
  | native (f : Native)
  | function (f : Function ν)
  /-- A class and its initializer, its own or inherited. -/
  | constructor (id : ClassId) (initializer : Option (Function ν))

namespace Callable

def arity : Callable ν → Nat
  | .native f => f.arity
  | .function f => f.arity
  | .constructor _ initializer => initializer.elim 0 Function.arity

/-- What a value calls, if it can be called. -/
def of? (s : Store ν) : Value → Option (Callable ν)
  | .native f => some (.native f)
  | .functionRef id => s.functions[id]?.map .function
  | .classRef id => some (.constructor id (s.method? id "init"))
  | _ => none

end Callable

/-- The binding distance of each mark. -/
abbrev Distances (ν : Type) := ν → Option Nat

namespace Exec

/-! ## Operators -/

def negate : Value → Except RuntimeFault Value
  | .number x => .ok (.number (-x))
  | _ => .error .operandNotNumber

def applyUnary (operator : Kind) (a : Value) : Except RuntimeFault Value :=
  match operator with
  | .symbol .minus => negate a
  | .symbol .bang => .ok (.bool !a.truthy)
  | _ => .error .unaryOperator

def add : Value → Value → Except RuntimeFault Value
  | .number x, .number y => .ok (.number (x + y))
  | .string a, .string b => .ok (.string (a ++ b))
  | _, _ => .error .operandsNotAddable

/-- An operator on two numbers. -/
def arithmetic (operator : Kind) (x y : Float) : Except RuntimeFault Value :=
  match operator with
  | .symbol .minus => .ok (.number (x - y))
  | .symbol .star => .ok (.number (x * y))
  | .symbol .slash => .ok (.number (x / y))
  | .symbol .greater => .ok (.bool (x > y))
  | .symbol .greaterEqual => .ok (.bool (x ≥ y))
  | .symbol .less => .ok (.bool (x < y))
  | .symbol .lessEqual => .ok (.bool (x ≤ y))
  | _ => .error .binaryOperator

def applyBinary (operator : Kind) (a b : Value) : Except RuntimeFault Value :=
  match operator with
  | .symbol .plus => add a b
  | .symbol .equalEqual => .ok (.bool (a.equals b))
  | .symbol .bangEqual => .ok (.bool !(a.equals b))
  | operator =>
    match a, b with
    | .number x, .number y => arithmetic operator x y
    | _, _ => .error .operandsNotNumbers

/-! ## Names and properties -/

/-- Reads a name: at its distance from the current frame, or among the globals. -/
def readName (distance : Option Nat) (name : Token) : Exec ν Value := do
  let frames ← read (·.store.frames)
  match distance with
  | some d => liftAt name (frames.getAt (← read (·.env)) d name.lexeme)
  | none => liftAt name (frames.get globalFrame name.lexeme)

/-- Writes a name: at its distance from the current frame, or among the globals. -/
def assignName (distance : Option Nat) (name : Token) (value : Value) : Exec ν Unit := do
  let env ← read (·.env)
  match distance with
  | some d => assignIn name (·.locateAt env d name.lexeme) value
  | none => assignIn name (·.locate globalFrame name.lexeme) value

/-- Reads a property; a method comes bound to its object. -/
def getProperty (object : ObjectId) (name : Token) : Exec ν Value := do
  match ← read (·.store.property object name.lexeme) with
  | .field value => pure value
  | .method f => newFunction (← bindMethod f object)
  | .missing => throwAt name (.undefinedProperty name.lexeme)

/-- The superclass method that `super` names, bound to the object of the running method. The frame
with `this` lies just inside the one with `super`. -/
def superMethod (distance : Option Nat) (keyword method : Token) : Exec ν Value := do
  match distance with
  | none => throwAt keyword .superOutsideClass
  | some d =>
    let env ← read (·.env)
    let frames ← read (·.store.frames)
    match ← liftAt keyword (frames.getAt env d keyword.lexeme) with
    | .classRef parent =>
      match ← liftAt (.ident "this" keyword.line) (frames.getAt env (d - 1) "this") with
      | .objectRef object =>
        match ← read (·.store.method? parent method.lexeme) with
        | some f => newFunction (← bindMethod f object)
        | none => throwAt method (.undefinedProperty method.lexeme)
      | _ => throwAt keyword .noProperties
    | _ => throwAt keyword .superclassNotClass

/-! ## Classes -/

/-- The token to blame for a superclass that is no class. -/
def superclassToken (name : Token) : Expr ν → Token
  | .variable _ parent => parent
  | _ => name

/-- The methods of a class; of two with one name the later counts. -/
def methodTable (closure : FrameId) (methods : List (FunDecl (Stmt ν))) : Table (Function ν) :=
  Table.empty.insertAll
    (methods.map fun m => (m.name.lexeme, ⟨m, closure, m.name.lexeme = "init"⟩))

/-- Declares a class in the current frame. Its methods close over that frame, or over a frame inside
it that holds `super`. -/
def declareClass (name : Token) (superclass : Option ClassId) (methods : List (FunDecl (Stmt ν))) :
    Exec ν Unit := do
  define name.lexeme .nil
  let env ← read (·.env)
  let closure ← match superclass with
    | some parent => newFrame env (Table.empty.insert "super" (.classRef parent))
    | none => pure env
  let id ← updateStore (·.addClass ⟨name.lexeme, superclass, methodTable closure methods⟩)
  assignIn name (·.locate env name.lexeme) (.classRef id)

/-! ## Evaluation -/

mutual

/-- The value of an expression. -/
def eval (d : Distances ν) : Nat → Expr ν → Exec ν Value
  | 0, _ => outOfFuel
  | n + 1, .assign mark name value => do
    let v ← eval d n value
    assignName (d mark) name v
    return v
  | n + 1, .binary left operator right => do
    let a ← eval d n left
    let b ← eval d n right
    liftAt operator (applyBinary operator.kind a b)
  | n + 1, .call callee paren arguments => do
    let f ← eval d n callee
    let args ← evalAll d n arguments
    invoke d n paren f args
  | n + 1, .get object name => do
    match ← eval d n object with
    | .objectRef id => getProperty id name
    | _ => throwAt name .noProperties
  | n + 1, .grouping inner => eval d n inner
  | _ + 1, .literal value => pure (.ofLiteral value)
  | n + 1, .logical left operator right => do
    let a ← eval d n left
    if a.truthy = operator.is .orKw then return a
    eval d n right
  | n + 1, .set object name value => do
    match ← eval d n object with
    | .objectRef id =>
      let v ← eval d n value
      updateStore fun s => ((), s.setField id name.lexeme v)
      return v
    | _ => throwAt name .noFields
  | _ + 1, .superRef mark keyword method => superMethod (d mark) keyword method
  | _ + 1, .thisRef mark keyword => readName (d mark) keyword
  | n + 1, .unary operator right => do
    let a ← eval d n right
    liftAt operator (applyUnary operator.kind a)
  | _ + 1, .variable mark name => readName (d mark) name

/-- The values of expressions, from left to right. -/
def evalAll (d : Distances ν) : Nat → List (Expr ν) → Exec ν (List Value)
  | 0, _ => outOfFuel
  | _ + 1, [] => pure []
  | n + 1, e :: es => do
    let v ← eval d n e
    let vs ← evalAll d n es
    return v :: vs

/-- Calls a value. The closing parenthesis is to blame if it cannot be called, if the number of
arguments is wrong, or if calls nest too deep, checked in this order. -/
def invoke (d : Distances ν) : Nat → Token → Value → List Value → Exec ν Value
  | 0, _, _, _ => outOfFuel
  | n + 1, paren, callee, args => do
    match ← read (Callable.of? ·.store callee) with
    | none => throwAt paren .notCallable
    | some f =>
      if args.length ≠ f.arity then throwAt paren (.wrongArity f.arity args.length)
      else if maxCallDepth ≤ (← read (·.depth)) then throwAt paren .stackOverflow
      else deeper (apply d n f args)

/-- The result of a call. Constructing an object runs its initializer and gives the object, whatever
the initializer returns. -/
def apply (d : Distances ν) : Nat → Callable ν → List Value → Exec ν Value
  | 0, _, _ => outOfFuel
  | _ + 1, .native .clock, _ => readClock
  | n + 1, .function f, args => applyFunction d n f args
  | n + 1, .constructor id initializer, args => do
    let object ← updateStore (·.addObject ⟨id, {}⟩)
    match initializer with
    | some f =>
      let bound ← bindMethod f object
      let _ ← applyFunction d n bound args
    | none => pure ()
    return .objectRef object

/-- Runs the body of a function in a fresh frame that holds its parameters. An initializer gives the
object it is bound to, however its body ends. -/
def applyFunction (d : Distances ν) : Nat → Function ν → List Value → Exec ν Value
  | 0, _, _ => outOfFuel
  | n + 1, f, args => do
    let names := Table.empty.insertAll ((f.decl.params.map Token.lexeme).zip args)
    let frame ← newFrame f.closure names
    let flow ← inFrame frame (execAll d n f.decl.body)
    if f.isInitializer then
      liftAt (.ident "this" f.decl.name.line)
        ((← read (·.store.frames)).getAt f.closure 0 "this")
    else return flow.value

/-- Executes a statement. -/
def exec (d : Distances ν) : Nat → Stmt ν → Exec ν Flow
  | 0, _ => outOfFuel
  | n + 1, .block body => do
    let frame ← newFrame (← read (·.env)) {}
    inFrame frame (execAll d n body)
  | n + 1, .classDecl name parent methods => do
    let superclass ← match parent with
      | some e => do
        match ← eval d n e with
        | .classRef id => pure (some id)
        | _ => throwAt (superclassToken name e) .superclassNotClass
      | none => pure none
    declareClass name superclass methods
    return .normal
  | n + 1, .expression e => do
    let _ ← eval d n e
    return .normal
  | _ + 1, .function decl => do
    let f ← newFunction ⟨decl, ← read (·.env), false⟩
    define decl.name.lexeme f
    return .normal
  | n + 1, .conditional condition thenBranch elseBranch => do
    if (← eval d n condition).truthy then exec d n thenBranch
    else match elseBranch with
      | some s => exec d n s
      | none => return .normal
  | n + 1, .print keyword value => do
    let v ← eval d n value
    printLine keyword (← read (·.store.text v))
    return .normal
  | _ + 1, .returning _ none => return .returned .nil
  | n + 1, .returning _ (some value) => do return .returned (← eval d n value)
  | _ + 1, .varDecl name none => do
    define name.lexeme .nil
    return .normal
  | n + 1, .varDecl name (some value) => do
    define name.lexeme (← eval d n value)
    return .normal
  | n + 1, .loop condition body => do
    if (← eval d n condition).truthy then
      match ← exec d n body with
      | .normal => exec d n (.loop condition body)
      | .returned value => return .returned value
    else return .normal

/-- Executes statements in order, up to the first that returns. -/
def execAll (d : Distances ν) : Nat → List (Stmt ν) → Exec ν Flow
  | 0, _ => outOfFuel
  | _ + 1, [] => return .normal
  | n + 1, s :: rest => do
    match ← exec d n s with
    | .normal => execAll d n rest
    | .returned value => return .returned value

end

/-- Runs a program: every statement in order, up to the first error. What a statement returns at the
top level is dropped. -/
def interpret (d : Distances ν) (fuel : Nat) : List (Stmt ν) → Exec ν Unit
  | [] => pure ()
  | s :: rest => do
    let _ ← exec d fuel s
    interpret d fuel rest

end Exec

end Lox
