import Lox.Machine.Output
import Lox.Machine.Store

/-!
# The machine

The whole state of a running program, and the steps that change it. A step finishes with a value,
fails with an error, or runs out of fuel; the first two leave a machine behind. `inFrame` and
`deeper` change the current frame and the call depth for the length of a step and put them back
however it ends.
-/

namespace Lox

/-- The readings that the clock gives, one after another, and how many were taken. -/
structure Clock where
  reading : Nat → Float
  taken   : Nat := 0

structure Machine (ν : Type) where
  store  : Store ν := {}
  /-- The current frame. -/
  env    : FrameId
  /-- How many calls are open. -/
  depth  : Nat := 0
  output : Output := {}
  clock  : Clock

/-- The deepest nesting of calls. -/
def maxCallDepth : Nat := 4096

/-- The frame of the global names. -/
def globalFrame : FrameId := 0

namespace Machine

/-- The frame that every program starts with. -/
def firstFrame : Frame := ⟨Table.empty.insert Native.clock.name (.native .clock), none⟩

/-- A machine at rest in the global frame. -/
def initial (clock : Clock) (limit : Option Nat := none) : Machine ν :=
  { store := { frames := ⟨#[firstFrame]⟩ }, env := globalFrame, output := { limit }, clock }

end Machine

/-- How a step ends. -/
inductive Result (ν α : Type) where
  | done (value : α) (m : Machine ν)
  | failed (error : RuntimeError) (m : Machine ν)
  | outOfFuel

/-- A step of a machine. -/
def Exec (ν α : Type) := Machine ν → Result ν α

namespace Exec

@[always_inline, inline]
protected def pure (a : α) : Exec ν α := fun m => .done a m

@[always_inline, inline]
protected def bind (x : Exec ν α) (f : α → Exec ν β) : Exec ν β := fun m =>
  match x m with
  | .done a m => f a m
  | .failed e m => .failed e m
  | .outOfFuel => .outOfFuel

@[always_inline]
instance : Monad (Exec ν) where
  pure := Exec.pure
  bind := Exec.bind

def outOfFuel : Exec ν α := fun _ => .outOfFuel

/-- Stops and blames a token. -/
def throwAt (t : Token) (cause : RuntimeFault) : Exec ν α := fun m => .failed ⟨t, cause⟩ m

/-- The value of a computation that may fail, with the token to blame. -/
def liftAt (t : Token) : Except RuntimeFault α → Exec ν α
  | .ok a => pure a
  | .error cause => throwAt t cause

/-- Reads something off the machine. -/
@[always_inline, inline]
def read (f : Machine ν → α) : Exec ν α := fun m => .done (f m) m

/-- Changes the store and gives a value. -/
@[always_inline, inline]
def updateStore (f : Store ν → α × Store ν) : Exec ν α := fun m =>
  let (a, store) := f m.store
  .done a { m with store }

/-- Writes a name in the frame that `locate` finds, or fails as it does. -/
@[always_inline, inline]
def assignIn (name : Token) (locate : Frames → Except RuntimeFault FrameId) (value : Value) :
    Exec ν Unit := fun m =>
  match locate m.store.frames with
  | .ok f =>
    .done () { m with store := { m.store with frames := m.store.frames.define f name.lexeme value } }
  | .error cause => .failed ⟨name, cause⟩ m

/-- Defines a name in the current frame. -/
def define (name : String) (value : Value) : Exec ν Unit := fun m =>
  .done () { m with store := { m.store with frames := m.store.frames.define m.env name value } }

/-- Makes a frame inside another one. -/
def newFrame (enclosing : FrameId) (names : Table Value) : Exec ν FrameId :=
  updateStore (·.addFrame ⟨names, some enclosing⟩)

def newFunction (f : Function ν) : Exec ν Value :=
  updateStore fun s =>
    let (id, s) := s.addFunction f
    (.functionRef id, s)

/-- Binds a method to an object. -/
def bindMethod (method : Function ν) (this : ObjectId) : Exec ν (Function ν) :=
  updateStore (·.bindMethod method this)

/-- Runs a step with another current frame. -/
@[always_inline, inline]
def inFrame (frame : FrameId) (x : Exec ν α) : Exec ν α := fun m =>
  let previous := m.env
  match x { m with env := frame } with
  | .done a m => .done a { m with env := previous }
  | .failed e m => .failed e { m with env := previous }
  | .outOfFuel => .outOfFuel

/-- Runs a step one call deeper. -/
@[always_inline, inline]
def deeper (x : Exec ν α) : Exec ν α := fun m =>
  match x { m with depth := m.depth + 1 } with
  | .done a m => .done a { m with depth := m.depth - 1 }
  | .failed e m => .failed e { m with depth := m.depth - 1 }
  | .outOfFuel => .outOfFuel

/-- Takes a reading of the clock. -/
def readClock : Exec ν Value := fun m =>
  .done (.number (m.clock.reading m.clock.taken)) { m with clock.taken := m.clock.taken + 1 }

/-- Prints a line, or blames the keyword when the output is closed. -/
def printLine (keyword : Token) (text : String) : Exec ν Unit := fun m =>
  let (whole, output) := m.output.write (text ++ "\n").toUTF8
  if whole then .done () { m with output } else .failed ⟨keyword, .outputClosed⟩ { m with output }

end Exec

end Lox
