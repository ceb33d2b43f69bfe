import Lox.Machine.Fault
import Lox.Machine.Value
import Lox.Table

/-!
# Frames

The scopes of a running program. A frame holds the names of one scope and a link to the frame around
it; frames are shared, so a write through one reference is seen through all. A name is found either
by search, nearest frame first (`get`, `assign`), or at a known distance (`getAt`, `assignAt`).
-/

namespace Lox

structure Frame where
  names     : Table Value := {}
  enclosing : Option FrameId := none
deriving DecidableEq, Repr, Inhabited

/-- All frames ever made, by number. -/
structure Frames where
  cells : Array Frame := #[]
deriving DecidableEq, Repr, Inhabited

namespace Frames

def empty : Frames := {}

/-- Makes a frame and gives its number. -/
def add (s : Frames) (frame : Frame) : FrameId × Frames := (s.cells.size, ⟨s.cells.push frame⟩)

/-- The value of a name in one frame. -/
def lookup? (s : Frames) (f : FrameId) (name : String) : Option Value :=
  s.cells[f]?.bind (·.names.get? name)

/-- Whether a frame itself holds a name. -/
def contains (s : Frames) (f : FrameId) (name : String) : Bool := (s.lookup? f name).isSome

/-- Writes a name in one frame, whether or not it is there. -/
def define (s : Frames) (f : FrameId) (name : String) (value : Value) : Frames :=
  ⟨s.cells.modify f fun frame => { frame with names := frame.names.insert name value }⟩

def enclosing? (s : Frames) (f : FrameId) : Option FrameId := s.cells[f]?.bind (·.enclosing)

/-- The frame exactly `distance` links out. -/
def ancestor? (s : Frames) : Nat → FrameId → Option FrameId
  | 0, f => some f
  | distance + 1, f => (s.enclosing? f).bind (s.ancestor? distance)

/-- A definition shows in its own frame and under its own name only. -/
theorem lookup?_define (s : Frames) (f g : FrameId) (name other : String) (value : Value) :
    (s.define f name value).lookup? g other =
      if g = f ∧ other = name ∧ f < s.cells.size then some value else s.lookup? g other := by
  simp only [lookup?, define, Array.getElem?_modify]
  grind [Table.get?_insert]

@[simp] theorem enclosing?_define (s : Frames) (f g : FrameId) (name : String) (value : Value) :
    (s.define f name value).enclosing? g = s.enclosing? g := by
  simp only [enclosing?, define, Array.getElem?_modify]
  grind

@[simp] theorem ancestor?_define (s : Frames) (f : FrameId) (name : String) (value : Value)
    (distance : Nat) (g : FrameId) :
    (s.define f name value).ancestor? distance g = s.ancestor? distance g := by
  induction distance generalizing g with
  | zero => rfl
  | succ d ih => simp [ancestor?, funext ih]

/-- The nearest frame that holds a name, among the first `fuel` frames of the chain. -/
def holderWithin? (s : Frames) (name : String) : Nat → FrameId → Option FrameId
  | 0, _ => none
  | fuel + 1, f =>
    if s.contains f name then some f else (s.enclosing? f).bind (s.holderWithin? name fuel)

/-- The nearest frame that holds a name. A chain is no longer than there are frames. -/
def holder? (s : Frames) (name : String) (f : FrameId) : Option FrameId :=
  s.holderWithin? name s.cells.size f

/-- Finds the frame of a name by search. -/
def locate (s : Frames) (f : FrameId) (name : String) : Except RuntimeFault FrameId :=
  match s.holder? name f with
  | some holder => .ok holder
  | none => .error (.undefinedVariable name)

/-- Finds the frame of a name at a known distance, without search. -/
def locateAt (s : Frames) (f : FrameId) (distance : Nat) (name : String) :
    Except RuntimeFault FrameId :=
  match (s.ancestor? distance f).filter (s.contains · name) with
  | some holder => .ok holder
  | none => .error (.unresolvedVariable name distance)

/-- The value of a name in a frame that holds it. -/
def valueIn (s : Frames) (name : String) (f : FrameId) : Value := (s.lookup? f name).getD .nil

/-- Reads a name by search. -/
def get (s : Frames) (f : FrameId) (name : String) : Except RuntimeFault Value :=
  (s.locate f name).map (s.valueIn name)

/-- Writes a name found by search. -/
def assign (s : Frames) (f : FrameId) (name : String) (value : Value) : Except RuntimeFault Frames :=
  (s.locate f name).map (s.define · name value)

/-- Reads a name at a known distance. -/
def getAt (s : Frames) (f : FrameId) (distance : Nat) (name : String) : Except RuntimeFault Value :=
  (s.locateAt f distance name).map (s.valueIn name)

/-- Writes a name at a known distance. -/
def assignAt (s : Frames) (f : FrameId) (distance : Nat) (name : String) (value : Value) :
    Except RuntimeFault Frames :=
  (s.locateAt f distance name).map (s.define · name value)

end Frames

end Lox
