import Lox.Tree.Basic

/-!
# Binding distances

For each node that names a local binding, how many scopes out the binding lies. A node without an
entry names a global. Entries are indexed by node identity; the main statement is `find?_record`.
-/

namespace Lox

/-- The recorded distances, by node identity. -/
structure Bindings where
  cells : Array (Option Nat) := #[]
deriving DecidableEq, Repr, Inhabited

namespace Bindings

def empty : Bindings := {}

/-- The distance recorded for a node. -/
def find? (b : Bindings) (id : NodeId) : Option Nat := b.cells.getD id none

/-- Records a distance, in place of any older one. -/
def record (b : Bindings) (id : NodeId) (distance : Nat) : Bindings :=
  if id < b.cells.size then ⟨b.cells.setIfInBounds id (some distance)⟩
  else ⟨(b.cells ++ Array.replicate (id - b.cells.size) none).push (some distance)⟩

@[simp] theorem find?_empty (id : NodeId) : empty.find? id = none := by
  simp [find?, empty]

/-- Recording sets the distance of one node and leaves every other node alone. -/
@[simp] theorem find?_record (b : Bindings) (id other : NodeId) (distance : Nat) :
    (b.record id distance).find? other = if other = id then some distance else b.find? other := by
  unfold record find?
  split
  · simp only [Array.getD_eq_getD_getElem?, Array.getElem?_setIfInBounds]
    grind
  · simp only [Array.getD_eq_getD_getElem?, Array.getElem?_push, Array.getElem?_append,
      Array.getElem?_replicate, Array.size_append, Array.size_replicate]
    grind

end Bindings

end Lox
