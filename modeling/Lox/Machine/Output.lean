/-!
# Output

The bytes that a program has printed. An output may close after a number of bytes: it then takes the
bytes that still fit and refuses the rest.
-/

namespace Lox

structure Output where
  written : ByteArray := .empty
  /-- How many bytes are taken in all; `none` for no limit. -/
  limit   : Option Nat := none
deriving Inhabited

namespace Output

/-- How many of `size` further bytes are taken. -/
def room (o : Output) (size : Nat) : Nat :=
  match o.limit with
  | none => size
  | some limit => min size (limit - o.written.size)

/-- Writes as many bytes as fit, and tells whether all did. -/
def write (o : Output) (bytes : ByteArray) : Bool × Output :=
  let taken := o.room bytes.size
  (taken = bytes.size, { o with written := o.written ++ bytes.extract 0 taken })

/-- Without a limit all bytes are taken. -/
theorem write_of_limit_none (o : Output) (bytes : ByteArray) (h : o.limit = none) :
    o.write bytes = (true, { o with written := o.written ++ bytes }) := by
  simp [write, room, h]

end Output

end Lox
