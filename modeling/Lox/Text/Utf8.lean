/-!
# UTF-8

Decoding of bytes, character by character. `Head.of` reads one character and tells an ill-formed
sequence from one that the input merely cuts short; `decode` stops at the first fault and says where
and how wide it is, `decodeLossy` puts a replacement character in its place and goes on.
-/

namespace Lox.Text

/-- What stands at the head of a byte sequence. -/
inductive Head where
  /-- A whole character and the bytes after it. -/
  | char (c : Char) (rest : List UInt8)
  /-- An ill-formed sequence: its first `width` bytes begin a character and the next one breaks it. -/
  | broken (width : Nat)
  /-- The input ends inside a character that is well-formed so far. -/
  | cut
deriving DecidableEq, Repr

/-- What a first byte promises: its payload bits, how many bytes follow, and the range of the first
of them. The range excludes overlong forms, surrogates and values above U+10FFFF. -/
structure Lead where
  payload : Nat
  more    : Nat
  low     : Nat
  high    : Nat
deriving DecidableEq, Repr

/-- The promise of a first byte outside ASCII, if it can start a character. -/
def Lead.of? (b : Nat) : Option Lead :=
  if 0xC2 ≤ b ∧ b ≤ 0xDF then some ⟨b - 0xC0, 1, 0x80, 0xBF⟩
  else if b = 0xE0 then some ⟨0, 2, 0xA0, 0xBF⟩
  else if b = 0xED then some ⟨0xD, 2, 0x80, 0x9F⟩
  else if 0xE1 ≤ b ∧ b ≤ 0xEF then some ⟨b - 0xE0, 2, 0x80, 0xBF⟩
  else if b = 0xF0 then some ⟨0, 3, 0x90, 0xBF⟩
  else if b = 0xF4 then some ⟨4, 3, 0x80, 0x8F⟩
  else if 0xF1 ≤ b ∧ b ≤ 0xF3 then some ⟨b - 0xF0, 3, 0x80, 0xBF⟩
  else none

/-- Reads the `more` bytes that continue a character of which `width` bytes gave `payload`. -/
def Head.follow (payload width : Nat) : Nat → Nat → Nat → List UInt8 → Head
  | 0, _, _, rest => .char (Char.ofNat payload) rest
  | _ + 1, _, _, [] => .cut
  | more + 1, low, high, b :: rest =>
    if low ≤ b.toNat ∧ b.toNat ≤ high then
      Head.follow (payload * 64 + b.toNat % 64) (width + 1) more 0x80 0xBF rest
    else .broken width

/-- Reads one character from a non-empty sequence. -/
def Head.of (b : UInt8) (rest : List UInt8) : Head :=
  if b.toNat < 0x80 then .char (Char.ofNat b.toNat) rest
  else match Lead.of? b.toNat with
    | some l => Head.follow l.payload 1 l.more l.low l.high rest
    | none => .broken 1

theorem Head.follow_rest {payload width more low high : Nat} {bs rest : List UInt8} {c : Char}
    (h : Head.follow payload width more low high bs = .char c rest) : rest.length ≤ bs.length := by
  fun_induction Head.follow payload width more low high bs with
  | case1 => simp_all
  | case2 => simp at h
  | case3 _ _ _ _ _ _ _ _ ih => exact Nat.le_succ_of_le (ih h)
  | case4 => simp at h

/-- A character takes at least one byte. -/
theorem Head.of_rest {b : UInt8} {bs rest : List UInt8} {c : Char} (h : Head.of b bs = .char c rest) :
    rest.length ≤ bs.length := by
  unfold Head.of at h
  split at h
  · simp_all
  · split at h
    · exact Head.follow_rest h
    · simp at h

/-- Why bytes are not UTF-8. -/
inductive DecodeFault where
  | illFormed (width index : Nat)
  | incomplete (index : Nat)
deriving DecidableEq, Repr

def DecodeFault.message : DecodeFault → String
  | .illFormed width index => s!"invalid utf-8 sequence of {width} bytes from index {index}"
  | .incomplete index => s!"incomplete utf-8 byte sequence from index {index}"

/-- The characters of a byte sequence that starts at `index`, after those in `done`, last first. -/
def decodeFrom (index : Nat) (done : List Char) (bs : List UInt8) :
    Except DecodeFault (List Char) :=
  match bs with
  | [] => .ok done.reverse
  | b :: bs =>
    match h : Head.of b bs with
    | .char c rest =>
      have := Head.of_rest h
      decodeFrom (index + (1 + bs.length - rest.length)) (c :: done) rest
    | .broken width => .error (.illFormed width index)
    | .cut => .error (.incomplete index)
termination_by bs.length

/-- The text that the bytes spell. -/
def decode (bytes : ByteArray) : Except DecodeFault String :=
  (decodeFrom 0 [] bytes.toList).map String.ofList

/-- The character that stands for a fault. -/
def replacement : Char := Char.ofNat 0xFFFD

/-- The characters of a byte sequence, each fault replaced, after those in `done`, last first. -/
def decodeLossyFrom (done : List Char) (bs : List UInt8) : List Char :=
  match bs with
  | [] => done.reverse
  | b :: bs =>
    match h : Head.of b bs with
    | .char c rest =>
      have := Head.of_rest h
      decodeLossyFrom (c :: done) rest
    | .broken width => decodeLossyFrom (replacement :: done) (bs.drop (width - 1))
    | .cut => (replacement :: done).reverse
termination_by bs.length
decreasing_by all_goals simp only [List.length_cons, List.length_drop]; omega

/-- The text that the bytes spell, with a replacement character for each fault. -/
def decodeLossy (bytes : ByteArray) : String :=
  String.ofList (decodeLossyFrom [] bytes.toList)

end Lox.Text
