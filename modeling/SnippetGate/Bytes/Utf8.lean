import SnippetGate.Text.Basic

/-!
# Bytes of a text

Texts as UTF-8 bytes, and back. Reading is strict or lenient: a lenient reader puts a replacement
character for each longest beginning of a character that is never completed, and for each byte
that begins none.
-/

namespace SnippetGate

/-- A list of bytes. -/
abbrev Bytes := List UInt8

namespace Bytes

/-- The bytes of a text. -/
def ofText (t : Text) : Bytes := t.flatMap String.utf8EncodeChar

/-- The bytes that may follow the first byte of a character, in order, as closed ranges. A byte
that begins no character of several bytes has none. -/
def followers (b : UInt8) : List (UInt8 × UInt8) :=
  if 0xC2 ≤ b && b ≤ 0xDF then [(0x80, 0xBF)]
  else if b == 0xE0 then [(0xA0, 0xBF), (0x80, 0xBF)]
  else if b == 0xED then [(0x80, 0x9F), (0x80, 0xBF)]
  else if 0xE1 ≤ b && b ≤ 0xEF then [(0x80, 0xBF), (0x80, 0xBF)]
  else if b == 0xF0 then [(0x90, 0xBF), (0x80, 0xBF), (0x80, 0xBF)]
  else if 0xF1 ≤ b && b ≤ 0xF3 then [(0x80, 0xBF), (0x80, 0xBF), (0x80, 0xBF)]
  else if b == 0xF4 then [(0x80, 0x8F), (0x80, 0xBF), (0x80, 0xBF)]
  else []

/-- The bytes at the beginning of a list that lie in the given ranges, one for each. -/
def following : List (UInt8 × UInt8) → Bytes → Bytes
  | r :: rs, b :: bs => if r.1 ≤ b && b ≤ r.2 then b :: following rs bs else []
  | _, _ => []

/-- The bits that the first byte of a character adds. -/
def leadBits (b : UInt8) : Nat :=
  if b < 0xE0 then b.toNat - 0xC0 else if b < 0xF0 then b.toNat - 0xE0 else b.toNat - 0xF0

/-- The character that begins with byte `b`, before the bytes `bs`, if it is complete, and the
number of its bytes after the first. -/
def character (b : UInt8) (bs : Bytes) : Option Char × Nat :=
  if b < 0x80 then (some (Char.ofNat b.toNat), 0)
  else
    let ranges := followers b
    let rest := following ranges bs
    if ranges.isEmpty || rest.length < ranges.length then (none, rest.length)
    else
      (some (Char.ofNat (rest.foldl (fun n x => 64 * n + (x.toNat - 0x80)) (leadBits b))),
        rest.length)

/-- The characters of bytes, after leaving out `skip` bytes that belong to one already read.
Nothing stands for a character that is not complete. -/
def charactersFrom : Nat → Bytes → List (Option Char)
  | _, [] => []
  | skip + 1, _ :: bs => charactersFrom skip bs
  | 0, b :: bs =>
    let (c, n) := character b bs
    c :: charactersFrom n bs

/-- The text of bytes, read leniently. -/
def toText (bs : Bytes) : Text := (charactersFrom 0 bs).map fun c => c.getD '\uFFFD'

/-- The text of bytes, unless something in them is no character. -/
def toText? (bs : Bytes) : Option Text := (charactersFrom 0 bs).mapM id

/-- The bytes from offset `i` up to, not including, offset `j`. -/
def slice (bs : Bytes) (i j : Nat) : Bytes := (bs.take j).drop i

end Bytes

end SnippetGate
