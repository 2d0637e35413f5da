import Asper.Base.Text
import Asper.Lib.Scanner

/-! # The UTF-8 scanner

`asper_utf8_count` on the bytes of a buffer, read one at a time; `utf8Count` is its result on the
text before the terminator (`asperUtf8Count_eq`). -/

namespace Asper

open Durable (Bytes)
open Scanner

/-- The length of a sequence and the bits of the code point in its leading byte. -/
def utf8Lead (a : UInt8) : Option (Nat × Nat) :=
  if a < 0x80 then some (1, a.toNat)
  else if 0xc2 ≤ a ∧ a ≤ 0xdf then some (2, (a &&& 0x1f).toNat)
  else if 0xe0 ≤ a ∧ a ≤ 0xef then some (3, (a &&& 0x0f).toNat)
  else if 0xf0 ≤ a ∧ a ≤ 0xf4 then some (4, (a &&& 0x07).toNat)
  else none

/-- The next `k` bytes, shifted into the code point `cp`. -/
def contBytes : Nat → Nat → Scanner.Scan UInt8 Nat
  | 0, cp => pure cp
  | k + 1, cp => do
    let b ← sat isCont
    contBytes k (addCont cp b)

/-- One code point: the body of the loop without its count. -/
def utf8Char : Scanner.Scan UInt8 Unit := do
  let a ← next
  match utf8Lead a with
  | none => reject
  | some (need, cp) =>
    let cp ← contBytes (need - 1) cp
    check (cpOk need cp)

/-- The body of the loop. -/
def utf8Step (n : Nat) : Scanner.Scan UInt8 Nat := do
  utf8Char
  return n + 1

/-- `while (*p)`. -/
def inText (b : UInt8) : Bool := b ≠ 0

/-- `asper_utf8_count`. -/
def asperUtf8Count (p : Bytes) : Except Halt Nat := (loop inText utf8Step 0).run' p

end Asper
