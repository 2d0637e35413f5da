import Asper.Base.Utf8
import Asper.Base.Uuid

/-! # The wrapper of the model's output

`wrapper_valid` of `output_contract.c`: the scanner that admits one JSON property before the text
goes to the xCDN decoder. -/

namespace Asper

open Durable (Bytes)
open Scanner

/-- Blanks, then a fixed word. -/
def token (w : Bytes) : Scanner.Scan UInt8 Unit := do
  skipWhile isAsciiSpace
  spell w

/-- `while (*p && *p != '"')`. -/
def inString (b : UInt8) : Bool := b ≠ 0 ∧ b ≠ 34

/-- What follows a backslash. -/
def escapeTail : Scanner.Scan UInt8 Unit := do
  let e ← sat fun e => (ascii "\"\\/bfnrtu").contains e
  if e = 117 then
    check (4 ≤ (← distance 0))
    check ((← Scanner.ahead 4) ≠ ascii "0000")
    let _ ← take isHex 4

/-- The body of the loop over a string. -/
def stringStep : Scanner.Scan UInt8 Unit := do
  let a ← next
  check (32 ≤ a)
  if a = 92 then escapeTail

def wrapperScan : Scanner.Scan UInt8 Unit := do
  token [123]
  token (ascii "\"output\"")
  token (ascii ":")
  token (ascii "\"")
  loop inString (fun _ => stringStep) ()
  spell (ascii "\"")
  token [125]
  skipWhile isAsciiSpace
  check ((← peek) = 0)

/-- `wrapper_valid`; none when it reads outside the buffer. -/
def wrapperValid (p : Bytes) : Option Bool :=
  match wrapperScan.run' p with
  | .ok _ => some true
  | .error .reject => some false
  | .error _ => none

/-! ## The grammar -/

/-- The inside of a string of the wrapper. -/
inductive StringBody : Bytes → Prop
  | nil : StringBody []
  | raw {b s} : 32 ≤ b → b ≠ 34 → b ≠ 92 → StringBody s → StringBody (b :: s)
  | escape {e s} : e ∈ ascii "\"\\/bfnrt" → StringBody s → StringBody (92 :: e :: s)
  | unicode {w s} : w.length = 4 → (∀ b ∈ w, isHex b = true) → w ≠ ascii "0000" →
    StringBody s → StringBody (92 :: 117 :: (w ++ s))

def Spaces (w : Bytes) : Prop := ∀ b ∈ w, isAsciiSpace b = true

/-- `ws { ws "output" ws : ws string ws } ws`. -/
def Wrapper (s : Bytes) : Prop :=
  ∃ w₀ w₁ w₂ w₃ body w₄ w₅, Spaces w₀ ∧ Spaces w₁ ∧ Spaces w₂ ∧ Spaces w₃ ∧ StringBody body ∧
    Spaces w₄ ∧ Spaces w₅ ∧
    s = w₀ ++ [123] ++ w₁ ++ ascii "\"output\"" ++ w₂ ++ ascii ":" ++ w₃ ++ ascii "\"" ++ body ++
      ascii "\"" ++ w₄ ++ [125] ++ w₅

end Asper
