import Asper.Record.Store
import Mathlib.Data.Nat.Sqrt

/-! # Rows of the index

`asper_index_write_row` (`index.c`) scales a vector to length one: it computes in doubles and rounds
the result to floats. A float is given by its bits, a finite double by the rational it stands for. -/

namespace Asper

/-- Floats by their bits. -/
abbrev Vec := List UInt32

def floatExponent (x : UInt32) : Nat := x.toNat / 2 ^ 23 % 256

def floatMantissa (x : UInt32) : Nat := x.toNat % 2 ^ 23

def floatNan (x : UInt32) : Bool := floatExponent x = 255 ∧ floatMantissa x ≠ 0

def floatInf (x : UInt32) : Bool := floatExponent x = 255 ∧ floatMantissa x = 0

def signBit (x : UInt32) : UInt32 := x &&& 0x80000000

/-- A finite float without its sign. -/
def floatAbs (x : UInt32) : ℚ :=
  if floatExponent x = 0 then floatMantissa x / 2 ^ 149
  else (2 ^ 23 + floatMantissa x) * 2 ^ ((floatExponent x : Int) - 150)

/-- The exponent of the last bit of the float nearest to `q`. -/
def floatUnit (q : ℚ) : Int := max (Int.log 2 q - 23) (-149)

/-- The float nearest to `q`, which is not negative and not huge. A mantissa that is rounded up to the
next power of two carries into the exponent. -/
def floatNear (q : ℚ) : UInt32 :=
  if q = 0 then 0
  else UInt32.ofNat ((floatUnit q + 149) * 2 ^ 23 + roundHalfEven (q / 2 ^ floatUnit q)).toNat

/-- The exponent of the last bit of the root of `q`. -/
def rootUnit (q : ℚ) : Int := Int.log 2 q / 2 - 52

/-- The double nearest to the root of a positive double. No root lies in the middle of two. -/
def sqrtDouble (q : ℚ) : ℚ :=
  let s := Nat.sqrt ⌊q / 4 ^ rootUnit q⌋₊
  (if ((s : ℚ) + 1 / 2) ^ 2 < q / 4 ^ rootUnit q then s + 1 else s) * 2 ^ rootUnit q

/-- The square of the length of a vector of finite floats. -/
def squares (v : Vec) : ℚ :=
  v.foldl (fun norm x => roundDouble (norm + roundDouble (floatAbs x * floatAbs x))) 0

/-- `asper_index_write_row`. `nan` is what zero times an infinity is on the platform. -/
def indexWriteRow (nan : UInt32) (v : Vec) : Vec :=
  if v.any floatNan then v.map fun _ => 0
  else if v.any floatInf then v.map fun x => if floatInf x then nan else signBit x
  else if 0 < squares v then
    v.map fun x =>
      signBit x ||| floatNear (roundDouble (floatAbs x * roundDouble (1 / sqrtDouble (squares v))))
  else v.map fun _ => 0

theorem indexWriteRow_length (nan : UInt32) (v : Vec) : (indexWriteRow nan v).length = v.length := by
  unfold indexWriteRow
  split_ifs <;> exact List.length_map _

end Asper
