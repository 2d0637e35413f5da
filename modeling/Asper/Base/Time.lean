import Asper.Base.Utf8
import Asper.Lib.Decimal

/-! # Times

`time.c`: the civil calendar, RFC 3339 timestamps and ISO 8601 durations. The casts to `unsigned`
are of values that are not negative (`yearOfEra_lt`, `dayOfEra_lt`), so they are `Int.toNat`. -/

namespace Asper

open Durable (Bytes)
open Decimal (dec isDigit)
open Scanner

/-! ## The civil calendar -/

/-- Days since 1970-01-01 of a civil date. -/
def daysFromCivil (y : Int) (m d : Nat) : Int :=
  let y := if m ≤ 2 then y - 1 else y
  let era := (if 0 ≤ y then y else y - 399).tdiv 400
  let yoe := (y - era * 400).toNat
  let doy := (153 * (if 2 < m then m - 3 else m + 9) + 2) / 5 + d - 1
  let doe := yoe * 365 + yoe / 4 - yoe / 100 + doy
  era * 146097 + doe - 719468

def civilFromDays (z : Int) : Int × Nat × Nat :=
  let z := z + 719468
  let era := (if 0 ≤ z then z else z - 146096).tdiv 146097
  let doe := (z - era * 146097).toNat
  let yoe := (doe - doe / 1460 + doe / 36524 - doe / 146096) / 365
  let y : Int := yoe + era * 400
  let doy := doe - (365 * yoe + yoe / 4 - yoe / 100)
  let mp := (5 * doy + 2) / 153
  let d := doy - (153 * mp + 2) / 5 + 1
  let m := if mp < 10 then mp + 3 else mp - 9
  (if m ≤ 2 then y + 1 else y, m, d)

def isLeap (y : Int) : Bool :=
  (y.tmod 4 = 0 ∧ y.tmod 100 ≠ 0) ∨ y.tmod 400 = 0

/-- The days of the month `m`, from 1 to 12. -/
def daysInMonth (y : Int) (m : Nat) : Nat :=
  if m = 2 ∧ isLeap y then 29
  else [31, 28, 31, 30, 31, 30, 31, 31, 30, 31, 30, 31].getD (m - 1) 0

/-! ## RFC 3339 -/

/-- `n` digits after the value `v`. -/
def digitsFrom : Nat → Nat → Scanner.Scan UInt8 Nat
  | 0, v => pure v
  | n + 1, v => do
    let b ← sat isDigit
    digitsFrom n (v * 10 + (b.toNat - 48))

/-- `parse_digits`: exactly `n` digits. -/
def parseDigits (n : Nat) : Scanner.Scan UInt8 Nat := digitsFrom n 0

/-- The fraction of a second: validated, then dropped. -/
def fractionScan : Scanner.Scan UInt8 Unit := do
  if (← peek) = 46 then
    let _ ← next
    let _ ← sat isDigit
    skipWhile isDigit

/-- The offset, in seconds to add. -/
def offsetScan : Scanner.Scan UInt8 Int := do
  let sign ← next
  if sign = 90 ∨ sign = 122 then return 0
  else if sign = 43 ∨ sign = 45 then
    let offh ← parseDigits 2
    spell (ascii ":")
    let offm ← parseDigits 2
    check (offh ≤ 23 ∧ offm ≤ 59)
    return if sign = 43 then -(offh * 3600 + offm * 60 : Int) else offh * 3600 + offm * 60
  else reject

/-- Three numerals, the first of `w` digits: a date, or a time of day. -/
def fieldsScan (w : Nat) (sep : Bytes) : Scanner.Scan UInt8 (Nat × Nat × Nat) := do
  let a ← parseDigits w
  spell sep
  let b ← parseDigits 2
  spell sep
  let c ← parseDigits 2
  return (a, b, c)

def rfc3339Scanner.Scan : Scanner.Scan UInt8 Int := do
  let (y, mo, d) ← fieldsScan 4 (ascii "-")
  let _ ← sat fun b => b = 84 ∨ b = 116
  let (h, mi, se) ← fieldsScan 2 (ascii ":")
  fractionScan
  let off ← offsetScan
  check ((← peek) = 0)
  check (1 ≤ mo ∧ mo ≤ 12)
  check (1 ≤ d ∧ d ≤ daysInMonth y mo)
  check (h ≤ 23 ∧ mi ≤ 59 ∧ se ≤ 60)
  return daysFromCivil y mo d * 86400 + h * 3600 + mi * 60 + se + off

/-- `asper_time_parse_rfc3339`. -/
def asperTimeParseRfc3339 (s : CStr) : Option Int := (rfc3339Scanner.Scan.run' (s.val ++ [0])).toOption

/-- `%0<w>lld`: the sign counts. -/
def zeroPad (w : Nat) (i : Int) : Bytes :=
  if i < 0 then 45 :: (List.replicate (w - 1 - (dec i.natAbs).length) 48 ++ dec i.natAbs)
  else List.replicate (w - (dec i.natAbs).length) 48 ++ dec i.natAbs

/-- `asper_time_format_rfc3339`: a text of at most 31 bytes. -/
def asperTimeFormatRfc3339 (t : Int) : Bytes :=
  let days := if t.tmod 86400 < 0 then t.tdiv 86400 - 1 else t.tdiv 86400
  let sod := if t.tmod 86400 < 0 then t.tmod 86400 + 86400 else t.tmod 86400
  let (y, m, d) := civilFromDays days
  let h := sod.tdiv 3600
  let mi := (sod.tdiv 60).tmod 60
  let se := sod.tmod 60
  (zeroPad 4 y ++ ascii "-" ++ zeroPad 2 m ++ ascii "-" ++ zeroPad 2 d ++ ascii "T" ++
    zeroPad 2 h ++ ascii ":" ++ zeroPad 2 mi ++ ascii ":" ++ zeroPad 2 se ++ ascii "Z").take 31

/-! ## ISO 8601 durations -/

def int64 (x : Int) : Scanner.Scan UInt8 Int := signed 64 x

/-- A digit of `dur_number`, after the value and the number of digits so far. -/
def durDigit (acc : Int × Nat) : Scanner.Scan UInt8 (Int × Nat) := do
  check (acc.2 < 12)
  let b ← next
  let v ← int64 (acc.1 * 10)
  let v ← int64 (v + (b.toNat - 48))
  return (v, acc.2 + 1)

/-- `dur_number`: 1 to 12 digits, no fraction. -/
def durNumber : Scanner.Scan UInt8 Int := do
  let (v, nd) ← loop isDigit durDigit (0, 0)
  check (nd ≠ 0)
  let b ← peek
  check (b ≠ 46 ∧ b ≠ 44)
  return v

/-- The designator of a component of the time part, after the sum and the stage so far. -/
def durDesignator (acc : Int × Nat) (v : Int) : Scanner.Scan UInt8 (Int × Nat) := do
  let u ← next
  if u = 72 ∧ acc.2 < 1 then return (← int64 (acc.1 + (← int64 (v * 3600))), 1)
  else if u = 77 ∧ acc.2 < 2 then return (← int64 (acc.1 + (← int64 (v * 60))), 2)
  else if u = 83 ∧ acc.2 < 3 then return (← int64 (acc.1 + v), 3)
  else reject

def durPart (acc : Int × Nat) : Scanner.Scan UInt8 (Int × Nat) := do
  let v ← durNumber
  durDesignator acc v

/-- The time part, after the seconds of the days. -/
def durTime (acc : Int) : Scanner.Scan UInt8 Int := do
  spell (ascii "T")
  check ((← peek) ≠ 0)
  let (acc, _) ← loop inText durPart (acc, 0)
  return acc

/-- After `PnW`: nothing else. -/
def durWeeks (v : Int) : Scanner.Scan UInt8 Int := do
  check ((← peek) = 0)
  int64 (v * 604800)

/-- After `PnD`: the end, or a time part. -/
def durDays (v : Int) : Scanner.Scan UInt8 Int := do
  let acc ← int64 (v * 86400)
  if (← peek) = 0 then return acc
  else durTime acc

def durDated : Scanner.Scan UInt8 Int := do
  let v ← durNumber
  let u ← next
  if u = 87 then durWeeks v
  else if u = 68 then durDays v
  else reject

def durationScan : Scanner.Scan UInt8 Int := do
  spell (ascii "P")
  check ((← peek) ≠ 0)
  if (← peek) ≠ 84 then durDated
  else durTime 0

/-- `asper_duration_parse`. -/
def asperDurationParse (s : CStr) : Except Halt Int := durationScan.run' (s.val ++ [0])

end Asper
