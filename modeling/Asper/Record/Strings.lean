import Asper.Base.Text
import Asper.Lib.JsonEscape

/-! # The escapes of a record's strings

`record_strings.c`: the pinned xCDN writer leaves a backslash as it is and the reader returns the
literal undecoded, so a record encodes its strings before and decodes them after. -/

namespace Asper

open Durable (Bytes)
open JsonEscape (hexNumber)

def escByte (b : UInt8) : Bytes :=
  if b = 92 then [92, 92]
  else if b = 10 then [92, 110]
  else if b = 13 then [92, 114]
  else if b = 9 then [92, 116]
  else [b]

/-- `esc_encode`; a text without a backslash stays as it is. -/
def escEncode (s : Bytes) : Bytes := if 92 ∈ s then s.flatMap escByte else s

/-- `hex4`, on the bytes at the pointer. -/
def hex4 (p : Bytes) : Option Nat := hexNumber (p.take 4)

/-- `utf8_put`. -/
def utf8Put (cp : Nat) : Bytes :=
  if cp < 0x80 then [UInt8.ofNat cp]
  else if cp < 0x800 then [UInt8.ofNat (0xc0 ||| cp >>> 6), UInt8.ofNat (0x80 ||| (cp &&& 0x3f))]
  else if cp < 0x10000 then
    [UInt8.ofNat (0xe0 ||| cp >>> 12), UInt8.ofNat (0x80 ||| ((cp >>> 6) &&& 0x3f)),
      UInt8.ofNat (0x80 ||| (cp &&& 0x3f))]
  else
    [UInt8.ofNat (0xf0 ||| cp >>> 18), UInt8.ofNat (0x80 ||| ((cp >>> 12) &&& 0x3f)),
      UInt8.ofNat (0x80 ||| ((cp >>> 6) &&& 0x3f)), UInt8.ofNat (0x80 ||| (cp &&& 0x3f))]

/-- The case `u`: what is written for the bytes `p` after it, and how far `i` moves. -/
def unicodeStep (p : Bytes) : Bytes × Nat :=
  if 4 ≤ p.length then
    match hex4 p with
    | none => ([92], 1)
    | some cp =>
      if 0xd800 ≤ cp ∧ cp ≤ 0xdbff ∧ 10 ≤ p.length ∧ p[4]? = some 92 ∧ p[5]? = some 117 then
        match hex4 (p.drop 6) with
        | some lo =>
          if 0xdc00 ≤ lo ∧ lo ≤ 0xdfff then
            (utf8Put (0x10000 + (cp - 0xd800) <<< 10 + (lo - 0xdc00)), 12)
          else (utf8Put cp, 6)
        | none => (utf8Put cp, 6)
      else (utf8Put cp, 6)
  else ([92], 1)

/-- The loop of `esc_decode` at the bytes `p` from `i` on. -/
def escStep : Bytes → Bytes × Nat
  | [] => ([], 0)
  | [c] => ([c], 1)
  | c :: e :: p =>
    if c ≠ 92 then ([c], 1)
    else if e = 92 then ([92], 2)
    else if e = 34 then ([34], 2)
    else if e = 47 then ([47], 2)
    else if e = 110 then ([10], 2)
    else if e = 114 then ([13], 2)
    else if e = 116 then ([9], 2)
    else if e = 98 then ([8], 2)
    else if e = 102 then ([12], 2)
    else if e = 117 then unicodeStep p
    else ([92], 1)

/-- As many rounds as the fuel allows; each moves `i`. -/
def escRounds : Nat → Bytes → Bytes
  | 0, _ => []
  | n + 1, p => if p = [] then [] else (escStep p).1 ++ escRounds n (p.drop (escStep p).2)

def escDecode (s : Bytes) : Bytes := escRounds s.length s

/-- `asper_record_unescape`: a text with a raw control byte was written by hand. -/
def asperRecordUnescape (s : CStr) : Bytes :=
  if s.val.any (· < 0x20) then s.val else escDecode s.val

/-! ## The writer and the reader of xCDN -/

/-- The text between the quotes: the writer escapes a double quote and the control bytes, and the
reader returns it undecoded. -/
def literalText (esc : UInt8 → Bytes) (s : Bytes) : Bytes :=
  s.flatMap fun b => if b < 0x20 ∨ b = 34 then esc b else [b]

end Asper
