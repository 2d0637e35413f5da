import Asper.Base.Text
import Asper.Lib.Proc

/-! # JSON values of the server

The value tree of `json.c` and what builds it. Every constructor allocates: it gives no value when
there is no memory, and neither does one that is given no value. The parser and the writer are
those of `Host`. -/

namespace Asper

open Durable

/-- A text in UTF-8. -/
abbrev Utf8 := {s : Bytes // utf8Valid s = true}

/-- A C string in UTF-8. -/
abbrev CUtf8 := {s : Bytes // utf8Valid s = true ∧ 0 ∉ s}

/-- A literal. -/
def utf8 (s : String) (h : (ascii s).all (· < 0x80) = true := by decide) : Utf8 :=
  ⟨ascii s, utf8Valid_ascii fun b hb => of_decide_eq_true (List.all_eq_true.1 h b hb)⟩

inductive JxValue where
  | null
  | bool (b : Bool)
  /-- A literal without a fraction or an exponent that a `long long` holds, `-0` apart. -/
  | int (i : Int)
  /-- Any other number, by the bits of its `double`. -/
  | double (bits : UInt64)
  | string (s : Utf8)
  | array (items : List JxValue)
  | object (members : List (Utf8 × JxValue))

def JxValue.isString : JxValue → Bool
  | .string _ => true
  | _ => false

def JxValue.isObject : JxValue → Bool
  | .object _ => true
  | _ => false

/-- The first member of the name `key`. -/
def lookup (ms : List (Utf8 × JxValue)) (key : Utf8) : Option JxValue :=
  (ms.find? fun m => m.1 = key).map Prod.snd

/-- `jx_object_get`. -/
def jxGet (v : Option JxValue) (key : Utf8) : Option JxValue :=
  match v with
  | some (.object ms) => lookup ms key
  | _ => none

/-- `obj_put`: a member of that name is replaced. -/
def putMember (ms : List (Utf8 × JxValue)) (key : Utf8) (v : JxValue) : List (Utf8 × JxValue) :=
  if ms.any fun m => m.1 = key then ms.map fun m => if m.1 = key then (key, v) else m
  else ms ++ [(key, v)]

/-- A program of the server; it prints lines. -/
abbrev Mcp := ProcM Bytes

/-! ## Constructors -/

def jxNew (v : JxValue) : Mcp (Option JxValue) := do
  if ← alloc then pure (some v) else pure none

def jxObject : Mcp (Option JxValue) := jxNew (.object [])

def jxArray : Mcp (Option JxValue) := jxNew (.array [])

/-- `jx_string`: none also when the text is not UTF-8. -/
def jxString (s : Bytes) : Mcp (Option JxValue) :=
  if h : utf8Valid (cstr s).val = true then jxNew (.string ⟨(cstr s).val, h⟩) else pure none

def jxClone (v : Option JxValue) : Mcp (Option JxValue) :=
  match v with
  | none => pure none
  | some v => jxNew v

/-- `jx_object_set`: the object, and whether it has the member. -/
def jxObjectSet (obj : Option JxValue) (key : Utf8) (v : Option JxValue) :
    Mcp (Option JxValue × Bool) :=
  match obj, v with
  | some (.object ms), some v => do
    if ← alloc then pure (some (.object (putMember ms key v)), true) else pure (obj, false)
  | _, _ => pure (obj, false)

/-- `jx_array_push`. -/
def jxArrayPush (arr : Option JxValue) (v : Option JxValue) : Mcp (Option JxValue × Bool) :=
  match arr, v with
  | some (.array vs), some v => do
    if ← alloc then pure (some (.array (vs ++ [v])), true) else pure (arr, false)
  | _, _ => pure (arr, false)

/-- `ok &= jx_object_set(obj, key, make) == 0`, for an object with the `ok` so far. -/
def setField (s : Option JxValue × Bool) (key : Utf8) (make : Mcp (Option JxValue)) :
    Mcp (Option JxValue × Bool) := do
  let v ← make
  let r ← jxObjectSet s.1 key v
  pure (r.1, s.2 && r.2)

/-- `ok &= jx_array_push(arr, make) == 0`. -/
def pushItem (s : Option JxValue × Bool) (make : Mcp (Option JxValue)) :
    Mcp (Option JxValue × Bool) := do
  let v ← make
  let r ← jxArrayPush s.1 v
  pure (r.1, s.2 && r.2)

end Asper
