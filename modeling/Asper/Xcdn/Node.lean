import Asper.Base.Uuid
import Mathlib.Data.Rat.Defs

/-! # xCDN trees

The nodes the program builds and reads, and `objectGet`, its only way into an object. Numbers are
exact: `int` is an `int64_t`, `float` the value of a finite double. -/

namespace Asper

open Durable (Bytes)

mutual

inductive XValue where
  | null
  | bool (b : Bool)
  | int (i : Int)
  | float (x : ℚ)
  | string (s : Bytes)
  | uuid (s : Bytes)
  | datetime (s : Bytes)
  | array (items : List XNode)
  | object (entries : List (Bytes × XNode))

inductive XNode where
  | mk (tags : List Bytes) (value : XValue)

end

def XNode.tags : XNode → List Bytes
  | .mk tags _ => tags

def XNode.value : XNode → XValue
  | .mk _ value => value

/-- A node without tags. -/
def XValue.node (v : XValue) : XNode := .mk [] v

def XNode.hasTag (n : XNode) (tag : Bytes) : Bool := n.tags.contains tag

/-- The first entry of that key; none when the value is no object. -/
def objectGet (v : XValue) (key : Bytes) : Option XNode :=
  match v with
  | .object entries => (entries.find? fun e => e.1 = key).map (·.2)
  | _ => none

end Asper
