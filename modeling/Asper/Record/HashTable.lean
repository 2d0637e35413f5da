import Asper.Lib.Probe
import Asper.Record.Store

/-! # The table of records as it is stored

`record_table.c`: an array of records in the order of their insertion and a map from ids to places in
it, open addressing without tombstones. Where a map cannot be allocated the array is searched from
the front. Results are none when a walk through the map does not end or an index is out of bounds. -/

namespace Asper

open Durable

/-- `asper_idmap`: a slot holds the place of a record, one up. -/
structure IdMap where
  slots : List Nat
  used : Nat

/-- `asper_table`. -/
structure HashTable where
  recs : List Record
  idmap : Option IdMap

/-- What fails in a call: the array has to grow and cannot, a map cannot be allocated. -/
structure TableFaults where
  recs : Bool
  idmap : Bool

/-- `id_hash`. -/
def idHash (id : Bytes) : Nat := (fnv1a64 id).toNat

/-- `idmap_insert` of the record at `idx`. -/
def idmapInsert (recs : List Record) (m : IdMap) (idx : Nat) : Option IdMap :=
  recs[idx]?.bind fun r =>
    (probe m.slots (fun _ => some false) m.slots.length
      (idHash r.id &&& (m.slots.length - 1))).bind fun
      | .empty pos => some ⟨m.slots.set pos (idx + 1), m.used + 1⟩
      | .found _ => none

/-- Double `cap` until it is `least`. -/
def growCap : Nat → Nat → Nat → Nat
  | 0, _, cap => cap
  | fuel + 1, least, cap => if cap < least then growCap fuel least (cap * 2) else cap

/-- `table_rehash`: no map when the allocation fails. -/
def tableRehash (fail : Bool) (recs : List Record) (mincap : Nat) : Option (Option IdMap) :=
  if fail then some none
  else ((List.range recs.length).foldlM (idmapInsert recs)
    ⟨List.replicate (growCap (mincap * 2) (mincap * 2) 16) 0, 0⟩).map some

/-- The record at `idx` has the id. -/
def sameId (recs : List Record) (id : Bytes) (idx : Nat) : Option Bool :=
  recs[idx]?.map fun r => decide (r.id = id)

/-- `table_find`. -/
def tableFind (t : HashTable) (id : Bytes) : Option (Option Nat) :=
  if id = [] ∨ t.recs = [] then some none
  else match t.idmap with
    | some m =>
      (probe m.slots (sameId t.recs id) m.slots.length
        (idHash id &&& (m.slots.length - 1))).map fun
        | .found idx => some idx
        | .empty _ => none
    | none => some (t.recs.findIdx? (·.id = id))

namespace HashTable

def empty : HashTable := ⟨[], none⟩

/-- The end of `asper_table_add`. -/
def append (t : HashTable) (m : IdMap) (r : Record) : Option (HashTable × Option Err) :=
  (idmapInsert (t.recs ++ [r]) m t.recs.length).map fun m => (⟨t.recs ++ [r], some m⟩, none)

/-- The map is missing or would be more than seven tenths full. -/
def crowded (t : HashTable) : Bool :=
  t.idmap.all fun m => decide (m.slots.length * 7 < (m.used + 1) * 10)

/-- `asper_table_add`. -/
def add (w : TableFaults) (t : HashTable) (r : Record) : Option (HashTable × Option Err) :=
  if r.id = [] then some (t, some .invalid)
  else (tableFind t r.id).bind fun
    | some _ => some (t, some .invalid)
    | none =>
      if recordLimit ≤ t.recs.length then some (t, some .limit)
      else if w.recs then some (t, some .nomem)
      else (if t.crowded then tableRehash w.idmap t.recs (t.recs.length + 1)
          else some t.idmap).bind fun
        | some m => t.append m r
        | none => some (t, some .nomem)

/-- `asper_table_get`. -/
def get (t : HashTable) (id : Bytes) : Option (Option Record) :=
  (tableFind t id).bind fun
    | some idx => t.recs[idx]?.map some
    | none => some none

/-- `asper_table_remove`. -/
def remove (w : TableFaults) (t : HashTable) (id : Bytes) : Option (HashTable × Bool) :=
  (tableFind t id).bind fun
    | some idx =>
      let recs := t.recs.eraseIdx idx
      (tableRehash w.idmap recs (if recs.length ≠ 0 then recs.length else 1)).map fun m =>
        (⟨recs, m⟩, true)
    | none => some (t, false)

end HashTable

/-! ## Runs -/

inductive TableCall where
  | add (r : Record) (w : TableFaults)
  | get (id : Bytes)
  | remove (id : Bytes) (w : TableFaults)

inductive TableAnswer where
  | added (e : Option Err)
  | got (r : Option Record)
  | removed (found : Bool)

def HashTable.call (t : HashTable) : TableCall → Option (HashTable × TableAnswer)
  | .add r w => (t.add w r).map fun x => (x.1, .added x.2)
  | .get id => (t.get id).map fun r => (t, .got r)
  | .remove id w => (t.remove w id).map fun x => (x.1, .removed x.2)

def HashTable.run : HashTable → List TableCall → Option (HashTable × List TableAnswer)
  | t, [] => some (t, [])
  | t, c :: cs => (t.call c).bind fun x => (x.1.run cs).map fun y => (y.1, x.2 :: y.2)

/-! ## The map that it is meant to be -/

/-- The table without the record `id`. -/
def Table.without (t : Table) (id : Bytes) : Table where
  recs := t.recs.filter (·.id ≠ id)
  nodup := t.nodup.sublist (List.filter_sublist.map _)
  named r hr := t.named r (List.mem_of_mem_filter hr)

/-- A call on a table of records with unique ids. An addition may fail for want of memory. -/
inductive TableStep : Table → TableCall → TableAnswer → Table → Prop where
  | add {t t' : Table} {r : Record} (w : TableFaults) (h : t.add r = .ok t') :
    TableStep t (.add r w) (.added none) t'
  | reject {t : Table} {r : Record} {e : Err} (w : TableFaults) (h : t.add r = .error e) :
    TableStep t (.add r w) (.added (some e)) t
  | noMemory {t t' : Table} {r : Record} {w : TableFaults} (h : t.add r = .ok t')
    (hw : w.recs = true ∨ w.idmap = true) : TableStep t (.add r w) (.added (some .nomem)) t
  | get (t : Table) (id : Bytes) : TableStep t (.get id) (.got (t.get id)) t
  | remove (t : Table) (id : Bytes) (w : TableFaults) :
    TableStep t (.remove id w) (.removed (t.get id).isSome) (t.without id)

inductive TableRun : Table → List TableCall → List TableAnswer → Table → Prop where
  | nil (t : Table) : TableRun t [] [] t
  | cons {t t' t'' : Table} {c : TableCall} {a : TableAnswer} {cs : List TableCall}
    {as : List TableAnswer} (h : TableStep t c a t') (hs : TableRun t' cs as t'') :
    TableRun t (c :: cs) (a :: as) t''

end Asper
