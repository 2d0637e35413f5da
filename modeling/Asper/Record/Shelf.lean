import Asper.Lib.Dense
import Asper.Record.Funnel

/-! # The index of embeddings

`asper_index` with what it writes into the records (`index.c`): each row holds the address of a
record and a vector, each record the number of its row (`emb_row`). The funnel moves the rows along
with the table (`Shelf.follow`), and compaction removes those of purged records (`purgeFrom`). -/

namespace Asper

open Durable

/-- The address of a record in memory. -/
abbrev Ref := Nat

structure Shelf (V : Type) where
  /-- Where the record of an id lies. -/
  addr : Bytes → Ref
  /-- `emb_row`, below zero if the record has no row. -/
  embRow : Ref → Int
  rows : List (Ref × V)

section
variable {V : Type} (normal : V → V)

/-- The index of a table just loaded. -/
def Shelf.init (addr : Bytes → Ref) : Shelf V := ⟨addr, fun _ => -1, []⟩

def Shelf.row (sh : Shelf V) (p : Ref) : Nat := (sh.embRow p).toNat

/-- `asper_index_put`, which stores the vector `asper_index_write_row` makes of `v`; `full` when the
index cannot grow. -/
def Shelf.put (full : Bool) (sh : Shelf V) (p : Ref) (v : V) : Shelf V × Option Err :=
  if 0 ≤ sh.embRow p then
    if sh.rows[sh.row p]?.map Prod.fst = some p then
      ({ sh with rows := sh.rows.set (sh.row p) (p, normal v) }, none)
    else (sh, some .invalid)
  else if 2 ^ 31 - 1 ≤ sh.rows.length then (sh, some .invalid)
  else if full then (sh, some .nomem)
  else ({ sh with embRow := Function.update sh.embRow p sh.rows.length
                  rows := sh.rows ++ [(p, normal v)] }, none)

def Shelf.unlink (sh : Shelf V) (p : Ref) : Shelf V :=
  { sh with embRow := Function.update sh.embRow p (-1) }

/-- `asper_index_remove`: the last row takes the place of the removed one. -/
def Shelf.remove (sh : Shelf V) (p : Ref) : Shelf V :=
  if sh.embRow p < 0 then sh
  else if sh.rows[sh.row p]?.map Prod.fst = some p then
    if sh.row p + 1 = sh.rows.length then { sh.unlink p with rows := sh.rows.dropLast }
    else match sh.rows.getLast? with
      | some (q, w) =>
        { addr := sh.addr
          embRow := Function.update (Function.update sh.embRow q (sh.row p)) p (-1)
          rows := (sh.rows.set (sh.row p) (q, w)).dropLast }
      | none => sh
  else sh.unlink p

/-- A new record, at the address `p`. -/
def Shelf.place (sh : Shelf V) (id : Bytes) (p : Ref) : Shelf V :=
  { sh.unlink p with addr := Function.update sh.addr id p }

/-- `apply_index_embed`, where `embedded` is what the embedder makes of the record. -/
def Shelf.embed (full : Bool) (embedded : Option (Except Err V)) (sh : Shelf V) (p : Ref) : Shelf V :=
  match embedded with
  | none => sh
  | some (.error _) => sh.remove p
  | some (.ok v) => (sh.put normal full p v).1

/-- The vector prepared before the operation, or none. -/
def Shelf.refill (w : Draw V) (sh : Shelf V) (p : Ref) : Shelf V :=
  match w.embedded with
  | some (.ok v) => (sh.put normal w.full p v).1
  | _ => sh.remove p

/-- How `asper_apply_op` moves the rows along with the table; `p` is where an inserted record
lies. -/
def Shelf.follow (w : Draw V) (p : Ref) (sh : Shelf V) : OpKind → Shelf V
  | .insert r => (sh.place r.id p).refill normal w p
  | .update id _ _ => sh.refill normal w (sh.addr id)
  | .keep id =>
    if sh.embRow (sh.addr id) < 0 then sh.embed normal w.full w.embedded (sh.addr id) else sh
  | .setDeprecated id _ => sh.remove (sh.addr id)
  | _ => sh

end

/-! ## Purging -/

namespace Table

/-- `asper_table_remove`. -/
def remove (t : Table) (id : Bytes) : Table where
  recs := t.recs.eraseP (·.id = id)
  nodup := (List.eraseP_sublist.map _).nodup t.nodup
  named r hr := t.named r (List.mem_of_mem_eraseP hr)

theorem mem_remove {t : Table} {id : Bytes} {r : Record} :
    r ∈ (t.remove id).recs ↔ r ∈ t.recs ∧ r.id ≠ id := by
  constructor
  · intro hr
    have hr : r ∈ t.recs.eraseP (·.id = id) := hr
    have hm := List.mem_of_mem_eraseP hr
    refine ⟨hm, fun hid => ?_⟩
    obtain ⟨x, l₁, l₂, h₁, hx, hl, he⟩ := List.exists_of_eraseP (p := (·.id = id)) hm
      (decide_eq_true hid)
    have hx := of_decide_eq_true hx
    have hd := t.nodup
    rw [he] at hr
    rw [hl, List.map_append, List.map_cons] at hd
    have hd := (List.nodup_append'.1 hd).2.1
    rcases List.mem_append.1 hr with hr | hr
    · exact h₁ r hr (decide_eq_true hid)
    · exact (List.nodup_cons.1 hd).1 (List.mem_map.2 ⟨r, hr, hid.trans hx.symm⟩)
  · rintro ⟨hr, hid⟩
    exact (List.mem_eraseP_of_neg (by simpa using hid)).2 hr

end Table

/-- `purge_due`. -/
def purgeDue (purgeAfter now : Int) (r : Record) : Bool :=
  r.deprecated && decide (purgeAfter ≤ now - r.deprecatedAt)

/-- The loop of `asper_store_compact` over the records below `i`, from the last. -/
def purgeFrom {V : Type} (due : Record → Bool) : Nat → Table → Shelf V → Table × Shelf V
  | 0, t, sh => (t, sh)
  | i + 1, t, sh =>
    match t.recs[i]? with
    | none => purgeFrom due i t sh
    | some r =>
      if due r then purgeFrom due i (t.remove r.id) (sh.remove (sh.addr r.id))
      else purgeFrom due i t sh

end Asper
