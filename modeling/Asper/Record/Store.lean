import Asper.Knowledge.Status
import Mathlib.Data.Int.Log
import Mathlib.Data.Rat.Floor

/-! # Operations on the record store

`Memory` is what operations change: the table of records and the registry of projects. `Op` is one
operation (`asper_op`) and `storeApply` what it does (`store.c`), checks of the caller aside. -/

namespace Asper

open Durable (Bytes)

/-! ## Doubles -/

def roundHalfEven (q : ℚ) : Int :=
  if q - ⌊q⌋ < 1 / 2 then ⌊q⌋
  else if 1 / 2 < q - ⌊q⌋ then ⌊q⌋ + 1
  else if ⌊q⌋ % 2 = 0 then ⌊q⌋ else ⌊q⌋ + 1

/-- The `double` nearest to `q`, which is neither tiny nor huge. -/
def roundDouble (q : ℚ) : ℚ :=
  if q = 0 then 0 else roundHalfEven (q / 2 ^ (Int.log 2 |q| - 52)) * 2 ^ (Int.log 2 |q| - 52)

/-- `boosted`. -/
def boosted (relevance : ℚ) : ℚ :=
  if 1 < roundDouble (relevance + roundDouble (1 / 20)) then 1
  else roundDouble (relevance + roundDouble (1 / 20))

/-! ## The table -/

def recordLimit : Nat := 65536

namespace Table

/-- `asper_table_add`. -/
def add (t : Table) (r : Record) : Except Err Table :=
  if hr : r.id = [] then .error .invalid
  else if ht : r.id ∈ t.recs.map (·.id) then .error .invalid
  else if recordLimit ≤ t.recs.length then .error .limit
  else .ok
    { recs := t.recs ++ [r]
      nodup := by
        rw [List.map_append]
        exact List.nodup_append'.2 ⟨t.nodup, List.nodup_singleton _, by simpa using ht⟩
      named := fun x hx => (List.mem_append.1 hx).elim (t.named x) fun hx => by
        rwa [List.mem_singleton.1 hx] }

theorem map_modify_id (rs : List Record) (id : Bytes) {f : Record → Record}
    (hf : ∀ r, (f r).id = r.id) :
    (rs.map fun r => if r.id = id then f r else r).map (·.id) = rs.map (·.id) := by
  rw [List.map_map]
  refine List.map_congr_left fun r _ => ?_
  show (if r.id = id then f r else r).id = r.id
  split
  · exact hf r
  · rfl

/-- Change the record `id` in place. -/
def modify (t : Table) (id : Bytes) (f : Record → Record) (hf : ∀ r, (f r).id = r.id) : Table where
  recs := t.recs.map fun r => if r.id = id then f r else r
  nodup := by
    rw [map_modify_id t.recs id hf]
    exact t.nodup
  named x hx := by
    obtain ⟨r, hr, rfl⟩ := List.mem_map.1 hx
    have hid : (if r.id = id then f r else r).id = r.id := by
      split
      · exact hf r
      · rfl
    rw [hid]
    exact t.named r hr

end Table

/-! ## The registry of projects -/

def projectLimit : Nat := 4093

/-- The projects in order. -/
structure Projects where
  slugs : List Bytes
  sorted : slugs.Pairwise (· < ·)
  valid : ∀ s ∈ slugs, slugValid s = true

/-- On which side of `slug` the slug `s` stands. -/
def slugOrder (slug s : Bytes) : Ordering :=
  if s = slug then .eq else if s < slug then .lt else .gt

theorem slugOrder_eq {slug s : Bytes} : slugOrder slug s = .eq ↔ s = slug := by
  unfold slugOrder
  split
  · simpa
  · next h => split <;> simpa using h

theorem slugOrder_lt {slug s : Bytes} : slugOrder slug s = .lt ↔ s < slug := by
  unfold slugOrder
  split
  · next h => simp [h]
  · split <;> simp_all

theorem slugOrder_gt {slug s : Bytes} : slugOrder slug s = .gt ↔ slug < s := by
  unfold slugOrder
  split
  · next h => simp [h]
  · next hne =>
    split
    · next h => simpa using List.le_of_lt h
    · next h => simpa using bytes_lt_or h hne

namespace Projects

def empty : Projects := ⟨[], .nil, fun _ h => absurd h List.not_mem_nil⟩

/-- `asper_store_project_index`: the place of the slug, and whether it is there. -/
def index (p : Projects) (slug : Bytes) : Nat × Bool := Search.locate (slugOrder slug) p.slugs

/-- `asper_store_project_known`. -/
def known (p : Projects) (slug : Bytes) : Bool := (p.index slug).2

theorem ordered (p : Projects) (slug : Bytes) : Search.Ordered (slugOrder slug) p.slugs := by
  refine p.sorted.imp fun {a b} hab => ⟨fun h => ?_, fun h => ?_⟩
  · exact slugOrder_lt.2 (bytes_lt_trans hab (slugOrder_lt.1 h))
  · exact slugOrder_gt.2 (bytes_lt_trans (slugOrder_gt.1 h) hab)

theorem known_iff {p : Projects} {slug : Bytes} : p.known slug = true ↔ slug ∈ p.slugs := by
  rw [known, index, Search.locate_found (p.ordered slug)]
  simp [slugOrder_eq]

/-- Move the slug in at its place. -/
def insert (p : Projects) (slug : Bytes) (hv : slugValid slug = true)
    (hk : (p.index slug).2 = false) : Projects where
  slugs := p.slugs.take (p.index slug).1 ++ slug :: p.slugs.drop (p.index slug).1
  sorted := by
    obtain ⟨hb, ha⟩ := Search.locate_place (p.ordered slug) hk
    refine List.pairwise_append.2 ⟨p.sorted.sublist (List.take_sublist _ _),
      List.pairwise_cons.2 ⟨fun x hx => slugOrder_gt.1 (ha x hx),
        p.sorted.sublist (List.drop_sublist _ _)⟩, fun x hx y hy => ?_⟩
    have hlt := slugOrder_lt.1 (hb x hx)
    rcases List.mem_cons.1 hy with rfl | hy
    · exact hlt
    · exact bytes_lt_trans hlt (slugOrder_gt.1 (ha y hy))
  valid x hx := by
    rcases List.mem_append.1 hx with hx | hx
    · exact p.valid x (List.mem_of_mem_take hx)
    · rcases List.mem_cons.1 hx with rfl | hx
      · exact hv
      · exact p.valid x (List.mem_of_mem_drop hx)

/-- `asper_store_project_add`. -/
def add (p : Projects) (slug : Bytes) : Except Err Projects :=
  if hv : slugValid slug = true then
    if hk : (p.index slug).2 = false then
      if projectLimit ≤ p.slugs.length then .error .limit else .ok (p.insert slug hv hk)
    else .ok p
  else .error .invalid

end Projects

/-! ## Operations -/

/-- What an operation does. The texts of a caller are C strings; one not given is empty. -/
inductive OpKind where
  | insert (record : Record)
  | update (id content : Bytes) (declared : Bool)
  | setDeprecated (id : Bytes) (reason : Option Bytes)
  | keep (id : Bytes)
  | setLocked (id : Bytes) (value : Bool)
  | access (ids : List Bytes)
  | projectCreate (project : Bytes)
  deriving DecidableEq

structure Op where
  at_ : Int
  kind : OpKind
  deriving DecidableEq

/-- `asper_op_kind_name`. -/
def OpKind.name : OpKind → Bytes
  | .insert _ => ascii "insert"
  | .update .. => ascii "update"
  | .setDeprecated .. => ascii "deprecate"
  | .keep _ => ascii "keep"
  | .setLocked .. => ascii "set_locked"
  | .access _ => ascii "access"
  | .projectCreate _ => ascii "project_create"

/-- What operations change. -/
structure Memory where
  table : Table
  projects : Projects

def Memory.empty : Memory := ⟨.empty, .empty⟩

def days (n : Int) : Int := n * 86400

/-- The evidence of a claim whose text was changed at `at_`: none of the old claim's is kept. -/
def updatedEvidence (old : Evidence) (at_ : Int) (declared : Bool) : Evidence where
  kind := if declared then .declared else .inferred
  confidenceKind := .heuristic
  confidence := if declared then 1 else 1 / 2
  observedAt := at_
  expiresAt := if declared then 0 else if old.expiresAt ≠ 0 then old.expiresAt else at_ + days 30
  provenance := if declared then ascii "user:manual-update" else ascii "curator:unverified-update"
  workspace := []
  commit := []

def Record.updated (r : Record) (at_ : Int) (content : Bytes) (declared : Bool) : Record :=
  { r with content, updatedAt := at_, evidence := updatedEvidence r.evidence at_ declared
           sourceRefs := [] }

/-- Deprecating twice keeps the first time. -/
def Record.deprecatedBy (r : Record) (at_ : Int) : Record :=
  if r.deprecated then r else { r with deprecated := true, deprecatedAt := at_ }

def Record.kept (r : Record) (at_ : Int) : Record :=
  { r with deprecated := false, deprecatedAt := if r.deprecated then 0 else r.deprecatedAt
           lastAccess := at_, relevance := boosted r.relevance }

def Record.accessed (r : Record) (at_ : Int) : Record :=
  { r with accessCount := (r.accessCount + 1) % 2 ^ 32, lastAccess := at_
           relevance := boosted r.relevance }

def Record.withLocked (r : Record) (value : Bool) : Record := { r with locked := value }

section
variable (r : Record) (at_ : Int)

theorem Record.updated_id (content : Bytes) (declared : Bool) :
    (r.updated at_ content declared).id = r.id := rfl

theorem Record.deprecatedBy_id : (r.deprecatedBy at_).id = r.id := by
  unfold deprecatedBy
  split <;> rfl

theorem Record.kept_id : (r.kept at_).id = r.id := rfl

theorem Record.accessed_id : (r.accessed at_).id = r.id := rfl

theorem Record.withLocked_id (value : Bool) : (r.withLocked value).id = r.id := rfl

end

/-- Ids that are not in the table, such as purged ones, are skipped. -/
def accessAll (at_ : Int) (t : Table) (ids : List Bytes) : Table :=
  ids.foldl (fun t id => t.modify id (·.accessed at_) (Record.accessed_id · at_)) t

/-- `asper_store_apply`, where every allocation succeeds. -/
def storeApply (m : Memory) (op : Op) : Except Err Memory :=
  match op.kind with
  | .insert r => match m.table.add r with
    | .error _ => .error .invalid
    | .ok t => .ok { m with table := t }
  | .update id content declared => match m.table.get id with
    | none => .error .notFound
    | some r =>
      if r.deprecated then .error .invalid
      else .ok { m with table := m.table.modify id (·.updated op.at_ content declared)
                                   (Record.updated_id · op.at_ content declared) }
  | .setDeprecated id _ => match m.table.get id with
    | none => .error .notFound
    | some _ => .ok { m with table := m.table.modify id (·.deprecatedBy op.at_)
                                        (Record.deprecatedBy_id · op.at_) }
  | .keep id => match m.table.get id with
    | none => .error .notFound
    | some _ => .ok { m with table := m.table.modify id (·.kept op.at_) (Record.kept_id · op.at_) }
  | .setLocked id value => match m.table.get id with
    | none => .error .notFound
    | some _ => .ok { m with table := m.table.modify id (·.withLocked value)
                                        (Record.withLocked_id · value) }
  | .access ids => .ok { m with table := accessAll op.at_ m.table ids }
  | .projectCreate slug => match m.projects.add slug with
    | .error e => .error e
    | .ok p => .ok { m with projects := p }

end Asper
