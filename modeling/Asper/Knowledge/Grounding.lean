import Asper.Knowledge.Store
import Asper.Lib.Runs

/-! # Groundings over time

`Grounding.Step` is one step of a store with its log of groundings: a call that grounds a record,
with whatever fails on the way, a change of the records, the opening and the end of the store. The
calls run one at a time under the lock of the store, so the calls of several threads are a run. -/

namespace Asper

open Durable

/-- The disk, the records, and the groundings in memory while the store is open. -/
structure Grounds where
  disk : Disk
  table : Table
  knowledge : Option Knowledge

inductive GroundLabel where
  /-- A call of `asper_memory_ground`, and its error if it failed. -/
  | ground (c : GroundCall) (r : Option Err)
  | other

/-- The contents of the records are UTF-8, as `apply_validate` and the record decoder see to. -/
def Table.Utf8 (t : Table) : Prop := ∀ id r, t.get id = some r → utf8Valid r.content = true

section
variable (J : JsonText) (D : Digest)

/-- The append of a call, on the disk its checks left. -/
def groundAppend (w : GroundDraw) (p : KnowledgeEntry × CStr) : Io Event :=
  eventLogAppend D knowledgeFile (knowledgeEvent w p.2)

inductive Grounds.Step (σ : Grounds) : GroundLabel → Grounds → Prop where
  | ground {k k' : Knowledge} {r : Option Err} (c : GroundCall) (w : GroundDraw) (poisoned : Bool)
      (hk : σ.knowledge = some k)
      (h : (memoryGround J D w poisoned σ.table k c).result σ.disk = .ok (k', r)) :
      Step σ (.ground c r)
        { σ with
          disk := (memoryGround J D w poisoned σ.table k c).final σ.disk
          knowledge := some k' }
  /-- An operation fails before the append. -/
  | refused {k : Knowledge} {cut : Option (Write × Write)} {d : Disk} (c : GroundCall)
      (w : GroundDraw) (poisoned : Bool) (e : Err) (hk : σ.knowledge = some k)
      (h : Crash ((groundPrepare J D w poisoned σ.table k c).writes σ.disk) σ.disk cut d) :
      Step σ (.ground c (some e)) { σ with disk := d }
  /-- A write of the append fails, whatever of it landed. -/
  | broken {k : Knowledge} {p : KnowledgeEntry × CStr} {cut : Option (Write × Write)} {d d' : Disk}
      (c : GroundCall) (w : GroundDraw) (poisoned : Bool) (e : Err) (hk : σ.knowledge = some k)
      (h : (groundPrepare J D w poisoned σ.table k c).result σ.disk = .ok p)
      (hd : d = (groundPrepare J D w poisoned σ.table k c).final σ.disk)
      (hc : Crash ((groundAppend D w p).writes d) d cut d') :
      Step σ (.ground c (some e)) { σ with disk := d', knowledge := some k.poison }
  /-- The log has the whole frame, and the failure of the index after it is not told. -/
  | unindexed {k : Knowledge} {p : KnowledgeEntry × CStr} {event : Event}
      {cut : Option (Write × Write)} {d d' : Disk} (c : GroundCall) (w : GroundDraw)
      (poisoned : Bool) (hk : σ.knowledge = some k)
      (h : (groundPrepare J D w poisoned σ.table k c).result σ.disk = .ok p)
      (hd : d = (groundPrepare J D w poisoned σ.table k c).final σ.disk)
      (ha : (groundAppend D w p).result d = .ok event)
      (hc : Crash ((groundAppend D w p).writes d) d cut d')
      (hf : d' knowledgeFile = (groundAppend D w p).final d knowledgeFile) :
      Step σ (.ground c none)
        { σ with disk := d', knowledge := some (k.store { p.1 with sourcesOk := true }) }
  /-- Records are added, changed, deprecated or purged. -/
  | records (t : Table) (ht : t.Utf8) : Step σ .other { σ with table := t }
  /-- The host observes a resource. -/
  | observe {k : Knowledge} (os : List Dependency) (hk : σ.knowledge = some k) :
      Step σ .other { σ with knowledge := some { k with observations := os } }
  /-- Other files of the store change. -/
  | elsewhere (d : Disk)
      (h : ∀ p ∈ [knowledgeFile, indexPath knowledgeFile, indexTmp knowledgeFile],
        d p = σ.disk p) : Step σ .other { σ with disk := d }
  /-- The store is closed, or its process ends. -/
  | close : Step σ .other { σ with knowledge := none }
  | open_ {k : Knowledge} (hk : σ.knowledge = none)
      (h : (knowledgeOpen J D σ.table).result σ.disk = .ok k) :
      Step σ .other
        { σ with disk := (knowledgeOpen J D σ.table).final σ.disk, knowledge := some k }
  /-- The opening is cut short. -/
  | openCut {cut : Option (Write × Write)} {d : Disk} (hk : σ.knowledge = none)
      (h : Crash ((knowledgeOpen J D σ.table).writes σ.disk) σ.disk cut d) :
      Step σ .other { σ with disk := d }

/-- A store that has no groundings yet. -/
structure Grounds.Fresh (σ : Grounds) : Prop where
  log : ∀ p ∈ [knowledgeFile, indexPath knowledgeFile, indexTmp knowledgeFile], σ.disk p = none
  table : σ.table.Utf8
  knowledge : σ.knowledge = none

end

end Asper
