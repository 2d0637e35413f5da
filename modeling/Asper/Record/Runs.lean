import Asper.Record.Snapshot

/-! # Runs of a store

A store is what it holds in memory, its files of records and its journal (`StoreState`). It is
opened, takes operations one at a time, is compacted and is opened again (`storeStep`), where no
file operation and no allocation fails. -/

namespace Asper

open Durable

structure StoreState where
  memory : Memory
  files : SectionFiles
  journal : List Event

/-- A store opened in a new place. -/
def StoreState.empty : StoreState := ⟨.empty, .empty, []⟩

/-- What is done with an open store. -/
inductive StoreCall where
  /-- The operation `op`, whose frame gets the id `id`. -/
  | apply (op : Op) (fromCurator : Bool) (id : Uuid)
  | compact (w : CompactDraw)
  | reopen (now : Int)

/-- What the callers of `asper_apply_op` send: a new record has a drawn id and no accesses
(`api.c`, `curator.c`), and the accesses of a batch were noted of records (`worker.c`). -/
def OpKind.Issued : OpKind → Prop
  | .insert r => uuidShape isLowerHex r.id = true ∧ r.accessCount = 0
  | .access ids => ∀ id ∈ ids, uuidShape isLowerHex id = true
  | _ => True

def StoreCall.Issued : StoreCall → Prop
  | .apply op _ _ => op.kind.Issued
  | _ => True

section
variable (S : Settings) (X : XcdnText) (D : Digest) (purgeAfter : Int)

/-- The frame of an operation in the journal of `s`. -/
def StoreState.frame (s : StoreState) (op : Op) (id : Uuid) : Event :=
  ⟨s.journal.length + 1, op.at_, .diagnostic, false, id.val, [], X.compact (opBuildNode op)⟩

/-- One call. A call that fails leaves the store as it is. -/
def storeStep (s : StoreState) : StoreCall → Except Err StoreState
  | .apply op fromCurator id => do
    let _ ← applyValidate S s.memory fromCurator op.kind
    let memory ← storeApply s.memory op
    return ⟨memory, s.files, s.journal ++ [s.frame X op id]⟩
  | .compact w => do
    let (memory, files) ← storeCompact X D w purgeAfter s.memory s.files
    return ⟨memory, files, []⟩
  | .reopen now => do
    let memory ← storeOpen X D now s.files s.journal
    return { s with memory }

/-- The steps of a run. -/
def StoreSteps (s : StoreState) (c : StoreCall) (s' : StoreState) : Prop :=
  c.Issued ∧ storeStep S X D purgeAfter s c = .ok s'

/-- An operation of a caller: the checks, then the memory. -/
def storeCall (m : Memory) (op : Op) (fromCurator : Bool) : Except Err Memory := do
  let _ ← applyValidate S m fromCurator op.kind
  storeApply m op

/-- The operations of callers, one after the other: how each went, and the memory at the end. -/
def storeServe (m : Memory) : List (Op × Bool) → List (Option Err) × Memory
  | [] => ([], m)
  | (op, fromCurator) :: ops =>
    match storeCall S m op fromCurator with
    | .error e => (some e :: (storeServe m ops).1, (storeServe m ops).2)
    | .ok m' => (none :: (storeServe m' ops).1, (storeServe m' ops).2)

/-- A store as it was opened. -/
def StoreState.Opened (s : StoreState) : Prop :=
  ∃ now, storeOpen X D now s.files s.journal = .ok s.memory

end

end Asper
