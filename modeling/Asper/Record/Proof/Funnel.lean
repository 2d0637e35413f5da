import Asper.Record.Calls

/-! # What an operation does

* `Table.get_modify`, `Table.get_add`: the records of a changed table.
* `storeApply_get`: what an operation leaves of the record with an id.
* `applyOp_run`: what the funnel does to a context, by the outcome of the call. -/

namespace Asper

open Durable

theorem except_bind_ok {α β : Type} {m : Except Err α} {f : α → Except Err β} {b : β}
    (h : m >>= f = .ok b) : ∃ a, m = .ok a ∧ f a = .ok b := by
  cases m with
  | error e => cases h
  | ok a => exact ⟨a, rfl, h⟩

theorem except_map_ok {α β : Type} {m : Except Err α} {f : α → β} {b : β}
    (h : m.map f = .ok b) : ∃ a, m = .ok a ∧ f a = b := by
  cases m with
  | error e => cases h
  | ok a => exact ⟨a, rfl, Except.ok.inj h⟩

/-! ## Tables -/

namespace Table

theorem get_modify (t : Table) (id : Bytes) {f : Record → Record} (hf : ∀ r, (f r).id = r.id)
    (id' : Bytes) : (t.modify id f hf).get id' = (t.get id').map fun r =>
      if id' = id then f r else r := by
  refine Option.ext fun x => ?_
  rw [get_eq_some, Option.map_eq_some_iff]
  constructor
  · rintro ⟨hx, rfl⟩
    obtain ⟨r, hr, hrx⟩ := List.mem_map.1 hx
    have hid : x.id = r.id := by
      rw [← hrx]
      split
      · exact hf r
      · rfl
    refine ⟨r, get_eq_some.2 ⟨hr, hid.symm⟩, ?_⟩
    rw [hid]
    exact hrx
  · rintro ⟨r, hr, hrx⟩
    obtain ⟨hm, rfl⟩ := get_eq_some.1 hr
    refine ⟨List.mem_map.2 ⟨r, hm, hrx⟩, ?_⟩
    rw [← hrx]
    split
    · exact hf r
    · rfl

theorem get_add {t t' : Table} {r : Record} (h : t.add r = .ok t') (id : Bytes) :
    t'.get id = if id = r.id then some r else t.get id := by
  unfold add at h
  split at h
  · cases h
  · split at h
    · cases h
    · next hne hnew =>
      split at h
      · cases h
      · obtain rfl := Except.ok.inj h
        refine Option.ext fun x => ?_
        rw [get_eq_some, List.mem_append, List.mem_singleton]
        constructor
        · rintro ⟨hx | rfl, rfl⟩
          · have hxr : x.id ≠ r.id := fun he => hnew (he ▸ List.mem_map_of_mem hx)
            rw [if_neg hxr]
            exact get_self hx
          · rw [if_pos rfl]
        · intro hx
          split at hx
          · next hid =>
            obtain rfl := Option.some.inj hx
            exact ⟨.inr rfl, hid.symm⟩
          · exact (get_eq_some.1 hx).imp_left .inl

/-- Nothing is added twice. -/
theorem get_add_self {t t' : Table} {r : Record} (h : t.add r = .ok t') : t.get r.id = none := by
  cases hg : t.get r.id with
  | none => rfl
  | some x =>
    have hm : r.id ∈ t.recs.map (·.id) :=
      List.mem_map.2 ⟨x, (get_eq_some.1 hg).1, (get_eq_some.1 hg).2⟩
    unfold add at h
    split at h <;> simp_all

end Table

/-! ## One record across an operation -/

/-- What an operation makes of the record `r` of the table. -/
def Op.on (op : Op) (r : Record) : Record :=
  match op.kind with
  | .update id content declared => if r.id = id then r.updated op.at_ content declared else r
  | .setDeprecated id _ => if r.id = id then r.deprecatedBy op.at_ else r
  | .keep id => if r.id = id then r.kept op.at_ else r
  | .setLocked id value => if r.id = id then r.withLocked value else r
  | .access ids => (·.accessed op.at_)^[ids.count r.id] r
  | _ => r

/-- The record of an id that was accessed. -/
theorem accessAll_get (at_ : Int) (id : Bytes) : ∀ (ids : List Bytes) (t : Table) {r : Record},
    t.get id = some r → (accessAll at_ t ids).get id = some ((·.accessed at_)^[ids.count id] r)
  | [], _, _, h => h
  | i :: ids, t, r, h => by
    have hg := t.get_modify i (Record.accessed_id · at_) id
    rw [h, Option.map_some] at hg
    by_cases hi : id = i
    · rw [if_pos hi] at hg
      rw [← hi, List.count_cons_self]
      rw [← hi] at hg
      exact accessAll_get at_ id ids _ hg
    · rw [if_neg hi] at hg
      rw [List.count_cons_of_ne (Ne.symm hi)]
      exact accessAll_get at_ id ids _ hg

/-- **An operation keeps every record**, changed as it says. -/
theorem storeApply_get {m m' : Memory} {op : Op} (h : storeApply m op = .ok m') {id : Bytes}
    {r : Record} (hr : m.table.get id = some r) : m'.table.get id = some (op.on r) := by
  obtain rfl := Table.get_id hr
  unfold storeApply at h
  unfold Op.on
  cases hk : op.kind with
  | insert x =>
    rw [hk] at h
    dsimp only at h ⊢
    split at h
    · cases h
    · next t ht =>
      obtain rfl := Except.ok.inj h
      have hne : r.id ≠ x.id := fun he => by
        rw [he, Table.get_add_self ht] at hr
        cases hr
      rw [Table.get_add ht, if_neg hne, hr]
  | update i content declared =>
    rw [hk] at h
    dsimp only at h ⊢
    split at h
    · cases h
    · split at h
      · cases h
      · obtain rfl := Except.ok.inj h
        rw [Table.get_modify, hr, Option.map_some]
  | setDeprecated i reason =>
    rw [hk] at h
    dsimp only at h ⊢
    split at h
    · cases h
    · obtain rfl := Except.ok.inj h
      rw [Table.get_modify, hr, Option.map_some]
  | keep i =>
    rw [hk] at h
    dsimp only at h ⊢
    split at h
    · cases h
    · obtain rfl := Except.ok.inj h
      rw [Table.get_modify, hr, Option.map_some]
  | setLocked i value =>
    rw [hk] at h
    dsimp only at h ⊢
    split at h
    · cases h
    · obtain rfl := Except.ok.inj h
      rw [Table.get_modify, hr, Option.map_some]
  | access ids =>
    rw [hk] at h
    obtain rfl := Except.ok.inj h
    exact accessAll_get op.at_ r.id ids m.table hr
  | projectCreate slug =>
    rw [hk] at h
    dsimp only at h ⊢
    split at h
    · cases h
    · obtain rfl := Except.ok.inj h
      exact hr

/-! ## The funnel -/

section
variable {V : Type} {S : Settings} {T : OpText} {D : Digest} {w : Draw V} {x x' : Ctx V} {op : Op}
  {fromCurator : Bool} {d : Disk} {e : Option Err}

@[simp] theorem Op.timed_kind (op : Op) (now : Int) : (op.timed now).kind = op.kind := by
  unfold timed
  split <;> rfl

theorem storeApplyIn_ok {nomem : Bool} {m m' : Memory} (h : storeApplyIn nomem m op = .ok m') :
    storeApply m op = .ok m' := by
  unfold storeApplyIn at h
  split at h
  · cases h
  · next hm =>
    split at h
    · cases h
    · rw [hm, Except.ok.inj h]

/-- What the calls of the funnel leave alone. -/
structure SameStore (x x' : Ctx V) : Prop where
  memory : x'.memory = x.memory
  index : x'.index = x.index

/-- **A call of the funnel** either fails and changes neither memory nor index, or the operation
passed the checks and was applied. -/
theorem applyOp_inv (h : (applyOp S T D w x op fromCurator).result d = .ok (x', e)) :
    x'.knowledge = x.knowledge ∧ x'.receipt = x.receipt ∧
    ((e ≠ none ∧ SameStore x x') ∨
      (e = none ∧ (∃ t, applyValidate S x.memory fromCurator op.kind = .ok t) ∧
        storeApply x.memory (op.timed w.now) = .ok x'.memory)) := by
  unfold applyOp at h
  split at h
  · cases h
    exact ⟨rfl, rfl, .inl ⟨Option.some_ne_none _, rfl, rfl⟩⟩
  · next t ht =>
    have hv : ∃ t, applyValidate S x.memory fromCurator op.kind = .ok t := by
      cases hg : knowledgeGuard x with
      | error e =>
        rw [hg] at ht
        cases ht
      | ok u =>
        rw [hg] at ht
        exact ⟨t, ht⟩
    unfold applyValid at h
    obtain ⟨r, -, hr⟩ := Act.bind_eq_ok h
    obtain ⟨j, e'⟩ := r
    cases e' with
    | some e' =>
      cases hr
      exact ⟨rfl, rfl, .inl ⟨Option.some_ne_none _, rfl, rfl⟩⟩
    | none =>
      dsimp only at hr
      split at hr
      · cases hr
        exact ⟨rfl, rfl, .inl ⟨Option.some_ne_none _, rfl, rfl⟩⟩
      · next m hm =>
        cases hr
        exact ⟨rfl, rfl, .inr ⟨rfl, hv, storeApplyIn_ok hm⟩⟩

/-- A record is still there after a call, changed as the operation says if the call succeeded. -/
theorem applyOp_get (h : (applyOp S T D w x op fromCurator).result d = .ok (x', e)) {id : Bytes}
    {r : Record} (hr : x.memory.table.get id = some r) :
    x'.memory.table.get id = some (if e = none then (op.timed w.now).on r else r) := by
  obtain ⟨-, -, ⟨he, hs⟩ | ⟨he, -, ha⟩⟩ := applyOp_inv h
  · rw [if_neg he, hs.memory, hr]
  · rw [if_pos he]
    exact storeApply_get ha hr

end

/-! ## The calls of the host -/

theorem insertOp_kind {active : ActiveProject} {now : Int} {id : Uuid} {section_ : Int}
    {project : Option CStr} {content : CStr} {locked : Bool} {evidence : Option EvidenceInput}
    {op : Op} (h : insertOp active now id section_ project content locked evidence = .ok op) :
    ∃ r, op.kind = .insert r := by
  unfold insertOp at h
  obtain ⟨ev, -, h⟩ := except_bind_ok h
  split at h
  · cases h
  · split at h
    · cases h
    · obtain ⟨p, -, h⟩ := except_bind_ok h
      cases h
      exact ⟨_, rfl⟩

theorem updateCall_kind {active : ActiveProject} {now : Int} {id content : CStr} {op : Op}
    (h : (HostCall.update id content).op active now = .ok op) :
    op.kind = .update id.val content.val true := by
  unfold HostCall.op at h
  dsimp only at h
  split at h
  · rw [← Except.ok.inj h]
  · cases h

theorem deprecateCall_kind {active : ActiveProject} {now : Int} {id : CStr} {reason : Option CStr}
    {op : Op} (h : (HostCall.setDeprecated id reason).op active now = .ok op) :
    op.kind = .setDeprecated id.val (reason.map (·.val)) := by
  unfold HostCall.op at h
  dsimp only at h
  split at h
  · rw [← Except.ok.inj h]
  · cases h

theorem lockCall_kind {active : ActiveProject} {now : Int} {id : CStr} {value : Bool} {op : Op}
    (h : (HostCall.setLocked id value).op active now = .ok op) :
    op.kind = .setLocked id.val value := by
  unfold HostCall.op at h
  dsimp only at h
  split at h
  · rw [← Except.ok.inj h]
  · cases h

/-! ## Evidence -/

/-- The kind of a record's evidence is changed by a new text only. -/
theorem Op.on_evidence (op : Op) (r : Record) : (op.on r).evidence.kind =
    match op.kind with
    | .update id _ declared =>
      if r.id = id then if declared then .declared else .inferred else r.evidence.kind
    | _ => r.evidence.kind := by
  unfold on
  cases op.kind with
  | update id content declared =>
    dsimp only
    split <;> rfl
  | setDeprecated id reason =>
    dsimp only
    split
    · unfold Record.deprecatedBy
      split <;> rfl
    · rfl
  | keep id =>
    dsimp only
    split <;> rfl
  | setLocked id value =>
    dsimp only
    split <;> rfl
  | access ids =>
    dsimp only
    generalize ids.count r.id = n
    induction n generalizing r with
    | zero => rfl
    | succ n ih => exact (ih (r.accessed op.at_)).trans rfl
  | _ => rfl

end Asper
