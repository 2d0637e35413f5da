import Asper.Record.Proof.Codec
import Asper.Record.Proof.Funnel
import Asper.Record.Runs

/-! # Records that can be stored

`storeApply_effect` says what an operation makes of every id. `storeApply_storable`: records as the
format holds them (`Record.Storable`) stay so under every operation that passed its checks. -/

namespace Asper

open Durable

/-! ## Relevance -/

theorem roundHalfEven_nonneg {q : ℚ} (h : 0 ≤ q) : 0 ≤ roundHalfEven q := by
  have hfloor : 0 ≤ ⌊q⌋ := Int.floor_nonneg.2 h
  unfold roundHalfEven
  split
  · exact hfloor
  · split
    · omega
    · split
      · exact hfloor
      · omega

theorem roundDouble_nonneg {q : ℚ} (h : 0 ≤ q) : 0 ≤ roundDouble q := by
  unfold roundDouble
  split
  · exact le_refl 0
  · have hpow : (0 : ℚ) < 2 ^ (Int.log 2 |q| - 52) :=
      zpow_pos (by norm_num) _
    have hround := roundHalfEven_nonneg (div_nonneg h hpow.le)
    exact mul_nonneg (by exact_mod_cast hround) hpow.le

theorem boosted_unit {x : ℚ} (h : 0 ≤ x) : 0 ≤ boosted x ∧ boosted x ≤ 1 := by
  have hstep : 0 ≤ roundDouble (1 / 20) := roundDouble_nonneg (by norm_num)
  unfold boosted
  split
  · exact ⟨zero_le_one, le_refl 1⟩
  · next hle => exact ⟨roundDouble_nonneg (add_nonneg h hstep), not_lt.1 hle⟩

/-! ## One record -/

section
variable {r : Record} {at_ : Int}

theorem updatedEvidence_storable {e : Evidence} (h : e.Storable) (hat : 0 < at_) (declared : Bool) :
    (updatedEvidence e at_ declared).Storable where
  confidence := by
    show 0 ≤ (if declared then (1 : ℚ) else 1 / 2) ∧ (if declared then (1 : ℚ) else 1 / 2) ≤ 1
    cases declared <;> norm_num
  observed := hat.le
  expires := by
    have hexpires := h.expires.1
    unfold updatedEvidence days
    cases declared with
    | true => exact ⟨le_refl _, fun hk => by cases hk⟩
    | false =>
      show 0 ≤ (if e.expiresAt ≠ 0 then e.expiresAt else at_ + 30 * 86400) ∧
        (_ → (if e.expiresAt ≠ 0 then e.expiresAt else at_ + 30 * 86400) ≠ 0)
      split
      · next hne => exact ⟨hexpires, fun _ => hne⟩
      · exact ⟨by omega, fun _ => by omega⟩
  provenance := by
    have htexts : ∀ b : Bool,
        0 ∉ (if b then ascii "user:manual-update" else ascii "curator:unverified-update") ∧
        (if b then ascii "user:manual-update" else ascii "curator:unverified-update").length < 256 := by
      decide
    exact htexts declared
  workspace := ⟨List.not_mem_nil, (by decide : 0 < 1024)⟩
  commit := ⟨List.not_mem_nil, (by decide : 0 < 65)⟩

theorem Record.updated_storable (h : r.Storable) (hat : 0 < at_) (hd : Dated at_) {content : Bytes}
    (hc : 0 ∉ content ∧ strBlank content = false) (declared : Bool) :
    (r.updated at_ content declared).Storable :=
  { h with content := hc, evidence := updatedEvidence_storable h.evidence hat declared, updated := hd
           sourceRefs := fun _ hs => absurd hs List.not_mem_nil }

theorem Record.deprecatedBy_storable (h : r.Storable) (hat : 0 < at_) (hd : Dated at_) :
    (r.deprecatedBy at_).Storable := by
  unfold Record.deprecatedBy
  split
  · exact h
  · exact { h with deprecatedAt := ⟨hd, hat.ne'⟩ }

theorem Record.kept_storable (h : r.Storable) (hd : Dated at_) : (r.kept at_).Storable := by
  refine { h with accessed := hd, relevance := boosted_unit h.relevance.1, deprecatedAt := ?_ }
  have hold := h.deprecatedAt
  show (if r.deprecated then 0 else r.deprecatedAt) = 0
  cases hr : r.deprecated with
  | true => rfl
  | false =>
    rw [hr] at hold
    exact hold

theorem Record.withLocked_storable (h : r.Storable) (value : Bool) :
    (r.withLocked value).Storable := { h with }

theorem Record.accessed_storable (h : r.Storable) (hd : Dated at_) :
    (r.accessed at_).Storable :=
  { h with accessed := hd, relevance := boosted_unit h.relevance.1
           count := Nat.mod_lt _ (by decide) }

theorem Record.accesses_storable (h : r.Storable) (hd : Dated at_) (n : Nat) :
    ((·.accessed at_)^[n] r).Storable := by
  induction n generalizing r with
  | zero => exact h
  | succ n ih => exact ih (accessed_storable h hd)

end

/-! ## The table -/

/-- What an operation makes of the record with the id `id`. -/
def Op.effect (op : Op) (id : Bytes) (old : Option Record) : Option Record :=
  match op.kind with
  | .insert r => if id = r.id then some r else old
  | _ => old.map op.on

/-- A record changed in place, seen from its id. -/
theorem Table.get_modify_on (t : Table) (i : Bytes) {f : Record → Record}
    (hf : ∀ r, (f r).id = r.id) (id : Bytes) : (t.modify i f hf).get id =
      (t.get id).map fun r => if r.id = i then f r else r := by
  rw [Table.get_modify]
  cases hg : t.get id with
  | none => rfl
  | some r => rw [Option.map_some, Option.map_some, Table.get_id hg]

theorem accessAll_none {at_ : Int} {id : Bytes} {ids : List Bytes} {t : Table}
    (h : t.get id = none) : (accessAll at_ t ids).get id = none := by
  induction ids generalizing t with
  | nil => exact h
  | cons i ids ih =>
    refine ih ?_
    rw [Table.get_modify, h]
    rfl

/-- **What an operation makes of every id.** -/
theorem storeApply_effect {m m' : Memory} {op : Op} (h : storeApply m op = .ok m') (id : Bytes) :
    m'.table.get id = op.effect id (m.table.get id) := by
  unfold Op.effect
  cases hg : m.table.get id with
  | some r =>
    have hr := storeApply_get h hg
    cases hk : op.kind with
    | insert x =>
      have hadd : ∃ t, m.table.add x = .ok t := by
        unfold storeApply at h
        rw [hk] at h
        dsimp only at h
        split at h
        · cases h
        · next t ht => exact ⟨t, ht⟩
      obtain ⟨t, ht⟩ := hadd
      have hne : id ≠ x.id := by
        intro he
        rw [he, Table.get_add_self ht] at hg
        cases hg
      have hsame : op.on r = r := by
        unfold Op.on
        rw [hk]
      rw [hr, hsame]
      exact (if_neg hne).symm
    | _ => exact hr
  | none =>
    unfold storeApply at h
    cases hk : op.kind with
    | insert x =>
      rw [hk] at h
      dsimp only at h ⊢
      split at h
      · cases h
      · next t ht =>
        obtain rfl := Except.ok.inj h
        rw [Table.get_add ht, hg]
    | update i content declared =>
      rw [hk] at h
      dsimp only at h
      split at h
      · cases h
      · split at h
        · cases h
        · obtain rfl := Except.ok.inj h
          rw [Table.get_modify, hg]
          rfl
    | access ids =>
      rw [hk] at h
      obtain rfl := Except.ok.inj h
      exact accessAll_none hg
    | projectCreate slug =>
      rw [hk] at h
      dsimp only at h
      split at h
      · cases h
      · obtain rfl := Except.ok.inj h
        exact hg
    | _ =>
      rw [hk] at h
      dsimp only at h
      split at h
      · cases h
      · obtain rfl := Except.ok.inj h
        rw [Table.get_modify, hg]
        rfl

/-- Every record after an operation was there or was inserted. -/
theorem storeApply_mem {m m' : Memory} {op : Op} (h : storeApply m op = .ok m') {r' : Record}
    (hr : r' ∈ m'.table.recs) :
    op.kind = .insert r' ∨ ∃ r ∈ m.table.recs, r' = op.on r := by
  have heffect := storeApply_effect h r'.id
  rw [Table.get_self hr] at heffect
  have hold : (m.table.get r'.id).map op.on = some r' →
      ∃ r ∈ m.table.recs, r' = op.on r := by
    intro hmap
    obtain ⟨r, hg, hon⟩ := Option.map_eq_some_iff.1 hmap
    exact ⟨r, (Table.get_eq_some.1 hg).1, hon.symm⟩
  cases hk : op.kind with
  | insert x =>
    simp only [Op.effect, hk] at heffect
    by_cases hid : r'.id = x.id
    · rw [if_pos hid] at heffect
      exact .inl (by rw [Option.some.inj heffect])
    · rw [if_neg hid] at heffect
      refine .inr ⟨r', (Table.get_eq_some.1 heffect.symm).1, ?_⟩
      unfold Op.on
      rw [hk]
  | _ =>
    simp only [Op.effect, hk] at heffect
    exact .inr (hold heffect.symm)

/-! ## What an operation keeps -/

section
variable {S : Settings} {m m' : Memory} {op : Op} {fromCurator : Bool} {t : Option Record}

theorem contentCheck_ok {content : Bytes} (h : contentCheck S content = .ok ()) :
    strBlank content = false ∧ utf8Valid content = true := by
  unfold contentCheck at h
  split at h
  · cases h
  · next hb =>
    split at h
    · cases h
    · next n hn =>
      refine ⟨(Bool.not_eq_true _).mp hb, ?_⟩
      rw [utf8Valid, hn]
      rfl

/-- The text of an update that passed the checks. -/
theorem applyValidate_update {id content : Bytes} {declared : Bool}
    (h : applyValidate S m fromCurator (.update id content declared) = .ok t) :
    strBlank content = false ∧ utf8Valid content = true := by
  obtain ⟨r, hr, -⟩ := except_map_ok h
  obtain ⟨⟨⟩, hc, -⟩ := except_bind_ok hr
  exact contentCheck_ok hc

theorem insertValidate_ok {r : Record} (h : insertValidate S m r = .ok ()) :
    contentCheck S r.content = .ok () ∧ projectCheck m r = .ok () := by
  unfold insertValidate at h
  dsimp only at h
  by_cases hid : uuidValid r.id = false
  · rw [if_pos hid] at h
    cases h
  · rw [if_neg hid] at h
    obtain ⟨⟨⟩, hc, h⟩ := except_bind_ok h
    obtain ⟨⟨⟩, hp, -⟩ := except_bind_ok h
    exact ⟨hc, hp⟩

/-- The project of an insert that passed the checks is in the registry. -/
theorem projectCheck_known {r : Record} (h : projectCheck m r = .ok ()) {slug : Bytes}
    (hs : r.project = some slug) : slug ∈ m.projects.slugs := by
  unfold projectCheck at h
  rw [hs] at h
  cases hsec : r.section_ with
  | project =>
    rw [hsec] at h
    dsimp only at h
    split at h
    · cases h
    · split at h
      · next hk => exact Projects.known_iff.1 hk
      · cases h
  | identity =>
    rw [hsec] at h
    cases h
  | context =>
    rw [hsec] at h
    cases h

/-- A record is changed to one that can be stored. -/
theorem Op.on_storable {r : Record} (h : r.Storable) (hop : op.Storable) (hat : 0 < op.at_)
    (hv : applyValidate S m fromCurator op.kind = .ok t) : (op.on r).Storable := by
  have hkind := hop.kind
  unfold Op.on
  cases hk : op.kind with
  | update id content declared =>
    rw [hk] at hv hkind
    dsimp only
    split
    · exact Record.updated_storable h hat hop.at_ ⟨hkind.2, (applyValidate_update hv).1⟩ declared
    · exact h
  | setDeprecated id reason =>
    dsimp only
    split
    · exact Record.deprecatedBy_storable h hat hop.at_
    · exact h
  | keep id =>
    dsimp only
    split
    · exact Record.kept_storable h hop.at_
    · exact h
  | setLocked id value =>
    dsimp only
    split
    · exact Record.withLocked_storable h value
    · exact h
  | access ids => exact Record.accesses_storable h hop.at_ _
  | _ => exact h

/-- No operation moves a record to another place. -/
theorem Op.on_project (op : Op) (r : Record) : (op.on r).project = r.project := by
  unfold on
  cases op.kind with
  | setDeprecated id reason =>
    dsimp only
    split
    · unfold Record.deprecatedBy
      split <;> rfl
    · rfl
  | access ids =>
    dsimp only
    generalize ids.count r.id = n
    induction n generalizing r with
    | zero => rfl
    | succ n ih => exact (ih (r.accessed op.at_)).trans rfl
  | insert x => rfl
  | projectCreate slug => rfl
  | _ =>
    dsimp only
    split <;> rfl

/-- **Records stay storable** under an operation that passed its checks. -/
theorem storeApply_storable (h : ∀ r ∈ m.table.recs, r.Storable) (hop : op.Storable)
    (hat : 0 < op.at_) (hv : applyValidate S m fromCurator op.kind = .ok t)
    (ha : storeApply m op = .ok m') : ∀ r ∈ m'.table.recs, r.Storable := by
  intro r' hr'
  rcases storeApply_mem ha hr' with hk | ⟨r, hr, rfl⟩
  · have hkind := hop.kind
    rw [hk] at hkind
    exact hkind
  · exact Op.on_storable (h r hr) hop hat hv

end

/-! ## Two memories that agree -/

/-- The same records and the same projects, the records in any order. -/
structure Memory.Same (m l : Memory) : Prop where
  get : ∀ id, m.table.get id = l.table.get id
  projects : m.projects = l.projects

section
variable {m l k : Memory}

theorem Memory.Same.refl (m : Memory) : m.Same m := ⟨fun _ => rfl, rfl⟩

theorem Memory.Same.symm (h : m.Same l) : l.Same m := ⟨fun id => (h.get id).symm, h.projects.symm⟩

theorem Memory.Same.trans (h : m.Same l) (h' : l.Same k) : m.Same k :=
  ⟨fun id => (h.get id).trans (h'.get id), h.projects.trans h'.projects⟩

theorem Memory.Same.mem (h : m.Same l) {r : Record} : r ∈ m.table.recs ↔ r ∈ l.table.recs := by
  have hget := h.get r.id
  constructor
  · intro hr
    rw [Table.get_self hr] at hget
    exact (Table.get_eq_some.1 hget.symm).1
  · intro hr
    rw [Table.get_self hr] at hget
    exact (Table.get_eq_some.1 hget).1

theorem Table.nodup_recs (t : Table) : t.recs.Nodup := t.nodup.of_map _

theorem Memory.Same.perm (h : m.Same l) : m.table.recs.Perm l.table.recs :=
  (List.perm_ext_iff_of_nodup m.table.nodup_recs l.table.nodup_recs).2 fun _ => h.mem

/-- A record is added where its id is new and there is room. -/
theorem Table.add_ok {t : Table} {r : Record} (hid : r.id ≠ []) (hnew : t.get r.id = none)
    (hroom : t.recs.length < recordLimit) : ∃ t', t.add r = .ok t' := by
  have hmem : r.id ∉ t.recs.map (·.id) := by
    intro hm
    obtain ⟨x, hx, hxr⟩ := List.mem_map.1 hm
    rw [← hxr, Table.get_self hx] at hnew
    cases hnew
  unfold Table.add
  rw [dif_neg hid, dif_neg hmem, if_neg (Nat.not_le.2 hroom)]
  exact ⟨_, rfl⟩

theorem Table.add_inv {t t' : Table} {r : Record} (h : t.add r = .ok t') :
    r.id ≠ [] ∧ t.get r.id = none ∧ t.recs.length < recordLimit := by
  have hself := Table.get_add_self h
  unfold Table.add at h
  split at h
  · cases h
  · next hid =>
    split at h
    · cases h
    · split at h
      · cases h
      · next hroom => exact ⟨hid, hself, Nat.lt_of_not_le hroom⟩

end

end Asper
