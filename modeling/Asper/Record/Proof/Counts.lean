import Asper.Record.Proof.Snapshot
import Asper.Record.Runs
import Mathlib.Logic.Relation

/-! # Access counts over a run

`Memory.counts` is what a store counts: a number for each record. An operation moves the counts by
its kind alone (`storeApply_counts`), the operation that replay reads back moves them alike
(`opFromNode_count`), and the files of a compaction hold those of the records that stay. -/

namespace Asper

open Durable

/-- The count of the record with this id. -/
def Table.counts (t : Table) (id : Bytes) : Option Nat := (t.get id).map (·.accessCount)

def Memory.counts (m : Memory) : Bytes → Option Nat := m.table.counts

/-- `access_count++` on a `uint32_t`. -/
def bump (n : Nat) : Nat := (n + 1) % 2 ^ 32

/-- What an operation does to the counts. -/
def OpKind.count (k : OpKind) (f : Bytes → Option Nat) : Bytes → Option Nat :=
  match k with
  | .insert r => Function.update f r.id (some r.accessCount)
  | .access ids => fun id => (f id).map bump^[ids.count id]
  | _ => f

theorem Table.counts_iff {t : Table} {id : Bytes} {n : Nat} :
    t.counts id = some n ↔ ∃ r ∈ t.recs, r.id = id ∧ r.accessCount = n := by
  rw [counts, Option.map_eq_some_iff]
  simp only [get_eq_some, and_assoc]

/-! ## Operations -/

theorem Table.add_counts {t t' : Table} {r : Record} (h : t.add r = .ok t') :
    t'.counts = Function.update t.counts r.id (some r.accessCount) := by
  funext id
  rw [counts, Table.get_add h]
  by_cases hid : id = r.id
  · rw [if_pos hid, hid, Function.update_self, Option.map_some]
  · rw [if_neg hid, Function.update_of_ne hid, counts]

theorem Table.modify_counts (t : Table) (id : Bytes) {f : Record → Record}
    (hf : ∀ r, (f r).id = r.id) (hc : ∀ r, (f r).accessCount = r.accessCount) :
    (t.modify id f hf).counts = t.counts := by
  funext id'
  rw [counts, Table.get_modify, Option.map_map, counts]
  congr 1
  funext r
  by_cases hid : id' = id <;> simp [hid, hc]

theorem accessAll_counts (at_ : Int) (ids : List Bytes) (t : Table) (id : Bytes) :
    (accessAll at_ t ids).counts id = (t.counts id).map bump^[ids.count id] := by
  induction ids generalizing t with
  | nil =>
    show t.counts id = _
    cases t.counts id <;> rfl
  | cons i ids ih =>
    have hstep : (t.modify i (·.accessed at_) (Record.accessed_id · at_)).counts id =
        (t.counts id).map fun n => if id = i then bump n else n := by
      rw [Table.counts, Table.get_modify, Option.map_map, Table.counts, Option.map_map]
      congr 1
      funext r
      by_cases hid : id = i <;> simp [hid, Record.accessed, bump]
    show (accessAll at_ (t.modify i (·.accessed at_) (Record.accessed_id · at_)) ids).counts id = _
    rw [ih, hstep, Option.map_map]
    congr 1
    funext n
    by_cases hid : id = i
    · rw [Function.comp, if_pos hid, hid, List.count_cons_self]
      rfl
    · rw [Function.comp, if_neg hid, List.count_cons_of_ne (Ne.symm hid)]

/-- **An operation moves the counts** by its kind. -/
theorem storeApply_counts {m m' : Memory} {op : Op} (h : storeApply m op = .ok m') :
    m'.counts = op.kind.count m.counts := by
  unfold storeApply at h
  cases hk : op.kind with
  | insert r =>
    rw [hk] at h
    dsimp only at h
    split at h
    · cases h
    · next t ht =>
      obtain rfl := Except.ok.inj h
      exact Table.add_counts ht
  | update id content declared =>
    rw [hk] at h
    dsimp only at h
    split at h
    · cases h
    · split at h
      · cases h
      · obtain rfl := Except.ok.inj h
        exact m.table.modify_counts id (Record.updated_id · op.at_ content declared) fun _ => rfl
  | setDeprecated id reason =>
    rw [hk] at h
    dsimp only at h
    split at h
    · cases h
    · obtain rfl := Except.ok.inj h
      refine m.table.modify_counts id (Record.deprecatedBy_id · op.at_) fun r => ?_
      unfold Record.deprecatedBy
      split <;> rfl
  | keep id =>
    rw [hk] at h
    dsimp only at h
    split at h
    · cases h
    · obtain rfl := Except.ok.inj h
      exact m.table.modify_counts id (Record.kept_id · op.at_) fun _ => rfl
  | setLocked id value =>
    rw [hk] at h
    dsimp only at h
    split at h
    · cases h
    · obtain rfl := Except.ok.inj h
      exact m.table.modify_counts id (Record.withLocked_id · value) fun _ => rfl
  | access ids =>
    rw [hk] at h
    obtain rfl := Except.ok.inj h
    funext id
    exact accessAll_counts op.at_ ids m.table id
  | projectCreate slug =>
    rw [hk] at h
    dsimp only at h
    split at h
    · cases h
    · obtain rfl := Except.ok.inj h
      rfl

/-! ## Reading -/

/-- The tree tells the id and the count of `r`. -/
structure Tells (obj : XValue) (r : Record) : Prop where
  id : (objField obj (ascii "id")).bind valUuid37 = some r.id
  count : fieldOr obj (ascii "access_count") 0 readCount = some r.accessCount

theorem Tells.same {obj : XValue} {r r' : Record} (h : Tells obj r) (h' : Tells obj r') :
    r.id = r'.id ∧ r.accessCount = r'.accessCount :=
  ⟨Option.some.inj (h.id.symm.trans h'.id), Option.some.inj (h.count.symm.trans h'.count)⟩

theorem parseRecord_tells {obj : XValue} {now : Int} {r : Record}
    (h : parseRecord obj now = some r) : Tells obj r := by
  unfold parseRecord at h
  obtain ⟨id, hid, h⟩ := Option.bind_eq_some_iff.1 h
  obtain ⟨_, -, h⟩ := Option.bind_eq_some_iff.1 h
  obtain ⟨_, -, h⟩ := Option.bind_eq_some_iff.1 h
  obtain ⟨_, -, h⟩ := Option.bind_eq_some_iff.1 h
  obtain ⟨_, -, h⟩ := Option.bind_eq_some_iff.1 h
  obtain ⟨_, -, h⟩ := Option.bind_eq_some_iff.1 h
  obtain ⟨_, -, h⟩ := Option.bind_eq_some_iff.1 h
  obtain ⟨_, -, h⟩ := Option.bind_eq_some_iff.1 h
  obtain ⟨_, -, h⟩ := Option.bind_eq_some_iff.1 h
  obtain ⟨_, -, h⟩ := Option.bind_eq_some_iff.1 h
  obtain ⟨_, -, h⟩ := Option.bind_eq_some_iff.1 h
  obtain ⟨count, hcount, h⟩ := Option.bind_eq_some_iff.1 h
  obtain ⟨_, -, h⟩ := Option.bind_eq_some_iff.1 h
  obtain ⟨_, -, h⟩ := Option.bind_eq_some_iff.1 h
  obtain ⟨_, -, h⟩ := Option.bind_eq_some_iff.1 h
  obtain ⟨_, -, h⟩ := Option.bind_eq_some_iff.1 h
  obtain ⟨_, -, h⟩ := Option.bind_eq_some_iff.1 h
  obtain rfl := Option.some.inj h
  exact ⟨hid, hcount⟩

theorem recordFromNode_tells {now : Int} {n : XNode} {r : Record}
    (h : recordFromNode now n = .ok r) : Tells n.value r := by
  unfold recordFromNode at h
  split at h
  · next entries he =>
    rw [he]
    cases hp : parseRecord (.object entries) now with
    | none =>
      rw [hp] at h
      cases h
    | some r' =>
      rw [hp] at h
      obtain rfl := Except.ok.inj h
      exact parseRecord_tells hp
  · cases h

theorem readCount_lt {v : XValue} {n : Nat} (h : readCount v = some n) : n < 2 ^ 32 := by
  cases v with
  | int i =>
    obtain rfl := Option.some.inj h
    split
    · decide
    · split <;> omega
  | _ => cases h

theorem toLower_hex {b : UInt8} (h : isHex b = true) : isLowerHex (toLower b) = true := by
  have key : ∀ n : Fin 256, isHex (UInt8.ofNat n) = true →
      isLowerHex (toLower (UInt8.ofNat n)) = true := by decide +kernel
  have hb := key ⟨b.toNat, b.toNat_lt⟩
  rw [UInt8.ofNat_toNat] at hb
  exact hb h

theorem shapeAux_lower : ∀ {ds : List Bool} {s : Bytes}, shapeAux isHex ds s = true →
    shapeAux isLowerHex ds (s.map toLower) = true
  | [], [], _ => rfl
  | dash :: ds, b :: s, h => by
    simp only [shapeAux, Bool.and_eq_true] at h
    simp only [List.map_cons, shapeAux, Bool.and_eq_true]
    refine ⟨?_, shapeAux_lower h.2⟩
    cases dash with
    | true =>
      obtain rfl : b = 45 := of_decide_eq_true h.1
      rfl
    | false => exact toLower_hex h.1

theorem valUuid37_lowerId {v : XValue} {s : Bytes} (h : valUuid37 v = some s) : LowerId s := by
  cases v with
  | uuid t =>
    unfold valUuid37 at h
    dsimp only at h
    split at h
    · next hv =>
      rw [← Option.some.inj h]
      exact shapeAux_lower hv
    · cases h
  | _ => cases h

/-- A record that was read has a lowercase id and a count of 32 bits. -/
structure Record.Countable (r : Record) : Prop where
  id : LowerId r.id
  count : r.accessCount < 2 ^ 32

theorem Tells.countable {obj : XValue} {r : Record} (h : Tells obj r) : r.Countable where
  id := by
    obtain ⟨v, -, hv⟩ := Option.bind_eq_some_iff.1 h.id
    exact valUuid37_lowerId hv
  count := by
    have hc := h.count
    unfold fieldOr at hc
    cases hf : objField obj (ascii "access_count") with
    | none =>
      rw [hf] at hc
      rw [← Option.some.inj hc]
      decide
    | some v =>
      rw [hf] at hc
      exact readCount_lt hc

theorem Record.Countable.tells {r : Record} (h : r.Countable) (esc : UInt8 → Bytes) :
    Tells ((recordBuildNode r).read esc).value r := by
  have hvalue : ((recordBuildNode r).read esc).value = readRecord esc r := read_value esc _
  rw [hvalue]
  exact ⟨readRecord_id h.id, readRecord_count h.count⟩

/-- A record keeps its id and its count from being written to being read. -/
theorem ReadBack.same {esc : UInt8 → Bytes} {now : Int} {r r' : Record} (h : r.Countable)
    (hb : ReadBack esc now r r') : r.id = r'.id ∧ r.accessCount = r'.accessCount :=
  (h.tells esc).same (recordFromNode_tells hb)

/-! ## Decoding at two times -/

theorem opFromNode_ok {now : Int} {n : XNode} {op : Op} (h : opFromNode now n = .ok op) :
    ∃ name, ((objField n.value (ascii "kind")).bind valStr).map (·.val) = some name ∧
      opKindFromNode now n.value name = .ok op.kind := by
  unfold opFromNode at h
  split at h
  · next entries he =>
    split at h
    · next name at_ hname hat =>
      obtain ⟨kind, hkind, rfl⟩ := except_map_ok h
      refine ⟨name.val, ?_, ?_⟩
      · rw [he, hname]
        rfl
      · rw [he]
        exact hkind
    · cases h
  · cases h

/-- The time of reading does not show in what an operation does to the counts. -/
theorem opKindFromNode_count {now now' : Int} {obj : XValue} {name : Bytes} {k k' : OpKind}
    (h : opKindFromNode now obj name = .ok k) (h' : opKindFromNode now' obj name = .ok k') :
    k.count = k'.count := by
  unfold opKindFromNode at h h'
  split at h
  · next hname =>
    rw [if_pos hname] at h'
    cases hr : objectGet obj (ascii "record") with
    | none =>
      rw [hr] at h
      cases h
    | some n =>
      rw [hr] at h h'
      obtain ⟨r, hr, rfl⟩ := except_map_ok h
      obtain ⟨r', hr', rfl⟩ := except_map_ok h'
      obtain ⟨hid, hcount⟩ := (recordFromNode_tells hr).same (recordFromNode_tells hr')
      funext f
      show Function.update f r.id (some r.accessCount) = Function.update f r'.id _
      rw [hid, hcount]
  · next hname =>
    rw [if_neg hname] at h'
    rw [Except.ok.inj (h.symm.trans h')]

theorem opFromNode_count {now now' : Int} {n : XNode} {op op' : Op} (h : opFromNode now n = .ok op)
    (h' : opFromNode now' n = .ok op') : op.kind.count = op'.kind.count := by
  obtain ⟨name, hname, hk⟩ := opFromNode_ok h
  obtain ⟨name', hname', hk'⟩ := opFromNode_ok h'
  rw [Option.some.inj (hname'.symm.trans hname)] at hk'
  exact opKindFromNode_count hk hk'

section
variable {X : XcdnText} {now now' : Int}

theorem opParse_ok {text : Bytes} {op : Op} (h : opParse X now text = .ok op) :
    ∃ n, X.parse text = some [n] ∧ opFromNode now n = .ok op := by
  unfold opParse at h
  split at h
  · next n hn =>
    split at h
    · exact ⟨n, hn, h⟩
    · cases h
  · cases h

theorem opParse_count {text : Bytes} {op op' : Op} (h : opParse X now text = .ok op)
    (h' : opParse X now' text = .ok op') : op.kind.count = op'.kind.count := by
  obtain ⟨n, hn, hop⟩ := opParse_ok h
  obtain ⟨n', hn', hop'⟩ := opParse_ok h'
  obtain rfl := (List.singleton_inj.1 (Option.some.inj (hn'.symm.trans hn)))
  exact opFromNode_count hop hop'

end

/-- The record of an insert is as one that was read. -/
def OpKind.Countable : OpKind → Prop
  | .insert r => r.Countable
  | _ => True

theorem OpKind.Issued.countable {k : OpKind} (h : k.Issued) : k.Countable := by
  cases k with
  | insert r => exact ⟨h.1, by rw [h.2]; decide⟩
  | _ => trivial

/-- What is parsed by name is no insert, and an access by its name only. -/
theorem parseKind_count {obj : XValue} {name : Bytes} {k : OpKind}
    (h : parseKind obj name = some k) : (name ≠ ascii "access" → k.count = id) ∧ k.Countable := by
  unfold parseKind at h
  split at h
  · unfold parseUpdate at h
    obtain ⟨_, -, h⟩ := Option.bind_eq_some_iff.1 h
    obtain ⟨_, -, h⟩ := Option.bind_eq_some_iff.1 h
    obtain ⟨_, -, h⟩ := Option.bind_eq_some_iff.1 h
    rw [← Option.some.inj h]
    exact ⟨fun _ => rfl, trivial⟩
  · split at h
    · obtain ⟨_, -, h⟩ := Option.bind_eq_some_iff.1 h
      obtain ⟨_, -, h⟩ := Option.bind_eq_some_iff.1 h
      rw [← Option.some.inj h]
      exact ⟨fun _ => rfl, trivial⟩
    · split at h
      · obtain ⟨_, -, rfl⟩ := Option.map_eq_some_iff.1 h
        exact ⟨fun _ => rfl, trivial⟩
      · split at h
        · obtain ⟨_, -, h⟩ := Option.bind_eq_some_iff.1 h
          obtain ⟨_, -, h⟩ := Option.bind_eq_some_iff.1 h
          rw [← Option.some.inj h]
          exact ⟨fun _ => rfl, trivial⟩
        · split at h
          · next hname =>
            obtain ⟨_, -, rfl⟩ := Option.map_eq_some_iff.1 h
            exact ⟨fun hne => absurd hname hne, trivial⟩
          · split at h
            · obtain ⟨_, -, rfl⟩ := Option.map_eq_some_iff.1 h
              exact ⟨fun _ => rfl, trivial⟩
            · cases h

theorem opKindFromNode_uncounted {now : Int} {obj : XValue} {name : Bytes} {k : OpKind}
    (h : opKindFromNode now obj name = .ok k)
    (hname : name ∈ [ascii "update", ascii "deprecate", ascii "keep", ascii "set_locked",
      ascii "project_create"]) : k.count = id := by
  have hother : ∀ s ∈ [ascii "update", ascii "deprecate", ascii "keep", ascii "set_locked",
      ascii "project_create"], s ≠ ascii "insert" ∧ s ≠ ascii "access" := by decide
  obtain ⟨hi, ha⟩ := hother name hname
  rw [opKindFromNode, if_neg hi] at h
  cases hp : parseKind obj name with
  | none =>
    rw [hp] at h
    cases h
  | some k' =>
    rw [hp] at h
    obtain rfl := Except.ok.inj h
    exact (parseKind_count hp).1 ha

/-- **What an issued operation does to the counts** is read back. -/
theorem opFromNode_issued {esc : UInt8 → Bytes} {now : Int} {op op' : Op} (hop : op.kind.Issued)
    (h : opFromNode now ((opBuildNode op).read esc) = .ok op') :
    op'.kind.count = op.kind.count := by
  have hvalue : ((opBuildNode op).read esc).value = readOp esc op := read_value esc _
  have hname : ((objField (readOp esc op) (ascii "kind")).bind valStr).map (·.val) =
      some op.kind.name := by
    rw [readOp_at esc op 0 rfl (by decide)]
    show some (cstr (literalText esc op.kind.name)).val = _
    rw [literalText_self esc op.kind.name_unescaped, cstr_name op.kind.name_unescaped]
  obtain ⟨name, hn, hk⟩ := opFromNode_ok h
  rw [hvalue] at hn hk
  obtain rfl := Option.some.inj (hname.symm.trans hn)
  obtain ⟨at_, kind⟩ := op
  cases kind with
  | insert r =>
    have hget : objectGet (readOp esc ⟨at_, .insert r⟩) (ascii "record") =
        some ((recordBuildNode r).read esc) := by
      rw [readOp, objectGet_read]
      rfl
    have hr : r.Countable := ⟨hop.1, by rw [hop.2]; decide⟩
    rw [opKindFromNode, OpKind.name, if_pos rfl, hget] at hk
    obtain ⟨r', hr', hkind⟩ := except_map_ok hk
    obtain ⟨hid, hcount⟩ := (hr.tells esc).same (recordFromNode_tells hr')
    rw [← hkind]
    funext f
    show Function.update f r'.id (some r'.accessCount) = Function.update f r.id _
    rw [hid, hcount]
  | access ids =>
    rw [opKindFromNode, OpKind.name, if_neg (by decide), parseKind, if_neg (by decide),
      if_neg (by decide), if_neg (by decide), if_neg (by decide), if_pos rfl,
      parseIds_read hop] at hk
    rw [← Except.ok.inj hk]
  | update id content declared =>
    exact opKindFromNode_uncounted hk (by simp [OpKind.name])
  | setDeprecated id reason => exact opKindFromNode_uncounted hk (by simp [OpKind.name])
  | keep id => exact opKindFromNode_uncounted hk (by simp [OpKind.name])
  | setLocked id value => exact opKindFromNode_uncounted hk (by simp [OpKind.name])
  | projectCreate slug => exact opKindFromNode_uncounted hk (by simp [OpKind.name])

/-! ## Loading at two times -/

theorem foldlM_rel {α β γ : Type} {f : β → α → Except Err β} {g : γ → α → Except Err γ}
    {R : β → γ → Prop}
    (hR : ∀ b c a b' c', R b c → f b a = .ok b' → g c a = .ok c' → R b' c') {l : List α} {b b' : β}
    {c c' : γ} (h : R b c) (hf : l.foldlM f b = .ok b') (hg : l.foldlM g c = .ok c') : R b' c' := by
  induction l generalizing b c with
  | nil => rwa [← Except.ok.inj hf, ← Except.ok.inj hg]
  | cons a l ih =>
    rw [List.foldlM_cons] at hf hg
    obtain ⟨b₁, hb, hf⟩ := except_bind_ok hf
    obtain ⟨c₁, hc, hg⟩ := except_bind_ok hg
    exact ih (hR b c a b₁ c₁ h hb hc) hf hg

theorem foldlM_inv {α β : Type} {f : β → α → Except Err β} {I : β → Prop}
    (hI : ∀ b a b', I b → f b a = .ok b' → I b') {l : List α} {b b' : β} (h : I b)
    (hf : l.foldlM f b = .ok b') : I b' := by
  induction l generalizing b with
  | nil => rwa [← Except.ok.inj hf]
  | cons a l ih =>
    rw [List.foldlM_cons] at hf
    obtain ⟨b₁, hb, hf⟩ := except_bind_ok hf
    exact ih (hI b a b₁ h hb) hf

section
variable {X : XcdnText} {D : Digest} {now now' : Int} {want : Section} {slug : Bytes}

theorem loadNode_counts {t t' u u' : Table} {n : XNode} (h : t.counts = u.counts)
    (ht : loadNode now want slug t n = .ok t') (hu : loadNode now' want slug u n = .ok u') :
    t'.counts = u'.counts := by
  obtain ⟨r, hr, ht⟩ := loadNode_ok ht
  obtain ⟨r', hr', hu⟩ := loadNode_ok hu
  obtain ⟨hid, hcount⟩ := (recordFromNode_tells hr).same (recordFromNode_tells hr')
  rw [Table.add_counts ht, Table.add_counts hu, h, hid, hcount]

/-- What a file holds that loads. -/
theorem loadSectionFile_nodes {file : Option Bytes} {t t' : Table}
    (h : loadSectionFile X D now want slug file t = .ok t') :
    (file = none ∧ t' = t) ∨ ∃ data text ns, file = some data ∧
      checkedText D sectionMax data = .ok text ∧ X.parse text = some ns ∧
      ns.foldlM (loadNode now want slug) t = .ok t' := by
  unfold loadSectionFile at h
  split at h
  · exact .inl ⟨rfl, (Except.ok.inj h).symm⟩
  · next data =>
    split at h
    · cases h
    · next text ht =>
      split at h
      · cases h
      · next ns hns => exact .inr ⟨data, text, ns, rfl, ht, hns, mapError_ok h⟩

theorem loadSectionFile_counts {file : Option Bytes} {t t' u u' : Table} (h : t.counts = u.counts)
    (ht : loadSectionFile X D now want slug file t = .ok t')
    (hu : loadSectionFile X D now' want slug file u = .ok u') : t'.counts = u'.counts := by
  rcases loadSectionFile_nodes ht with ⟨rfl, rfl⟩ | ⟨data, text, ns, rfl, htext, hns, ht⟩
  · rwa [← Except.ok.inj hu]
  · rcases loadSectionFile_nodes hu with ⟨hn, -⟩ | ⟨data', text', ns', hd, htext', hns', hu⟩
    · cases hn
    · obtain rfl := Option.some.inj hd
      obtain rfl := Except.ok.inj (htext'.symm.trans htext)
      obtain rfl := Option.some.inj (hns'.symm.trans hns)
      exact foldlM_rel (f := loadNode now want slug) (R := fun t u => t.counts = u.counts)
        (fun _ _ _ _ _ hr ht hu => loadNode_counts hr ht hu) h ht hu

theorem loadProject_counts {m m' l l' : Memory} {f : Bytes × Bytes} (h : m.counts = l.counts)
    (hm : loadProject X D now m f = .ok m') (hl : loadProject X D now' l f = .ok l') :
    m'.counts = l'.counts := by
  rcases loadProject_ok hm with ⟨hn, rfl⟩ | ⟨slug, hs, ht, -⟩
  · rcases loadProject_ok hl with ⟨-, rfl⟩ | ⟨slug, hs, -⟩
    · exact h
    · rw [hn] at hs
      cases hs
  · rcases loadProject_ok hl with ⟨hn, -⟩ | ⟨slug', hs', ht', -⟩
    · rw [hn] at hs
      cases hs
    · obtain rfl := Option.some.inj (hs'.symm.trans hs)
      exact loadSectionFile_counts h ht ht'

/-- **The counts of a store** are read alike at any two times. -/
theorem storeOpen_counts {files : SectionFiles} {journal : List Event} {m m' : Memory}
    (h : storeOpen X D now files journal = .ok m) (h' : storeOpen X D now' files journal = .ok m') :
    m.counts = m'.counts := by
  obtain ⟨l, hl, h⟩ := except_bind_ok h
  obtain ⟨l', hl', h'⟩ := except_bind_ok h'
  obtain ⟨t, ht, hl⟩ := except_bind_ok hl
  obtain ⟨t', ht', hl'⟩ := except_bind_ok hl'
  obtain ⟨u, hu, hl⟩ := except_bind_ok hl
  obtain ⟨u', hu', hl'⟩ := except_bind_ok hl'
  have hload : l.counts = l'.counts :=
    foldlM_rel (f := loadProject X D now) (g := loadProject X D now')
      (R := fun m l => m.counts = l.counts) (fun _ _ _ _ _ hr hm hl => loadProject_counts hr hm hl)
      (loadSectionFile_counts (loadSectionFile_counts rfl ht ht') hu hu') hl hl'
  refine replayAll_rel _ (R := fun m l => m.counts = l.counts) ?_ hload h h'
  intro s t e n s' t' hst hs ht
  obtain ⟨op, hop, hs⟩ := replayFrame_ok _ hs
  obtain ⟨op', hop', ht⟩ := replayFrame_ok _ ht
  rw [storeApply_counts hs, storeApply_counts ht, opParse_count hop hop', hst]

end

/-! ## What was read -/

/-- Every record has a lowercase id and a count of 32 bits. -/
def AccessCounted (f : Bytes → Option Nat) : Prop := ∀ id n, f id = some n → LowerId id ∧ n < 2 ^ 32

theorem AccessCounted.update {f : Bytes → Option Nat} {r : Record} (h : AccessCounted f) (hr : r.Countable) :
    AccessCounted (Function.update f r.id (some r.accessCount)) := by
  intro id n hn
  by_cases hid : id = r.id
  · rw [hid, Function.update_self] at hn
    rw [hid, ← Option.some.inj hn]
    exact ⟨hr.id, hr.count⟩
  · rw [Function.update_of_ne hid] at hn
    exact h id n hn

theorem bump_iterate_lt {n : Nat} (h : n < 2 ^ 32) (k : Nat) : bump^[k] n < 2 ^ 32 := by
  cases k with
  | zero => exact h
  | succ k =>
    rw [Function.iterate_succ_apply']
    exact Nat.mod_lt _ (by decide)

theorem AccessCounted.op {f : Bytes → Option Nat} {k : OpKind} (h : AccessCounted f) (hk : k.Countable) :
    AccessCounted (k.count f) := by
  cases k with
  | insert r => exact h.update hk
  | access ids =>
    intro id n hn
    obtain ⟨m, hm, rfl⟩ := Option.map_eq_some_iff.1 hn
    exact ⟨(h id m hm).1, bump_iterate_lt (h id m hm).2 _⟩
  | _ => exact h

theorem opFromNode_countable {now : Int} {n : XNode} {op : Op} (h : opFromNode now n = .ok op) :
    op.kind.Countable := by
  obtain ⟨name, -, hk⟩ := opFromNode_ok h
  unfold opKindFromNode at hk
  split at hk
  · split at hk
    · cases hk
    · obtain ⟨r, hr, hkind⟩ := except_map_ok hk
      rw [← hkind]
      exact (recordFromNode_tells hr).countable
  · next hname =>
    cases hp : parseKind n.value name with
    | none =>
      rw [hp] at hk
      cases hk
    | some k =>
      rw [hp] at hk
      rw [← Except.ok.inj hk]
      exact (parseKind_count hp).2

end Asper
