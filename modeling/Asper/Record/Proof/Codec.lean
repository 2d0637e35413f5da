import Asper.Base.Proof.Time
import Asper.Record.Codec
import Asper.Record.Proof.Strings

/-! # Records come back from their trees

What the reader makes of a tree that `recordBuildNode` or `opBuildNode` built (`XNode.read`) is
decoded to the same record (`recordFromNode_build`) and the same operation (`opFromNode_build`),
where every value is one the format can hold (`Record.Storable`, `OpKind.Storable`). -/

namespace Asper

open Durable
open JsonEscape

/-! ## Looking up what was put -/

theorem nodesRead_eq (esc : UInt8 → Bytes) (ns : List XNode) :
    nodesRead esc ns = ns.map (XNode.read esc) := by
  induction ns with
  | nil => rfl
  | cons n ns ih => rw [nodesRead, ih, List.map_cons]

theorem entriesRead_eq (esc : UInt8 → Bytes) (es : List (Bytes × XNode)) :
    entriesRead esc es = es.map fun e => (e.1, e.2.read esc) := by
  induction es with
  | nil => rfl
  | cons e es ih => rw [entriesRead, ih, List.map_cons]

@[simp] theorem read_tags (esc : UInt8 → Bytes) (n : XNode) : (n.read esc).tags = n.tags := by
  cases n
  rfl

@[simp] theorem read_value (esc : UInt8 → Bytes) (n : XNode) :
    (n.read esc).value = n.value.read esc := by
  cases n
  rfl

theorem objectGet_read (esc : UInt8 → Bytes) (es : List (Bytes × XNode)) (key : Bytes) :
    objectGet ((XValue.object es).read esc) key =
      (objectGet (.object es) key).map (XNode.read esc) := by
  rw [XValue.read, entriesRead_eq]
  induction es with
  | nil => rfl
  | cons e es ih =>
    simp only [objectGet, List.map_cons, List.find?_cons] at ih ⊢
    cases decide (e.1 = key) with
    | true => rfl
    | false => exact ih

theorem objField_read (esc : UInt8 → Bytes) (es : List (Bytes × XNode)) (key : Bytes) :
    objField ((XValue.object es).read esc) key =
      (objField (.object es) key).map (XValue.read esc) := by
  rw [objField, objectGet_read, objField, Option.map_map, Option.map_map]
  congr 1
  funext n
  exact read_value esc n

/-- The entries of fields, those without a value left out. -/
def entriesOf (fields : List (Bytes × Option XValue)) : List (Bytes × XNode) :=
  fields.filterMap fun f => f.2.map fun v => (f.1, v.node)

theorem entriesOf_key {fields : List (Bytes × Option XValue)} {e : Bytes × XNode}
    (h : e ∈ entriesOf fields) : e.1 ∈ fields.map (·.1) := by
  obtain ⟨f, hf, he⟩ := List.mem_filterMap.1 h
  obtain ⟨v, -, rfl⟩ := Option.map_eq_some_iff.1 he
  exact List.mem_map_of_mem hf

/-- **A field is found under its key**, or none if it was left out. -/
theorem objectGet_entriesOf {fields : List (Bytes × Option XValue)} {rest : List (Bytes × XNode)}
    {key : Bytes} {v : Option XValue} (hn : (fields.map (·.1)).Nodup) (h : (key, v) ∈ fields)
    (hrest : key ∉ rest.map (·.1)) :
    objectGet (.object (entriesOf fields ++ rest)) key = v.map XValue.node := by
  induction fields with
  | nil => simp at h
  | cons f fields ih =>
    rw [List.map_cons, List.nodup_cons] at hn
    have hput : entriesOf (f :: fields) =
        (f.2.map fun v => (f.1, v.node)).toList ++ entriesOf fields := by
      cases hf : f.2 <;> simp [entriesOf, hf]
    rcases List.mem_cons.1 h with rfl | hm
    · cases v with
      | some v => simp [hput, objectGet]
      | none =>
        have hnone : (entriesOf fields ++ rest).find? (fun e => e.1 = key) = none := by
          rw [List.find?_eq_none]
          intro e he hkey
          have hkey : e.1 = key := of_decide_eq_true hkey
          rcases List.mem_append.1 he with he | he
          · exact hn.1 (hkey ▸ entriesOf_key he)
          · exact hrest (hkey ▸ List.mem_map_of_mem he)
        simp [hput, objectGet, hnone]
    · have hne : f.1 ≠ key := fun he => hn.1 (he ▸ List.mem_map_of_mem (f := (·.1)) hm)
      have ih := ih hn.2 hm
      rw [objectGet] at ih ⊢
      rw [hput, ← ih]
      cases f.2 <;> simp [hne]

/-! ## What each kind of value is read back as -/

/-- A text of bytes that the writer does not escape. -/
def Unescaped (s : Bytes) : Prop := ∀ b ∈ s, ¬ (b < 0x20 ∨ b = 34)

instance (s : Bytes) : Decidable (Unescaped s) := List.decidableBAll _ s

theorem literalText_self {s : Bytes} (esc : UInt8 → Bytes) (h : Unescaped s) :
    literalText esc s = s := by
  induction s with
  | nil => rfl
  | cons b s ih =>
    have hb : ¬ (b < 0x20 ∨ b = 34) := h b List.mem_cons_self
    rw [literalText, List.flatMap_cons, if_neg hb]
    have ih := ih fun c hc => h c (List.mem_cons_of_mem _ hc)
    rw [literalText] at ih
    rw [ih]
    rfl

theorem Unescaped.noNul {s : Bytes} (h : Unescaped s) : 0 ∉ s := fun h0 =>
  h 0 h0 (.inl (by decide))

theorem valStr_read (esc : UInt8 → Bytes) {s : Bytes} (h : Unescaped s) :
    valStr ((XValue.string s).read esc) = some (cstr s) := by
  rw [XValue.read, valStr, literalText_self esc h]

theorem toLower_lowerHex {b : UInt8} (h : isLowerHex b = true) : toLower b = b := by
  obtain ⟨n, rfl⟩ := isLowerHex_digit h
  have key : ∀ m : Fin 16, toLower (hexDigit (UInt8.ofNat m)) = hexDigit (UInt8.ofNat m) := by decide
  exact key n

/-- An id in lowercase. -/
def LowerId (s : Bytes) : Prop := uuidShape isLowerHex s = true

instance (s : Bytes) : Decidable (LowerId s) := inferInstanceAs (Decidable (_ = _))

theorem LowerId.noNul {s : Bytes} (h : LowerId s) : 0 ∉ s := by
  intro h0
  exact absurd (uuidValid_byte (Uuid.valid ⟨s, h⟩) h0).1 (by decide)

theorem LowerId.lower {s : Bytes} (h : LowerId s) : s.map toLower = s := by
  rw [List.map_congr_left (g := id), List.map_id]
  intro b hb
  rcases shapeAux_mem h hb with rfl | hb
  · rfl
  · exact toLower_lowerHex hb

theorem valUuid37_lower {s : Bytes} (h : LowerId s) : valUuid37 (.uuid s) = some s := by
  rw [valUuid37, cstr_self h.noNul, if_pos (Uuid.valid ⟨s, h⟩), h.lower]

/-- An instant of the years 0000 to 9999. -/
def Dated (t : Int) : Prop := 0 ≤ yearUtc t ∧ yearUtc t < 10000

instance (t : Int) : Decidable (Dated t) := inferInstanceAs (Decidable (_ ∧ _))

theorem dtValue_read (esc : UInt8 → Bytes) (t : Int) : (dtValue t).read esc = dtValue t := by
  rw [dtValue, XValue.read]

theorem valTime_dtValue {t : Int} (h : Dated t) : valTime (dtValue t) = some t := parse_format h

section
variable {esc : UInt8 → Bytes} (hesc : ∀ b, b < 0x20 ∨ b = 34 → Escape b.toNat (esc b))
include hesc

theorem unescape_read {s : Bytes} (h : 0 ∉ s) :
    ∃ t, valStr ((recordString s).read esc) = some t ∧ asperRecordUnescape t = s :=
  ⟨_, rfl, (record_string_round_trip hesc).1 ⟨s, h⟩⟩

theorem readText_read {s : Bytes} {size : Nat} (h : 0 ∉ s) (hs : s.length < size) :
    readText size ((recordString s).read esc) = some s := by
  obtain ⟨t, ht, hback⟩ := unescape_read hesc h
  rw [readText, ht]
  simp [hback, hs]

theorem strings_read {ss : List Bytes} (h : ∀ s ∈ ss, 0 ∉ s) :
    (ss.map fun s => (recordString s).read esc).mapM
      (fun v => (valStr v).map asperRecordUnescape) = some ss := by
  induction ss with
  | nil => rfl
  | cons s ss ih =>
    obtain ⟨t, ht, hback⟩ := unescape_read hesc (h s List.mem_cons_self)
    have ih := ih fun x hx => h x (List.mem_cons_of_mem _ hx)
    simp [List.mapM_cons, ht, hback, ih]

end

theorem ids_read {ids : List Bytes} (h : ∀ s ∈ ids, LowerId s) :
    (ids.map XValue.uuid).mapM valUuid37 = some ids := by
  induction ids with
  | nil => rfl
  | cons s ids ih =>
    have ih := ih fun x hx => h x (List.mem_cons_of_mem _ hx)
    simp [List.mapM_cons, valUuid37_lower (h s List.mem_cons_self), ih]

/-! ## Records -/

/-- Evidence as the format holds it. -/
structure Evidence.Storable (e : Evidence) : Prop where
  confidence : 0 ≤ e.confidence ∧ e.confidence ≤ 1
  observed : 0 ≤ e.observedAt
  expires : 0 ≤ e.expiresAt ∧ (e.kind = .inferred → e.expiresAt ≠ 0)
  provenance : 0 ∉ e.provenance ∧ e.provenance.length < 256
  workspace : 0 ∉ e.workspace ∧ e.workspace.length < 1024
  commit : 0 ∉ e.commit ∧ e.commit.length < 65

/-- A record as the format holds it. -/
structure Record.Storable (r : Record) : Prop where
  id : LowerId r.id
  project : r.section_ = .project ↔ r.project.isSome = true
  slug : ∀ p, r.project = some p → slugValid p = true
  content : 0 ∉ r.content ∧ strBlank r.content = false
  evidence : r.evidence.Storable
  created : Dated r.createdAt
  updated : Dated r.updatedAt
  accessed : Dated r.lastAccess
  count : r.accessCount < 2 ^ 32
  relevance : 0 ≤ r.relevance ∧ r.relevance ≤ 1
  deprecatedAt : if r.deprecated then Dated r.deprecatedAt ∧ r.deprecatedAt ≠ 0
    else r.deprecatedAt = 0
  tags : ∀ s ∈ r.tags, 0 ∉ s
  sourceRefs : ∀ s ∈ r.sourceRefs, LowerId s

theorem slugValid_unescaped {s : Bytes} (h : slugValid s = true) : Unescaped s := by
  have hplain : ∀ b : UInt8, isLowerOrDigit b = true ∨ b = 45 → ¬ (b < 0x20 ∨ b = 34) := by
    intro b hb
    rcases hb with hb | rfl
    · intro hlow
      simp only [isLowerOrDigit, decide_eq_true_eq, Bool.or_eq_true, Bool.decide_or,
        Bool.decide_and, Bool.and_eq_true, UInt8.le_iff_toNat_le, UInt8.lt_iff_toNat_lt,
        UInt8.reduceToNat] at hb hlow
      rcases hlow with hlow | rfl
      · omega
      · simp at hb
    · decide
  cases s with
  | nil => cases h
  | cons a s =>
    simp only [slugValid, decide_eq_true_eq, List.all_eq_true] at h
    intro b hb
    rcases List.mem_cons.1 hb with rfl | hb
    · exact hplain _ (.inl h.1)
    · refine hplain b ?_
      simpa using h.2.2 b hb

theorem sectionName_unescaped (s : Section) : Unescaped (sectionName s) := by
  cases s <;> decide

theorem sourceName_unescaped (s : RecordSource) : Unescaped (sourceName s) := by
  cases s <;> decide

@[simp] theorem sectionParse_name (s : Section) : sectionParse (sectionName s) = some s := by
  cases s <;> decide

@[simp] theorem sourceParse_name (s : RecordSource) : sourceParse (sourceName s) = some s := by
  cases s <;> decide

@[simp] theorem EvidenceKind.ofCode_code (k : EvidenceKind) : EvidenceKind.ofCode k.code = some k := by
  cases k <;> rfl

@[simp] theorem ConfidenceKind.ofCode_code (k : ConfidenceKind) :
    ConfidenceKind.ofCode k.code = some k := by
  cases k <;> rfl

theorem recordFields_nodup (r : Record) : ((recordFields r).map (·.1)).Nodup := by
  have hkeys : (recordFields r).map (·.1) = [ascii "id", ascii "section", ascii "project",
      ascii "content", ascii "source", ascii "evidence_kind", ascii "confidence_kind",
      ascii "confidence", ascii "observed_at", ascii "expires_at", ascii "provenance",
      ascii "workspace", ascii "commit", ascii "source_refs", ascii "created_at",
      ascii "updated_at", ascii "last_access", ascii "access_count", ascii "relevance",
      ascii "locked", ascii "status", ascii "deprecated_at", ascii "tags"] := rfl
  rw [hkeys]
  decide

/-- The tree of a record as it is read. -/
def readRecord (esc : UInt8 → Bytes) (r : Record) : XValue :=
  (XValue.object (entriesOf (recordFields r))).read esc

theorem readRecord_field (esc : UInt8 → Bytes) {r : Record} {key : Bytes} {v : Option XValue}
    (h : (key, v) ∈ recordFields r) :
    objField (readRecord esc r) key = v.map (XValue.read esc) := by
  have hnone : key ∉ ([] : List (Bytes × XNode)).map (·.1) := List.not_mem_nil
  have hget := objectGet_entriesOf (recordFields_nodup r) h hnone
  rw [List.append_nil] at hget
  rw [readRecord, objField_read, objField, hget]
  cases v <;> rfl

theorem cstr_name {s : Bytes} (h : Unescaped s) : (cstr s).val = s := cstr_self h.noNul

section
variable {esc : UInt8 → Bytes} {r : Record}

/-- The place of a field in the tree. -/
theorem readRecord_at (esc : UInt8 → Bytes) (i : Nat) {key : Bytes} {v : Option XValue}
    (h : (recordFields r)[i]? = some (key, v)) :
    objField (readRecord esc r) key = v.map (XValue.read esc) :=
  readRecord_field esc (List.mem_of_getElem? h)

theorem readRecord_id (h : LowerId r.id) :
    (objField (readRecord esc r) (ascii "id")).bind valUuid37 = some r.id := by
  rw [readRecord_at esc 0 rfl]
  exact valUuid37_lower h

theorem readRecord_section :
    ((objField (readRecord esc r) (ascii "section")).bind valStr).bind (fun s => sectionParse s.val) =
      some r.section_ := by
  rw [readRecord_at esc 1 rfl, Option.map_some, Option.bind_some,
    valStr_read esc (sectionName_unescaped _), Option.bind_some, cstr_name (sectionName_unescaped _),
    sectionParse_name]

theorem readRecord_project (h : ∀ p, r.project = some p → slugValid p = true) :
    fieldProject (readRecord esc r) = some r.project := by
  rw [fieldProject, readRecord_at esc 2 rfl]
  cases hp : r.project with
  | none => rfl
  | some p =>
    have hv := h p hp
    have hself := cstr_name (slugValid_unescaped hv)
    simp only [Option.elim_some, Option.map_some, XValue.read,
      literalText_self esc (slugValid_unescaped hv), hself, if_pos hv]

theorem readRecord_source :
    fieldOr (readRecord esc r) (ascii "source") .manual
      (fun v => (valStr v).bind fun s => sourceParse s.val) = some r.source := by
  rw [fieldOr, readRecord_at esc 4 rfl, Option.map_some, Option.elim_some,
    valStr_read esc (sourceName_unescaped _), Option.bind_some, cstr_name (sourceName_unescaped _),
    sourceParse_name]

theorem pushAll_read (esc : UInt8 → Bytes) (f : Bytes → XValue) (ss : List Bytes) :
    (pushAll f ss).read esc = .array (ss.map fun s => ((f s).read esc).node) := by
  rw [pushAll, XValue.read, nodesRead_eq, List.map_map]
  rfl

theorem readRecord_refs (h : ∀ s ∈ r.sourceRefs, LowerId s) :
    fieldItems (readRecord esc r) (ascii "source_refs") valUuid37 = some r.sourceRefs := by
  have hids := ids_read h
  rw [fieldItems, readRecord_at esc 13 rfl]
  by_cases hnil : r.sourceRefs = []
  · rw [if_pos hnil, hnil]
    rfl
  · rw [if_neg hnil, Option.map_some, pushAll_read]
    dsimp only
    rw [List.mapM_map] at hids ⊢
    exact hids

theorem readRecord_tags (hesc : ∀ b, b < 0x20 ∨ b = 34 → Escape b.toNat (esc b))
    (h : ∀ s ∈ r.tags, 0 ∉ s) :
    fieldItems (readRecord esc r) (ascii "tags") (fun v => (valStr v).map asperRecordUnescape) =
      some r.tags := by
  have htags := strings_read hesc h
  rw [fieldItems, readRecord_at esc 22 rfl, Option.map_some, pushAll_read]
  dsimp only
  rw [List.mapM_map] at htags ⊢
  exact htags

theorem readRecord_count (h : r.accessCount < 2 ^ 32) :
    fieldOr (readRecord esc r) (ascii "access_count") 0 readCount = some r.accessCount := by
  rw [fieldOr, readRecord_at esc 17 rfl, Option.map_some, Option.elim_some, XValue.read, readCount,
    if_neg (by omega), if_neg (by omega), Int.toNat_natCast]

theorem readRecord_locked :
    fieldOr (readRecord esc r) (ascii "locked") false readBool = some r.locked := by
  rw [fieldOr, readRecord_at esc 19 rfl]
  rfl

theorem readRecord_status :
    fieldOr (readRecord esc r) (ascii "status") false readStatus = some r.deprecated := by
  rw [fieldOr, readRecord_at esc 20 rfl, Option.map_some, Option.elim_some]
  cases r.deprecated <;> exact by rfl

theorem readRecord_time (i : Nat) {key : Bytes} {other t : Int}
    (hi : (recordFields r)[i]? = some (key, some (dtValue t))) (ht : Dated t) :
    fieldOr (readRecord esc r) key other valTime = some t := by
  rw [fieldOr, readRecord_at esc i hi, Option.map_some, Option.elim_some]
  exact valTime_dtValue ht

theorem readRecord_deprecatedAt (h : if r.deprecated then Dated r.deprecatedAt ∧ r.deprecatedAt ≠ 0
      else r.deprecatedAt = 0) :
    fieldOr (readRecord esc r) (ascii "deprecated_at") 0 valTime = some r.deprecatedAt := by
  rw [fieldOr, readRecord_at esc 21 rfl]
  cases hd : r.deprecated with
  | true =>
    rw [hd, if_pos rfl] at h
    rw [if_pos rfl, Option.map_some, Option.elim_some]
    exact valTime_dtValue h.1
  | false =>
    rw [hd, if_neg Bool.false_ne_true] at h
    rw [if_neg Bool.false_ne_true, h]
    rfl

theorem readRecord_relevance (h : 0 ≤ r.relevance ∧ r.relevance ≤ 1) :
    fieldOr (readRecord esc r) (ascii "relevance") (defaultRelevance r.source) readRelevance =
      some r.relevance := by
  rw [fieldOr, readRecord_at esc 18 rfl, Option.map_some, Option.elim_some, XValue.read,
    readRelevance, readNumber, Option.map_some, if_neg (not_lt.2 h.1), if_neg (not_lt.2 h.2)]

theorem readRecord_evidence (hesc : ∀ b, b < 0x20 ∨ b = 34 → Escape b.toNat (esc b))
    (h : r.evidence.Storable) :
    recordEvidence (readRecord esc r) r.source r.createdAt = some r.evidence := by
  have hkind : ∀ other, fieldOr (readRecord esc r) (ascii "evidence_kind") other readKind =
      some r.evidence.kind := by
    intro other
    rw [fieldOr, readRecord_at esc 5 rfl, Option.map_some, Option.elim_some, XValue.read, readKind,
      EvidenceKind.ofCode_code]
  have hconfidenceKind : ∀ other, fieldOr (readRecord esc r) (ascii "confidence_kind") other
      readConfidenceKind = some r.evidence.confidenceKind := by
    intro other
    rw [fieldOr, readRecord_at esc 6 rfl, Option.map_some, Option.elim_some, XValue.read,
      readConfidenceKind, ConfidenceKind.ofCode_code]
  have hconfidence : ∀ other, fieldOr (readRecord esc r) (ascii "confidence") other readConfidence =
      some r.evidence.confidence := by
    intro other
    rw [fieldOr, readRecord_at esc 7 rfl, Option.map_some, Option.elim_some, XValue.read,
      readConfidence, readNumber]
    simp [h.confidence]
  have hstamp : ∀ (i : Nat) (key : Bytes) (other t : Int),
      (recordFields r)[i]? = some (key, some (.int t)) → 0 ≤ t →
      fieldOr (readRecord esc r) key other readStamp = some t := by
    intro i key other t hi ht
    rw [fieldOr, readRecord_at esc i hi, Option.map_some, Option.elim_some, XValue.read, readStamp,
      if_neg (not_lt.2 ht)]
  have htext : ∀ (i : Nat) (key other s : Bytes) (size : Nat),
      (recordFields r)[i]? = some (key, some (recordString s)) → 0 ∉ s ∧ s.length < size →
      fieldOr (readRecord esc r) key other (readText size) = some s := by
    intro i key other s size hi hs
    rw [fieldOr, readRecord_at esc i hi, Option.map_some, Option.elim_some,
      readText_read hesc hs.1 hs.2]
  have hexpires : ¬ (r.evidence.kind = .inferred ∧ r.evidence.expiresAt = 0) := fun hc =>
    h.expires.2 hc.1 hc.2
  rw [recordEvidence, hkind, hconfidence, hconfidenceKind, htext 10 _ _ _ _ rfl h.provenance,
    htext 11 _ _ _ _ rfl h.workspace, htext 12 _ _ _ _ rfl h.commit,
    hstamp 8 _ _ _ rfl h.observed, hstamp 9 _ _ _ rfl h.expires.1]
  simp [hexpires]

theorem readRecord_content (hesc : ∀ b, b < 0x20 ∨ b = 34 → Escape b.toNat (esc b))
    (h : 0 ∉ r.content ∧ strBlank r.content = false) :
    fieldContent (readRecord esc r) = some r.content := by
  obtain ⟨t, ht, hback⟩ := unescape_read hesc h.1
  rw [fieldContent, readRecord_at esc 3 rfl, Option.map_some, Option.bind_some, ht]
  simp [hback, h.2]

theorem recordFromNode_read (now : Int) : recordFromNode now ((recordBuildNode r).read esc) =
    (parseRecord (readRecord esc r) now).elim (.error .parse) .ok := by
  have hobject : readRecord esc r = .object (entriesRead esc (entriesOf (recordFields r))) := by
    rw [readRecord, XValue.read]
  have hvalue : ((recordBuildNode r).read esc).value = readRecord esc r := read_value esc _
  rw [recordFromNode, hvalue, hobject]

/-- **A record comes back from its tree**, whenever it is read. -/
theorem recordFromNode_build (hesc : ∀ b, b < 0x20 ∨ b = 34 → Escape b.toNat (esc b))
    (h : r.Storable) (now : Int) :
    recordFromNode now ((recordBuildNode r).read esc) = .ok r := by
  have hparse : parseRecord (readRecord esc r) now = some r := by
    have hdeprecated : (if r.deprecated = true then
        if r.deprecatedAt = 0 then r.updatedAt else r.deprecatedAt else 0) = r.deprecatedAt := by
      have hd := h.deprecatedAt
      cases hr : r.deprecated with
      | true =>
        rw [hr, if_pos rfl] at hd
        simp [hd.2]
      | false =>
        rw [hr] at hd
        exact hd.symm
    unfold parseRecord
    refine Option.bind_eq_some_iff.2 ⟨_, readRecord_id h.id, ?_⟩
    refine Option.bind_eq_some_iff.2 ⟨_, readRecord_section, ?_⟩
    refine Option.bind_eq_some_iff.2 ⟨_, readRecord_project h.slug, ?_⟩
    refine Option.bind_eq_some_iff.2 ⟨(), if_pos h.project, ?_⟩
    refine Option.bind_eq_some_iff.2 ⟨_, readRecord_content hesc h.content, ?_⟩
    refine Option.bind_eq_some_iff.2 ⟨_, readRecord_source, ?_⟩
    refine Option.bind_eq_some_iff.2 ⟨_, readRecord_refs h.sourceRefs, ?_⟩
    refine Option.bind_eq_some_iff.2 ⟨_, readRecord_time 14 rfl h.created, ?_⟩
    refine Option.bind_eq_some_iff.2 ⟨_, readRecord_time 15 rfl h.updated, ?_⟩
    refine Option.bind_eq_some_iff.2 ⟨_, readRecord_time 16 rfl h.accessed, ?_⟩
    refine Option.bind_eq_some_iff.2 ⟨_, readRecord_evidence hesc h.evidence, ?_⟩
    refine Option.bind_eq_some_iff.2 ⟨_, readRecord_count h.count, ?_⟩
    refine Option.bind_eq_some_iff.2 ⟨_, readRecord_relevance h.relevance, ?_⟩
    refine Option.bind_eq_some_iff.2 ⟨_, readRecord_locked, ?_⟩
    refine Option.bind_eq_some_iff.2 ⟨_, readRecord_status, ?_⟩
    refine Option.bind_eq_some_iff.2 ⟨_, readRecord_deprecatedAt h.deprecatedAt, ?_⟩
    refine Option.bind_eq_some_iff.2 ⟨_, readRecord_tags hesc h.tags, ?_⟩
    rw [hdeprecated]
    rfl
  rw [recordFromNode_read, hparse]
  rfl

end

/-! ## Operations -/

/-- An operation as the format holds it. -/
def OpKind.Storable : OpKind → Prop
  | .insert r => r.Storable
  | .update id content _ => LowerId id ∧ 0 ∉ content
  | .setDeprecated id reason => LowerId id ∧ ∀ s, reason = some s → 0 ∉ s
  | .keep id => LowerId id
  | .setLocked id _ => LowerId id
  | .access ids => ∀ s ∈ ids, LowerId s
  | .projectCreate project => slugValid project = true

structure Op.Storable (op : Op) : Prop where
  at_ : Dated op.at_
  kind : op.kind.Storable

/-- All fields of an operation but the record of an insert. -/
def kindFields (op : Op) : List (Bytes × Option XValue) :=
  (ascii "kind", some (.string op.kind.name)) :: (ascii "at", some (dtValue op.at_)) ::
    opFields op.kind

theorem kindFields_nodup (op : Op) : ((kindFields op).map (·.1)).Nodup := by
  obtain ⟨at_, kind⟩ := op
  cases kind with
  | insert r => exact (by decide : [ascii "kind", ascii "at"].Nodup)
  | update id content declared =>
    exact (by decide : [ascii "kind", ascii "at", ascii "id", ascii "content",
      ascii "declared_update"].Nodup)
  | setDeprecated id reason =>
    exact (by decide : [ascii "kind", ascii "at", ascii "id", ascii "reason"].Nodup)
  | keep id => exact (by decide : [ascii "kind", ascii "at", ascii "id"].Nodup)
  | setLocked id value =>
    exact (by decide : [ascii "kind", ascii "at", ascii "id", ascii "value"].Nodup)
  | access ids => exact (by decide : [ascii "kind", ascii "at", ascii "ids"].Nodup)
  | projectCreate slug => exact (by decide : [ascii "kind", ascii "at", ascii "project"].Nodup)

theorem OpKind.name_unescaped (k : OpKind) : Unescaped k.name := by
  have hnames : ∀ s ∈ [ascii "insert", ascii "update", ascii "deprecate", ascii "keep",
      ascii "set_locked", ascii "access", ascii "project_create"], Unescaped s := by decide
  refine hnames _ ?_
  cases k <;> simp [OpKind.name]

/-- The tree of an operation as it is read. -/
def readOp (esc : UInt8 → Bytes) (op : Op) : XValue := (XValue.object (opEntries op)).read esc

section
variable {esc : UInt8 → Bytes} {op : Op}

theorem readOp_field {key : Bytes} {v : Option XValue} (h : (key, v) ∈ kindFields op)
    (hkey : key ≠ ascii "record") : objField (readOp esc op) key = v.map (XValue.read esc) := by
  have hrest : key ∉ (opRecord op.kind).map (·.1) := by
    cases op.kind <;> simp [opRecord, hkey]
  have hget := objectGet_entriesOf (kindFields_nodup op) h hrest
  have hentries : opEntries op = entriesOf (kindFields op) ++ opRecord op.kind := rfl
  rw [readOp, objField_read, objField, hentries, hget]
  cases v <;> rfl

theorem readOp_at (esc : UInt8 → Bytes) (op : Op) (i : Nat) {key : Bytes} {v : Option XValue}
    (h : (kindFields op)[i]? = some (key, v)) (hkey : key ≠ ascii "record") :
    objField (readOp esc op) key = v.map (XValue.read esc) :=
  readOp_field (List.mem_of_getElem? h) hkey

theorem readOp_id {kind : OpKind} {at_ : Int} {id : Bytes} (h : LowerId id)
    (hi : (kindFields ⟨at_, kind⟩)[2]? = some (ascii "id", some (.uuid id))) :
    (objField (readOp esc ⟨at_, kind⟩) (ascii "id")).bind valUuid37 = some id := by
  rw [readOp_at esc _ 2 hi (by decide)]
  exact valUuid37_lower h

theorem parseUpdate_read (hesc : ∀ b, b < 0x20 ∨ b = 34 → Escape b.toNat (esc b)) {at_ : Int}
    {id content : Bytes} (declared : Bool) (hid : LowerId id) (hc : 0 ∉ content) :
    parseUpdate (readOp esc ⟨at_, .update id content declared⟩) =
      some (.update id content declared) := by
  obtain ⟨t, ht, hback⟩ := unescape_read hesc hc
  have hcontent : (objField (readOp esc ⟨at_, .update id content declared⟩)
      (ascii "content")).bind valStr = some t := by
    rw [readOp_at esc _ 3 rfl (by decide)]
    exact ht
  have hdeclared : fieldOr (readOp esc ⟨at_, .update id content declared⟩)
      (ascii "declared_update") false readBool = some declared := by
    rw [fieldOr, readOp_at esc _ 4 rfl (by decide)]
    rfl
  unfold parseUpdate
  refine Option.bind_eq_some_iff.2 ⟨_, readOp_id hid rfl, ?_⟩
  refine Option.bind_eq_some_iff.2 ⟨_, hcontent, ?_⟩
  refine Option.bind_eq_some_iff.2 ⟨_, hdeclared, ?_⟩
  rw [hback]
  rfl

theorem fieldReason_read (hesc : ∀ b, b < 0x20 ∨ b = 34 → Escape b.toNat (esc b)) {at_ : Int}
    {id : Bytes} {reason : Option Bytes} (h : ∀ s, reason = some s → 0 ∉ s) :
    fieldReason (readOp esc ⟨at_, .setDeprecated id reason⟩) = some reason := by
  rw [fieldReason, readOp_at esc _ 3 rfl (by decide)]
  cases reason with
  | none => rfl
  | some s =>
    have hback := (record_string_round_trip hesc).1 ⟨s, h s rfl⟩
    simp only [Option.map_some, recordString, XValue.read]
    rw [hback]

theorem parseIds_read {at_ : Int} {ids : List Bytes} (h : ∀ s ∈ ids, LowerId s) :
    parseIds (readOp esc ⟨at_, .access ids⟩) = some ids := by
  have hids := ids_read h
  rw [parseIds, readOp_at esc _ 2 rfl (by decide), Option.map_some, pushAll_read]
  dsimp only
  rw [List.mapM_map] at hids ⊢
  exact hids

theorem parseSlug_read {at_ : Int} {slug : Bytes} (h : slugValid slug = true) :
    parseSlug (readOp esc ⟨at_, .projectCreate slug⟩) = some slug := by
  have hslug := slugValid_unescaped h
  have hfield : (objField (readOp esc ⟨at_, .projectCreate slug⟩) (ascii "project")).bind valStr =
      some (cstr slug) := by
    rw [readOp_at esc _ 2 rfl (by decide)]
    exact valStr_read esc hslug
  unfold parseSlug
  refine Option.bind_eq_some_iff.2 ⟨_, hfield, ?_⟩
  rw [cstr_name hslug]
  refine Option.bind_eq_some_iff.2 ⟨(), if_pos h, rfl⟩

/-- The kind of an operation comes back. -/
theorem opKindFromNode_build (hesc : ∀ b, b < 0x20 ∨ b = 34 → Escape b.toNat (esc b)) {at_ : Int}
    {kind : OpKind} (h : kind.Storable) (now : Int) :
    opKindFromNode now (readOp esc ⟨at_, kind⟩) kind.name = .ok kind := by
  cases kind with
  | insert r =>
    have hget : objectGet (readOp esc ⟨at_, .insert r⟩) (ascii "record") =
        some ((recordBuildNode r).read esc) := by
      rw [readOp, objectGet_read]
      rfl
    rw [opKindFromNode, OpKind.name, if_pos rfl, hget]
    exact congrArg (Except.map OpKind.insert) (recordFromNode_build hesc h now)
  | update id content declared =>
    rw [opKindFromNode, OpKind.name, if_neg (by decide), parseKind, if_pos rfl,
      parseUpdate_read hesc declared h.1 h.2]
    rfl
  | setDeprecated id reason =>
    have hparse : parseKind (readOp esc ⟨at_, .setDeprecated id reason⟩) (ascii "deprecate") =
        some (.setDeprecated id reason) := by
      rw [parseKind, if_neg (by decide), if_pos rfl]
      refine Option.bind_eq_some_iff.2 ⟨_, readOp_id h.1 rfl, ?_⟩
      exact Option.bind_eq_some_iff.2 ⟨_, fieldReason_read hesc h.2, rfl⟩
    rw [opKindFromNode, OpKind.name, if_neg (by decide)]
    exact congrArg (Option.elim · _ _) hparse
  | keep id =>
    rw [opKindFromNode, OpKind.name, if_neg (by decide), parseKind, if_neg (by decide),
      if_neg (by decide), if_pos rfl, readOp_id h rfl]
    rfl
  | setLocked id value =>
    have hparse : parseKind (readOp esc ⟨at_, .setLocked id value⟩) (ascii "set_locked") =
        some (.setLocked id value) := by
      rw [parseKind, if_neg (by decide), if_neg (by decide), if_neg (by decide), if_pos rfl]
      refine Option.bind_eq_some_iff.2 ⟨_, readOp_id h rfl, ?_⟩
      refine Option.bind_eq_some_iff.2 ⟨value, ?_, rfl⟩
      rw [readOp_at esc _ 3 rfl (by decide)]
      rfl
    rw [opKindFromNode, OpKind.name, if_neg (by decide)]
    exact congrArg (Option.elim · _ _) hparse
  | access ids =>
    rw [opKindFromNode, OpKind.name, if_neg (by decide), parseKind, if_neg (by decide),
      if_neg (by decide), if_neg (by decide), if_neg (by decide), if_pos rfl, parseIds_read h]
    rfl
  | projectCreate slug =>
    rw [opKindFromNode, OpKind.name, if_neg (by decide), parseKind, if_neg (by decide),
      if_neg (by decide), if_neg (by decide), if_neg (by decide), if_neg (by decide), if_pos rfl,
      parseSlug_read h]
    rfl

/-- **An operation comes back from its tree**, whenever it is read. -/
theorem opFromNode_build (hesc : ∀ b, b < 0x20 ∨ b = 34 → Escape b.toNat (esc b))
    (h : op.Storable) (now : Int) : opFromNode now ((opBuildNode op).read esc) = .ok op := by
  have hobject : readOp esc op = .object (entriesRead esc (opEntries op)) := by
    rw [readOp, XValue.read]
  have hvalue : ((opBuildNode op).read esc).value = readOp esc op := read_value esc _
  have hkind : (objField (readOp esc op) (ascii "kind")).bind valStr = some (cstr op.kind.name) := by
    rw [readOp_at esc op 0 rfl (by decide)]
    exact valStr_read esc op.kind.name_unescaped
  have hat : (objField (readOp esc op) (ascii "at")).bind valTime = some op.at_ := by
    rw [readOp_at esc op 1 rfl (by decide), Option.map_some, Option.bind_some, dtValue_read]
    exact valTime_dtValue h.at_
  rw [hobject] at hkind hat
  rw [opFromNode, hvalue, hobject]
  simp only [hkind, hat, cstr_name op.kind.name_unescaped]
  rw [← hobject, opKindFromNode_build hesc h.kind]
  rfl

end

/-- **Records and operations come back from their trees**, whenever they are read. -/
theorem codec_round_trip {esc : UInt8 → Bytes}
    (hesc : ∀ b, b < 0x20 ∨ b = 34 → Escape b.toNat (esc b)) :
    (∀ r : Record, r.Storable → ∀ now,
      recordFromNode now ((recordBuildNode r).read esc) = .ok r) ∧
      ∀ op : Op, op.Storable → ∀ now, opFromNode now ((opBuildNode op).read esc) = .ok op :=
  ⟨fun _ h now => recordFromNode_build hesc h now, fun _ h now => opFromNode_build hesc h now⟩

/-- A claim of the host. -/
def sampleRecord : Record where
  id := ascii "7c9e6679-7425-40de-944f-e07fc1f90ae7"
  section_ := .context
  project := none
  content := ascii "The build runs \"make\"."
  source := .manual
  evidence := ⟨.declared, .heuristic, 1, 1000000000, 0, ascii "user:manual", [], []⟩
  createdAt := 1000000000
  updatedAt := 1000000000
  lastAccess := 1000000000
  accessCount := 0
  relevance := 1 / 2
  locked := false
  deprecated := false
  deprecatedAt := 0
  tags := []
  sourceRefs := []

theorem sampleRecord_storable : sampleRecord.Storable where
  id := by decide
  project := by decide
  slug _ h := by cases h
  content := by decide
  evidence := ⟨by decide +kernel, by decide, by decide, by decide, by decide, by decide⟩
  created := by decide +kernel
  updated := by decide +kernel
  accessed := by decide +kernel
  count := by decide
  relevance := by decide +kernel
  deprecatedAt := rfl
  tags _ h := absurd h List.not_mem_nil
  sourceRefs _ h := absurd h List.not_mem_nil

def sampleInsert : Op := ⟨1000000000, .insert sampleRecord⟩

def sampleAccess : Op := ⟨1000000060, .access [sampleRecord.id]⟩

theorem sampleInsert_storable : sampleInsert.Storable :=
  ⟨by decide +kernel, sampleRecord_storable⟩

theorem sampleAccess_storable : sampleAccess.Storable := by
  refine ⟨by decide +kernel, fun id hid => ?_⟩
  rw [List.mem_singleton.1 hid]
  exact sampleRecord_storable.id

theorem codec_round_trip_sample :
    opFromNode 0 ((opBuildNode sampleInsert).read jsonEscape) = .ok sampleInsert :=
  (codec_round_trip jsonEscape_escape).2 sampleInsert sampleInsert_storable 0

end Asper
