import Asper.Journal.Proof.Replay
import Asper.Lib.Slice
import Asper.Record.Proof.Codec
import Asper.Record.Proof.Funnel
import Asper.Record.Snapshot

/-! # What the files of a store hold

`loadSectionFile_ok` says what a file that loads holds, `storeCompact_load` what the files hold
that a compaction wrote: the records that are not due, each as it is read back. -/

namespace Asper

open Durable
open JsonEscape

/-- The reader never takes a text of the writer for anything but the tree that was written. -/
structure XcdnText.Sound (X : XcdnText) (esc : UInt8 → Bytes) : Prop where
  escapes : ∀ b, b < 0x20 ∨ b = 34 → Escape b.toNat (esc b)
  op : ∀ op ns, X.parse (X.compact (opBuildNode op)) = some ns → ns = [(opBuildNode op).read esc]
  records : ∀ rs ns, X.parse (sectionText X rs) = some ns →
    ns = rs.map fun r => (recordBuildNode r).read esc

/-! ## One file -/

/-- The frame of a checked file. -/
def fileEvent (id : Uuid) (text : Bytes) : Event := ⟨1, 0, .diagnostic, false, id.val, [], text⟩

theorem fileEvent_headed {id : Uuid} {text : Bytes} (h : text.length ≤ sectionMax) :
    (fileEvent id text).Headed where
  at_ge := (by decide : (-2 ^ 63 : Int) ≤ 0)
  at_lt := (by decide : (0 : Int) < 2 ^ 63)
  id_valid := id.valid
  object := .inl rfl
  size := by
    show text.length ≤ eventBytes
    unfold sectionMax at h
    unfold eventBytes
    omega
  seq_pos := Nat.one_pos
  seq_lt := (by decide : 1 < 2 ^ 64)

theorem checkedFile_ok {D : Digest} {id : Uuid} {text data : Bytes}
    (h : checkedFile D id text = .ok data) :
    text.length ≤ sectionMax ∧ 0 ∉ text ∧ data = frameBytes D (fileEvent id text) := by
  unfold checkedFile at h
  split at h
  · cases h
  · next hsize =>
    split at h
    · cases h
    · next hnul =>
      unfold frameWrite at h
      split at h
      · cases h
      · exact ⟨Nat.le_of_not_lt hsize, hnul, (Except.ok.inj h).symm⟩

/-- **A checked file is read as the text it was written with**, if that is UTF-8. -/
theorem checkedText_checkedFile {D : Digest} {id : Uuid} {text data : Bytes}
    (h : checkedFile D id text = .ok data) :
    checkedText D sectionMax data = if utf8Valid text then .ok text else .error .parse := by
  obtain ⟨hsize, hnul, rfl⟩ := checkedFile_ok h
  have hh : (fileEvent id text).Headed := fileEvent_headed hsize
  have hlen := hh.length_le D
  have hread := frameRead_headed D hh []
  rw [List.append_nil] at hread
  have htext : (fileEvent id text).text = text := rfl
  rw [htext] at hlen hread
  rw [checkedText, if_neg (by omega), hread]
  cases hu : utf8Valid text with
  | true =>
    rw [if_neg (by simp [hnul])]
    dsimp only
    rw [if_pos ⟨rfl, rfl, rfl, rfl, rfl, rfl, hsize⟩, htext]
    rfl
  | false =>
    rw [if_pos (.inr rfl)]
    rfl

theorem checkedText_ok {D : Digest} {id : Uuid} {text data t : Bytes}
    (hw : checkedFile D id text = .ok data) (hr : checkedText D sectionMax data = .ok t) :
    t = text := by
  rw [checkedText_checkedFile hw] at hr
  split at hr
  · exact (Except.ok.inj hr).symm
  · cases hr

theorem mapError_ok {ε ε' α : Type} {f : ε → ε'} {x : Except ε α} {a : α}
    (h : x.mapError f = .ok a) : x = .ok a := by
  cases x with
  | error e => cases h
  | ok b =>
    cases h
    rfl

theorem Table.add_recs {t t' : Table} {r : Record} (h : t.add r = .ok t') :
    t'.recs = t.recs ++ [r] := by
  unfold Table.add at h
  split at h
  · cases h
  · split at h
    · cases h
    · split at h
      · cases h
      · rw [← Except.ok.inj h]

section
variable {X : XcdnText} {D : Digest} {now : Int} {want : Section} {slug : Bytes} {t t' : Table}

theorem loadNode_ok {n : XNode} (h : loadNode now want slug t n = .ok t') :
    ∃ r, recordFromNode now n = .ok r ∧ t.add r = .ok t' := by
  unfold loadNode at h
  split at h
  · cases h
  · split at h
    · cases h
    · next r hr =>
      split at h
      · cases h
      · exact ⟨r, hr, h⟩

theorem loadNodes_ok {ns : List XNode} (h : ns.foldlM (loadNode now want slug) t = .ok t') :
    ∃ rs, t'.recs = t.recs ++ rs ∧ List.Forall₂ (fun n r => recordFromNode now n = .ok r) ns rs := by
  induction ns generalizing t with
  | nil =>
    obtain rfl := Except.ok.inj h
    exact ⟨[], (List.append_nil _).symm, .nil⟩
  | cons n ns ih =>
    rw [List.foldlM_cons] at h
    obtain ⟨t₁, h₁, h⟩ := except_bind_ok h
    obtain ⟨r, hr, hadd⟩ := loadNode_ok h₁
    obtain ⟨rs, hrs, hall⟩ := ih h
    refine ⟨r :: rs, ?_, .cons hr hall⟩
    rw [hrs, Table.add_recs hadd, List.append_assoc]
    rfl

/-- **A file that loads** holds records, which stand behind those loaded before. -/
theorem loadSectionFile_ok {data : Bytes}
    (h : loadSectionFile X D now want slug (some data) t = .ok t') :
    ∃ text ns rs, checkedText D sectionMax data = .ok text ∧ X.parse text = some ns ∧
      t'.recs = t.recs ++ rs ∧ List.Forall₂ (fun n r => recordFromNode now n = .ok r) ns rs := by
  unfold loadSectionFile at h
  dsimp only at h
  split at h
  · cases h
  · next text ht =>
    split at h
    · cases h
    · next ns hns =>
      obtain ⟨rs, hrs, hall⟩ := loadNodes_ok (mapError_ok h)
      exact ⟨text, ns, rs, ht, hns, hrs, hall⟩

end

/-! ## The files of the projects -/

theorem slugValid_ne_nil {slug : Bytes} (h : slugValid slug = true) : slug ≠ [] := by
  rintro rfl
  cases h

theorem fileSlug_name {slug : Bytes} (h : slugValid slug = true) :
    fileSlug (slug ++ ascii ".xcdn") = some slug := by
  have hpos := List.length_pos_iff.2 (slugValid_ne_nil h)
  have hlen : (slug ++ ascii ".xcdn").length - 5 = slug.length := by
    rw [List.length_append]
    exact Nat.add_sub_cancel _ 5
  rw [fileSlug, hlen, List.drop_left, List.take_left, if_pos]
  refine ⟨?_, rfl, h⟩
  rw [List.length_append]
  exact Nat.lt_add_of_pos_left hpos

theorem fileSlug_some {name slug : Bytes} (h : fileSlug name = some slug) :
    name = slug ++ ascii ".xcdn" ∧ slugValid slug = true := by
  unfold fileSlug at h
  split at h
  · next hc =>
    obtain rfl := Option.some.inj h
    refine ⟨?_, hc.2.2⟩
    rw [← hc.2.1, List.take_append_drop]
  · cases h

theorem mem_writeProject {name data : Bytes} {files : List (Bytes × Bytes)} {f : Bytes × Bytes} :
    f ∈ writeProject name data files ↔ f = (name, data) ∨ (f ∈ files ∧ f.1 ≠ name) := by
  rw [writeProject, List.mem_append, List.mem_filter, List.mem_singleton, or_comm]
  simp

section
variable {X : XcdnText} {D : Digest} {w : CompactDraw} {rs : List Record}

/-- The data was written for the records of the project `slug` among `rs`. -/
def WrittenFor (X : XcdnText) (D : Digest) (w : CompactDraw) (rs : List Record)
    (slug data : Bytes) : Prop :=
  checkedFile D (w.ids slug)
    (sectionText X (rs.filter fun r => r.section_ = .project ∧ r.project = some slug)) = .ok data

theorem compactProject_ok {files files' : SectionFiles} {slug : Bytes}
    (h : compactProject X D w rs files slug = .ok files') :
    files'.identity = files.identity ∧ files'.context = files.context ∧
    ∃ data, WrittenFor X D w rs slug data ∧
      files'.projects = writeProject (slug ++ ascii ".xcdn") data files.projects := by
  unfold compactProject at h
  obtain ⟨data, hd, h⟩ := except_bind_ok h
  cases h
  exact ⟨rfl, rfl, data, hd, rfl⟩

/-- What the files of the projects are once those of `slugs` are written. -/
structure Replaced (X : XcdnText) (D : Digest) (w : CompactDraw) (rs : List Record)
    (slugs : List Bytes) (old new : SectionFiles) : Prop where
  identity : new.identity = old.identity
  context : new.context = old.context
  written : ∀ slug ∈ slugs, ∃ data, (slug ++ ascii ".xcdn", data) ∈ new.projects
  kept : ∀ f ∈ new.projects, (∃ slug ∈ slugs, f.1 = slug ++ ascii ".xcdn" ∧
    WrittenFor X D w rs slug f.2) ∨ (f ∈ old.projects ∧ ∀ slug ∈ slugs, f.1 ≠ slug ++ ascii ".xcdn")

theorem Replaced.nil (files : SectionFiles) : Replaced X D w rs [] files files :=
  ⟨rfl, rfl, nofun, fun _ hf => .inr ⟨hf, nofun⟩⟩

theorem Replaced.step {slugs : List Bytes} {old new files : SectionFiles} {slug : Bytes}
    (h : Replaced X D w rs slugs old new) (hs : compactProject X D w rs new slug = .ok files) :
    Replaced X D w rs (slugs ++ [slug]) old files := by
  obtain ⟨hid, hctx, data, hd, hp⟩ := compactProject_ok hs
  refine ⟨hid.trans h.identity, hctx.trans h.context, ?_, ?_⟩
  · intro s hm
    rw [hp]
    by_cases he : s = slug
    · exact ⟨data, mem_writeProject.2 (.inl (by rw [he]))⟩
    · rcases List.mem_append.1 hm with hm | hm
      · obtain ⟨data', hm'⟩ := h.written s hm
        refine ⟨data', mem_writeProject.2 (.inr ⟨hm', ?_⟩)⟩
        exact fun hn => he (List.append_cancel_right hn)
      · exact absurd (List.mem_singleton.1 hm) he
  · intro f hf
    rw [hp] at hf
    rcases mem_writeProject.1 hf with rfl | ⟨hf, hne⟩
    · exact .inl ⟨slug, List.mem_append_right _ (List.mem_singleton_self _), rfl, hd⟩
    · rcases h.kept f hf with ⟨s, hm, hn, hw⟩ | ⟨hold, hall⟩
      · exact .inl ⟨s, List.mem_append_left _ hm, hn, hw⟩
      · refine .inr ⟨hold, fun s hm => ?_⟩
        rcases List.mem_append.1 hm with hm | hm
        · exact hall s hm
        · rwa [List.mem_singleton.1 hm]

theorem Replaced.run {slugs done : List Bytes} {old new files : SectionFiles}
    (h : Replaced X D w rs done old new)
    (hs : slugs.foldlM (compactProject X D w rs) new = .ok files) :
    Replaced X D w rs (done ++ slugs) old files := by
  induction slugs generalizing done new with
  | nil =>
    obtain rfl := Except.ok.inj hs
    rwa [List.append_nil]
  | cons slug slugs ih =>
    rw [List.foldlM_cons] at hs
    obtain ⟨next, h₁, hs⟩ := except_bind_ok hs
    have hnext := ih (h.step h₁) hs
    rwa [List.append_assoc] at hnext

/-- What a compaction wrote. -/
structure Compacted (X : XcdnText) (D : Digest) (w : CompactDraw) (ps : Projects)
    (rs : List Record) (old new : SectionFiles) : Prop where
  filed : ∀ r ∈ rs, hasFile ps r = true
  identity : ∃ data, new.identity = some data ∧ checkedFile D (w.ids (ascii "identity"))
    (sectionText X (rs.filter (·.section_ = .identity))) = .ok data
  context : ∃ data, new.context = some data ∧ checkedFile D (w.ids (ascii "context"))
    (sectionText X (rs.filter (·.section_ = .context))) = .ok data
  written : ∀ slug ∈ ps.slugs, ∃ data, (slug ++ ascii ".xcdn", data) ∈ new.projects
  kept : ∀ f ∈ new.projects, (∃ slug ∈ ps.slugs, f.1 = slug ++ ascii ".xcdn" ∧
    WrittenFor X D w rs slug f.2) ∨
      (f ∈ old.projects ∧ ∀ slug ∈ ps.slugs, f.1 ≠ slug ++ ascii ".xcdn")

theorem compactFiles_ok {ps : Projects} {old new : SectionFiles}
    (h : compactFiles X D w ps rs old = .ok new) : Compacted X D w ps rs old new := by
  unfold compactFiles at h
  split at h
  · cases h
  · next hall =>
    obtain ⟨identity, hi, h⟩ := except_bind_ok h
    obtain ⟨context, hc, h⟩ := except_bind_ok h
    have hrun := (Replaced.nil _).run h
    rw [List.nil_append] at hrun
    refine ⟨?_, ⟨_, hrun.identity, hi⟩, ⟨_, hrun.context, hc⟩, hrun.written, hrun.kept⟩
    rw [Bool.not_eq_false] at hall
    exact List.all_eq_true.1 hall

end

/-! ## Purging -/

theorem Table.remove_at {t : Table} {i : Nat} {r : Record} (h : t.recs[i]? = some r) :
    (t.remove r.id).recs = t.recs.take i ++ t.recs.drop (i + 1) := by
  have hsplit : t.recs = t.recs.take i ++ r :: t.recs.drop (i + 1) := by
    obtain ⟨hi, rfl⟩ := List.getElem?_eq_some_iff.1 h
    simp
  have hbefore : ∀ x ∈ t.recs.take i, ¬ decide (x.id = r.id) = true := by
    intro x hx hid
    have hn := t.nodup
    rw [hsplit, List.map_append, List.map_cons] at hn
    have hd := (List.nodup_append'.1 hn).2.2
    refine hd (List.mem_map_of_mem hx) ?_
    rw [of_decide_eq_true hid]
    exact List.mem_cons_self
  show t.recs.eraseP (fun x => decide (x.id = r.id)) = _
  conv_lhs => rw [hsplit]
  rw [List.eraseP_append_right _ hbefore, List.eraseP_cons_of_pos (by simp)]

theorem purgeRows_recs (due : Record → Bool) (i : Nat) (t : Table) (h : i ≤ t.recs.length) :
    (purgeRows due i t).recs = (t.recs.take i).filter (fun r => !due r) ++ t.recs.drop i := by
  induction i generalizing t with
  | zero => rfl
  | succ i ih =>
    have hi : t.recs[i]? = some t.recs[i] := List.getElem?_eq_getElem h
    have htake : t.recs.take (i + 1) = t.recs.take i ++ [t.recs[i]] := by simp
    have hdrop : t.recs.drop i = t.recs[i] :: t.recs.drop (i + 1) := by simp
    rw [purgeRows, hi]
    dsimp only
    cases hd : due t.recs[i] with
    | true =>
      have hrem := Table.remove_at hi
      have hlen : (t.recs.take i).length = i := by
        rw [List.length_take]
        omega
      have htake' : (t.recs.take i ++ t.recs.drop (i + 1)).take i = t.recs.take i :=
        List.take_left' hlen
      have hdrop' : (t.recs.take i ++ t.recs.drop (i + 1)).drop i = t.recs.drop (i + 1) :=
        List.drop_left' hlen
      rw [if_pos rfl, ih _ (by rw [hrem, List.length_append, hlen]; omega), hrem, htake', hdrop',
        htake, List.filter_append]
      simp [hd]
    | false =>
      rw [if_neg Bool.false_ne_true, ih _ (Nat.le_of_succ_le h), hdrop, htake, List.filter_append]
      simp [hd]

/-- **A compaction** keeps the records that are not due, in their order. -/
theorem purgeRows_all (due : Record → Bool) (t : Table) :
    (purgeRows due t.recs.length t).recs = t.recs.filter fun r => !due r := by
  rw [purgeRows_recs due _ t (Nat.le_refl _), List.take_length, List.drop_length, List.append_nil]

/-! ## The registry -/

theorem Projects.mem_add {p p' : Projects} {slug : Bytes} (h : p.add slug = .ok p') (s : Bytes) :
    s ∈ p'.slugs ↔ s = slug ∨ s ∈ p.slugs := by
  unfold Projects.add at h
  split at h
  · split at h
    · split at h
      · cases h
      · obtain rfl := Except.ok.inj h
        rw [Projects.insert, List.mem_append, List.mem_cons]
        conv_rhs => rw [← List.take_append_drop (p.index slug).1 p.slugs, List.mem_append]
        exact or_left_comm
    · next hk =>
      obtain rfl := Except.ok.inj h
      have hslug : slug ∈ p.slugs := Projects.known_iff.1 ((Bool.not_eq_false _).mp hk)
      exact ⟨.inr, fun hs => hs.elim (fun he => he ▸ hslug) id⟩
  · cases h

theorem registerRecord_ok {p p' : Projects} {r : Record} (h : registerRecord p r = .ok p')
    {s : Bytes} (hs : s ∈ p.slugs) : s ∈ p'.slugs := by
  unfold registerRecord at h
  split at h
  · split at h
    · rwa [← Except.ok.inj h]
    · exact (Projects.mem_add h s).2 (.inr hs)
  · rwa [← Except.ok.inj h]

theorem registerRecords_ok {rs : List Record} {p p' : Projects}
    (h : rs.foldlM registerRecord p = .ok p') {s : Bytes} (hs : s ∈ p.slugs) : s ∈ p'.slugs := by
  induction rs generalizing p with
  | nil => rwa [← Except.ok.inj h]
  | cons r rs ih =>
    rw [List.foldlM_cons] at h
    obtain ⟨p₁, h₁, h⟩ := except_bind_ok h
    exact ih h (registerRecord_ok h₁ hs)

/-- The projects of the files are in the registry. -/
def FilesKnown (files : SectionFiles) (ps : Projects) : Prop :=
  ∀ f ∈ files.projects, ∀ slug, fileSlug f.1 = some slug → slug ∈ ps.slugs

theorem Compacted.known {X : XcdnText} {D : Digest} {w : CompactDraw} {ps : Projects}
    {rs : List Record} {old new : SectionFiles} (h : Compacted X D w ps rs old new)
    (hold : FilesKnown old ps) : FilesKnown new ps := by
  intro f hf slug hslug
  rcases h.kept f hf with ⟨s, hs, hn, -⟩ | ⟨hm, -⟩
  · rw [hn, fileSlug_name (ps.valid s hs)] at hslug
    rwa [← Option.some.inj hslug]
  · exact hold f hm slug hslug

/-- Every file that is loaded then was written. -/
theorem Compacted.wrote {X : XcdnText} {D : Digest} {w : CompactDraw} {ps : Projects}
    {rs : List Record} {old new : SectionFiles} (h : Compacted X D w ps rs old new)
    (hold : FilesKnown old ps) {f : Bytes × Bytes} (hf : f ∈ new.projects) {slug : Bytes}
    (hslug : fileSlug f.1 = some slug) : WrittenFor X D w rs slug f.2 := by
  have hname := (fileSlug_some hslug).1
  rcases h.kept f hf with ⟨s, -, hn, hw⟩ | ⟨hm, hall⟩
  · obtain rfl : slug = s := List.append_cancel_right (hname.symm.trans hn)
    exact hw
  · exact absurd hname (hall slug (hold f hm slug hslug))

/-! ## Loading what was written -/

/-- `r` was written and `r'` is read. -/
def ReadBack (esc : UInt8 → Bytes) (now : Int) (r r' : Record) : Prop :=
  recordFromNode now ((recordBuildNode r).read esc) = .ok r'

section
variable {X : XcdnText} {D : Digest} {esc : UInt8 → Bytes} {now : Int}

theorem loadSectionFile_written (hX : X.Sound esc) {want : Section} {slug : Bytes} {t t' : Table}
    {id : Uuid} {rs : List Record} {data : Bytes}
    (hw : checkedFile D id (sectionText X rs) = .ok data)
    (hl : loadSectionFile X D now want slug (some data) t = .ok t') :
    ∃ rs', t'.recs = t.recs ++ rs' ∧ List.Forall₂ (ReadBack esc now) rs rs' := by
  obtain ⟨text, ns, rs', ht, hns, hrecs, hall⟩ := loadSectionFile_ok hl
  rw [checkedText_ok hw ht] at hns
  rw [hX.records rs ns hns, List.forall₂_map_left_iff] at hall
  exact ⟨rs', hrecs, hall⟩

/-- Every record of `rs` is read back to one of the table, and what else there is was there. -/
structure Restored (esc : UInt8 → Bytes) (now : Int) (rs : List Record) (t t' : Table) : Prop where
  old : ∀ r ∈ t.recs, r ∈ t'.recs
  found : ∀ r ∈ rs, ∃ r' ∈ t'.recs, ReadBack esc now r r'
  only : ∀ r' ∈ t'.recs, r' ∈ t.recs ∨ ∃ r ∈ rs, ReadBack esc now r r'

theorem Restored.of_forall₂ {rs rs' : List Record} {t t' : Table} (h : t'.recs = t.recs ++ rs')
    (hall : List.Forall₂ (ReadBack esc now) rs rs') : Restored esc now rs t t' where
  old r hr := by
    rw [h]
    exact List.mem_append_left _ hr
  found r hr := by
    obtain ⟨r', hr', hb⟩ := forall₂_left hall hr
    rw [h]
    exact ⟨r', List.mem_append_right _ hr', hb⟩
  only r' hr' := by
    rw [h] at hr'
    rcases List.mem_append.1 hr' with hr' | hr'
    · exact .inl hr'
    · exact .inr (forall₂_left hall.flip hr')

theorem Restored.append {rs ss : List Record} {t t₁ t' : Table} (h : Restored esc now rs t t₁)
    (h' : Restored esc now ss t₁ t') : Restored esc now (rs ++ ss) t t' where
  old r hr := h'.old r (h.old r hr)
  found r hr := by
    rcases List.mem_append.1 hr with hr | hr
    · obtain ⟨r', hr', hb⟩ := h.found r hr
      exact ⟨r', h'.old r' hr', hb⟩
    · exact h'.found r hr
  only r' hr' := by
    rcases h'.only r' hr' with hr' | ⟨r, hr, hb⟩
    · rcases h.only r' hr' with hr' | ⟨r, hr, hb⟩
      · exact .inl hr'
      · exact .inr ⟨r, List.mem_append_left _ hr, hb⟩
    · exact .inr ⟨r, List.mem_append_right _ hr, hb⟩

theorem loadProject_ok {m m' : Memory} {f : Bytes × Bytes} (h : loadProject X D now m f = .ok m') :
    (fileSlug f.1 = none ∧ m' = m) ∨ ∃ slug, fileSlug f.1 = some slug ∧
      loadSectionFile X D now .project slug (some f.2) m.table = .ok m'.table ∧
      m.projects.add slug = .ok m'.projects := by
  unfold loadProject at h
  split at h
  · next hn =>
    exact .inl ⟨hn, (Except.ok.inj h).symm⟩
  · next slug hs =>
    obtain ⟨table, ht, h⟩ := except_bind_ok h
    obtain ⟨projects, hp, h⟩ := except_bind_ok h
    cases h
    exact .inr ⟨slug, hs, ht, hp⟩

theorem loadProjects_known {l : List (Bytes × Bytes)} {m m' : Memory}
    (h : l.foldlM (loadProject X D now) m = .ok m') :
    (∀ s ∈ m.projects.slugs, s ∈ m'.projects.slugs) ∧
      ∀ f ∈ l, ∀ slug, fileSlug f.1 = some slug → slug ∈ m'.projects.slugs := by
  induction l generalizing m with
  | nil =>
    obtain rfl := Except.ok.inj h
    exact ⟨fun _ hs => hs, nofun⟩
  | cons f l ih =>
    rw [List.foldlM_cons] at h
    obtain ⟨m₁, h₁, h⟩ := except_bind_ok h
    obtain ⟨hmono, hall⟩ := ih h
    rcases loadProject_ok h₁ with ⟨hn, rfl⟩ | ⟨slug, hs, -, hadd⟩
    · refine ⟨hmono, fun g hg s hgs => ?_⟩
      rcases List.mem_cons.1 hg with rfl | hg
      · rw [hn] at hgs
        cases hgs
      · exact hall g hg s hgs
    · have hadd := Projects.mem_add hadd
      refine ⟨fun s hm => hmono s ((hadd s).2 (.inr hm)), fun g hg s hgs => ?_⟩
      rcases List.mem_cons.1 hg with rfl | hg
      · rw [hs] at hgs
        exact hmono s ((hadd s).2 (.inl (Option.some.inj hgs).symm))
      · exact hall g hg s hgs

/-- The records of the project `slug`. -/
def ofProject (slug : Bytes) (r : Record) : Bool := r.section_ = .project ∧ r.project = some slug

theorem loadProjects_written (hX : X.Sound esc) {w : CompactDraw} {rs : List Record}
    {l : List (Bytes × Bytes)} {m m' : Memory} (h : l.foldlM (loadProject X D now) m = .ok m')
    (hw : ∀ f ∈ l, ∀ slug, fileSlug f.1 = some slug → WrittenFor X D w rs slug f.2) :
    ∃ ss, Restored esc now ss m.table m'.table ∧ ∀ r, r ∈ ss ↔
      r ∈ rs ∧ ∃ f ∈ l, ∃ slug, fileSlug f.1 = some slug ∧ ofProject slug r = true := by
  induction l generalizing m with
  | nil =>
    obtain rfl := Except.ok.inj h
    exact ⟨[], ⟨fun _ h => h, by simp, fun _ h => .inl h⟩, by simp⟩
  | cons f l ih =>
    rw [List.foldlM_cons] at h
    obtain ⟨m₁, h₁, h⟩ := except_bind_ok h
    obtain ⟨ss, hss, hmem⟩ := ih h fun g hg => hw g (List.mem_cons_of_mem _ hg)
    rcases loadProject_ok h₁ with ⟨hn, rfl⟩ | ⟨slug, hs, hload, -⟩
    · refine ⟨ss, hss, fun r => ?_⟩
      rw [hmem, List.exists_mem_cons_iff, hn]
      simp
    · obtain ⟨rs', hrecs, hall⟩ := loadSectionFile_written hX
        (hw f List.mem_cons_self slug hs) hload
      refine ⟨rs.filter (ofProject slug) ++ ss, (Restored.of_forall₂ hrecs hall).append hss, ?_⟩
      intro r
      rw [List.mem_append, List.mem_filter, hmem, List.exists_mem_cons_iff, hs, ← and_or_left]
      simp

/-- The files of a compaction hold the records it wrote. -/
theorem storeLoad_written (hX : X.Sound esc) {w : CompactDraw} {ps : Projects} {rs : List Record}
    {old new : SectionFiles} {m : Memory} (hnew : Compacted X D w ps rs old new)
    (hold : FilesKnown old ps) (hl : storeLoad X D now new = .ok m) :
    ∃ ss, Restored esc now ss .empty m.table ∧ ∀ r, r ∈ ss ↔ r ∈ rs := by
  obtain ⟨identity, hi, hiw⟩ := hnew.identity
  obtain ⟨context, hc, hcw⟩ := hnew.context
  unfold storeLoad at hl
  rw [hi, hc] at hl
  obtain ⟨t₁, h₁, hl⟩ := except_bind_ok hl
  obtain ⟨t₂, h₂, hl⟩ := except_bind_ok hl
  obtain ⟨rs₁, hrecs₁, hall₁⟩ := loadSectionFile_written hX hiw h₁
  obtain ⟨rs₂, hrecs₂, hall₂⟩ := loadSectionFile_written hX hcw h₂
  have hsorted : ∀ f, f ∈ new.projects.mergeSort nameLe ↔ f ∈ new.projects := fun f =>
    (List.mergeSort_perm _ _).mem_iff
  obtain ⟨ss, hss, hmem⟩ := loadProjects_written hX hl fun f hf slug hs =>
    hnew.wrote hold ((hsorted f).1 hf) hs
  refine ⟨_, ((Restored.of_forall₂ hrecs₁ hall₁).append (.of_forall₂ hrecs₂ hall₂)).append hss, ?_⟩
  intro r
  simp only [List.mem_append, List.mem_filter, decide_eq_true_eq, hmem]
  constructor
  · rintro ((⟨hr, -⟩ | ⟨hr, -⟩) | ⟨hr, -⟩) <;> exact hr
  · intro hr
    cases hsec : r.section_ with
    | identity => exact .inl (.inl ⟨hr, rfl⟩)
    | context => exact .inl (.inr ⟨hr, rfl⟩)
    | project =>
      have hfile := hnew.filed r hr
      unfold hasFile at hfile
      rw [hsec] at hfile
      cases hp : r.project with
      | none =>
        rw [hp] at hfile
        cases hfile
      | some slug =>
        rw [hp] at hfile
        have hslug : slug ∈ ps.slugs := Projects.known_iff.1 hfile
        obtain ⟨data, hd⟩ := hnew.written slug hslug
        refine .inr ⟨hr, _, (hsorted _).2 hd, slug, fileSlug_name (ps.valid slug hslug), ?_⟩
        simp [ofProject, hsec, hp]

/-- **A compaction is read back**: the files hold the records that are not due. -/
theorem storeCompact_load (hX : X.Sound esc) {w : CompactDraw} {purgeAfter : Int} {m m' m₂ : Memory}
    {files files' : SectionFiles} (hknown : FilesKnown files m.projects)
    (hc : storeCompact X D w purgeAfter m files = .ok (m', files'))
    (hl : storeLoad X D now files' = .ok m₂) :
    (∀ r ∈ m'.table.recs, ∃ r' ∈ m₂.table.recs, ReadBack esc now r r') ∧
      ∀ r' ∈ m₂.table.recs, ∃ r ∈ m'.table.recs, ReadBack esc now r r' := by
  unfold storeCompact at hc
  obtain ⟨ps, hps, hc⟩ := except_bind_ok hc
  obtain ⟨new, hfiles, hc⟩ := except_bind_ok hc
  cases hc
  have hnew := compactFiles_ok hfiles
  have hold : FilesKnown files ps := fun f hf slug hs =>
    registerRecords_ok hps (hknown f hf slug hs)
  obtain ⟨ss, hss, hmem⟩ := storeLoad_written hX hnew hold hl
  dsimp only
  rw [purgeRows_all]
  constructor
  · intro r hr
    exact hss.found r ((hmem r).2 hr)
  · intro r' hr'
    rcases hss.only r' hr' with hr' | ⟨r, hr, hb⟩
    · cases hr'
    · exact ⟨r, (hmem r).1 hr, hb⟩

end

end Asper
