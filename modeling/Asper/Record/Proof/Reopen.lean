import Asper.Journal.Proof.Atomic
import Asper.Record.Proof.Runs
import Asper.Record.Proof.Storable

/-! # What a store is when it is opened again

Two memories agree (`Memory.Same`) when they hold the same records and projects. Over a run of
operations, compactions and openings the files and the journal are always loaded as a memory that
agrees with the live one (`Restorable`, `reopen_same`). -/

namespace Asper

open Durable
open JsonEscape

/-! ## Operations on memories that agree -/

section
variable {m m' l : Memory} {op : Op}

/-- **An operation succeeds alike** on memories that agree, and they agree after it. -/
theorem storeApply_same (h : m.Same l) (ha : storeApply m op = .ok m') :
    ∃ l', storeApply l op = .ok l' ∧ m'.Same l' := by
  have hlen := h.perm.length_eq
  suffices hsuff : ∃ l', storeApply l op = .ok l' ∧ m'.projects = l'.projects by
    obtain ⟨l', hl, hp⟩ := hsuff
    refine ⟨l', hl, fun id => ?_, hp⟩
    rw [storeApply_effect ha, storeApply_effect hl, h.get]
  unfold storeApply at ha ⊢
  cases hk : op.kind with
  | insert r =>
    rw [hk] at ha
    dsimp only at ha ⊢
    split at ha
    · cases ha
    · next t ht =>
      obtain rfl := Except.ok.inj ha
      obtain ⟨hid, hnew, hroom⟩ := Table.add_inv ht
      rw [h.get] at hnew
      rw [hlen] at hroom
      obtain ⟨t', ht'⟩ := Table.add_ok hid hnew hroom
      rw [ht']
      exact ⟨_, rfl, h.projects⟩
  | update id content declared =>
    rw [hk] at ha
    dsimp only at ha ⊢
    rw [← h.get]
    split at ha
    · cases ha
    · next r hr =>
      split at ha
      · cases ha
      · next hd =>
        obtain rfl := Except.ok.inj ha
        dsimp only
        rw [if_neg hd]
        exact ⟨_, rfl, h.projects⟩
  | access ids =>
    rw [hk] at ha
    obtain rfl := Except.ok.inj ha
    exact ⟨_, rfl, h.projects⟩
  | projectCreate slug =>
    rw [hk] at ha
    dsimp only at ha ⊢
    rw [← h.projects]
    split at ha
    · cases ha
    · next p hp =>
      obtain rfl := Except.ok.inj ha
      exact ⟨_, rfl, rfl⟩
  | _ =>
    rw [hk] at ha
    dsimp only at ha ⊢
    rw [← h.get]
    split at ha
    · cases ha
    · obtain rfl := Except.ok.inj ha
      exact ⟨_, rfl, h.projects⟩

end

/-! ## The registry -/

theorem Projects.slugs_nodup (p : Projects) : p.slugs.Nodup := by
  refine List.Pairwise.imp ?_ p.sorted
  rintro a b hlt rfl
  exact List.lt_irrefl a hlt

/-- Registries of the same projects are the same. -/
theorem Projects.ext_mem {p q : Projects} (h : ∀ s, s ∈ p.slugs ↔ s ∈ q.slugs) : p = q := by
  have hperm := (List.perm_ext_iff_of_nodup p.slugs_nodup q.slugs_nodup).2 h
  have hslugs : p.slugs = q.slugs := hperm.eq_of_pairwise
    (fun a b _ _ hab hba => absurd (List.lt_trans hab hba) (List.lt_irrefl a)) p.sorted q.sorted
  cases p
  cases q
  obtain rfl := hslugs
  rfl

/-- A project of a registry within the limit can be added to a part of it. -/
theorem Projects.add_ok {p q : Projects} {slug : Bytes} (hq : ∀ s ∈ q.slugs, s ∈ p.slugs)
    (hs : slug ∈ p.slugs) (hlen : p.slugs.length ≤ projectLimit) : ∃ q', q.add slug = .ok q' := by
  unfold Projects.add
  rw [dif_pos (p.valid slug hs)]
  by_cases hk : (q.index slug).2 = false
  · have hnew : slug ∉ q.slugs := by
      intro hm
      have hknown : (q.index slug).2 = true := Projects.known_iff.2 hm
      rw [hk] at hknown
      cases hknown
    have hlt : (slug :: q.slugs).length ≤ p.slugs.length :=
      (List.subperm_of_subset (List.nodup_cons.2 ⟨hnew, q.slugs_nodup⟩)
        (List.cons_subset.2 ⟨hs, hq⟩)).length_le
    rw [List.length_cons] at hlt
    rw [dif_pos hk, if_neg (by omega)]
    exact ⟨_, rfl⟩
  · rw [dif_neg hk]
    exact ⟨_, rfl⟩

/-! ## Loading what was written -/

/-- The text of the records `rs` is a C string in UTF-8 that is read as what was written. -/
structure Legible (X : XcdnText) (esc : UInt8 → Bytes) (rs : List Record) : Prop where
  noNul : 0 ∉ sectionText X rs
  utf8 : utf8Valid (sectionText X rs) = true
  parse : X.parse (sectionText X rs) = some (rs.map fun r => (recordBuildNode r).read esc)

section
variable {X : XcdnText} {D : Digest} {esc : UInt8 → Bytes} {now : Int}

theorem loadNode_storable (hesc : ∀ b, b < 0x20 ∨ b = 34 → Escape b.toNat (esc b)) {want : Section}
    {slug : Bytes} {t : Table} {r : Record} (h : r.Storable) (hs : r.section_ = want)
    (hp : want = .project → r.project = some slug) :
    loadNode now want slug t ((recordBuildNode r).read esc) = t.add r := by
  have htags : ((recordBuildNode r).read esc).tags = [ascii "memory"] := rfl
  have hplace : ¬ (r.section_ ≠ want ∨ want = .project ∧ r.project ≠ some slug) := by
    rintro (hne | ⟨hw, hne⟩)
    · exact hne hs
    · exact hne (hp hw)
  rw [loadNode, if_neg (not_not.2 htags), recordFromNode_build hesc h]
  dsimp only
  rw [if_neg hplace]

theorem loadNodes_storable (now : Int)
    (hesc : ∀ b, b < 0x20 ∨ b = 34 → Escape b.toNat (esc b)) {want : Section}
    {slug : Bytes} {rs : List Record} {t : Table} (h : ∀ r ∈ rs, r.Storable)
    (hs : ∀ r ∈ rs, r.section_ = want ∧ (want = .project → r.project = some slug))
    (hnodup : ((t.recs ++ rs).map (·.id)).Nodup) (hlen : (t.recs ++ rs).length ≤ recordLimit) :
    ∃ t', (rs.map fun r => (recordBuildNode r).read esc).foldlM (loadNode now want slug) t = .ok t' ∧
      t'.recs = t.recs ++ rs := by
  induction rs generalizing t with
  | nil => exact ⟨t, rfl, (List.append_nil _).symm⟩
  | cons r rs ih =>
    have hr := h r List.mem_cons_self
    have hnew : t.get r.id = none := by
      cases hg : t.get r.id with
      | none => rfl
      | some x =>
        obtain ⟨hx, hid⟩ := Table.get_eq_some.1 hg
        rw [List.map_append, List.map_cons] at hnodup
        have hd := (List.nodup_append'.1 hnodup).2.2
        exact absurd List.mem_cons_self (hd (hid ▸ List.mem_map_of_mem hx))
    have hid : r.id ≠ [] := by
      intro he
      have hlength := uuidShape_length hr.id
      rw [he] at hlength
      cases hlength
    have hroom : t.recs.length < recordLimit := by
      rw [List.length_append, List.length_cons] at hlen
      omega
    obtain ⟨t₁, ht₁⟩ := Table.add_ok hid hnew hroom
    have hrecs := Table.add_recs ht₁
    have hsplit : t₁.recs ++ rs = t.recs ++ r :: rs := by rw [hrecs, List.append_assoc]; rfl
    obtain ⟨t', ht', hend⟩ := ih (t := t₁) (fun x hx => h x (List.mem_cons_of_mem _ hx))
      (fun x hx => hs x (List.mem_cons_of_mem _ hx)) (hsplit ▸ hnodup) (hsplit ▸ hlen)
    obtain ⟨hsec, hproj⟩ := hs r List.mem_cons_self
    refine ⟨t', ?_, hend.trans hsplit⟩
    rw [List.map_cons, List.foldlM_cons, loadNode_storable hesc hr hsec hproj, ht₁]
    exact ht'

/-- **A file of storable records loads** behind what was loaded before. -/
theorem loadSectionFile_storable (now : Int)
    (hesc : ∀ b, b < 0x20 ∨ b = 34 → Escape b.toNat (esc b))
    {want : Section} {slug : Bytes} {rs : List Record} {t : Table} {id : Uuid} {data : Bytes}
    (hw : checkedFile D id (sectionText X rs) = .ok data) (hx : Legible X esc rs)
    (h : ∀ r ∈ rs, r.Storable)
    (hs : ∀ r ∈ rs, r.section_ = want ∧ (want = .project → r.project = some slug))
    (hnodup : ((t.recs ++ rs).map (·.id)).Nodup) (hlen : (t.recs ++ rs).length ≤ recordLimit) :
    ∃ t', loadSectionFile X D now want slug (some data) t = .ok t' ∧ t'.recs = t.recs ++ rs := by
  obtain ⟨t', ht', hrecs⟩ := loadNodes_storable now hesc h hs hnodup hlen
  refine ⟨t', ?_, hrecs⟩
  unfold loadSectionFile
  dsimp only
  rw [checkedText_checkedFile hw, hx.utf8, if_pos rfl]
  dsimp only
  rw [hx.parse]
  dsimp only
  rw [ht']
  rfl

/-- The records of the file `f` of a project. -/
def fileRecords (rs : List Record) (f : Bytes × Bytes) : List Record :=
  (fileSlug f.1).elim [] fun slug => rs.filter (ofProject slug)

theorem loadProjects_storable (now : Int)
    (hesc : ∀ b, b < 0x20 ∨ b = 34 → Escape b.toNat (esc b))
    {w : CompactDraw} {rs : List Record} {ps : Projects} {l : List (Bytes × Bytes)} {m : Memory}
    (hx : ∀ p, Legible X esc (rs.filter p)) (h : ∀ r ∈ rs, r.Storable)
    (hw : ∀ f ∈ l, ∀ slug, fileSlug f.1 = some slug → WrittenFor X D w rs slug f.2)
    (hnodup : ((m.table.recs ++ l.flatMap (fileRecords rs)).map (·.id)).Nodup)
    (hlen : (m.table.recs ++ l.flatMap (fileRecords rs)).length ≤ recordLimit)
    (hm : ∀ s ∈ m.projects.slugs, s ∈ ps.slugs)
    (hl : ∀ f ∈ l, ∀ slug, fileSlug f.1 = some slug → slug ∈ ps.slugs)
    (hps : ps.slugs.length ≤ projectLimit) :
    ∃ m', l.foldlM (loadProject X D now) m = .ok m' ∧
      m'.table.recs = m.table.recs ++ l.flatMap (fileRecords rs) ∧
      ∀ s ∈ m'.projects.slugs, s ∈ ps.slugs := by
  induction l generalizing m with
  | nil => exact ⟨m, rfl, (List.append_nil _).symm, hm⟩
  | cons f l ih =>
    have hw' := fun g hg => hw g (List.mem_cons_of_mem _ hg)
    have hl' := fun g hg => hl g (List.mem_cons_of_mem _ hg)
    rw [List.flatMap_cons] at hnodup hlen
    cases hs : fileSlug f.1 with
    | none =>
      have hempty : fileRecords rs f = [] := by rw [fileRecords, hs]; rfl
      have hskip : loadProject X D now m f = .ok m := by
        unfold loadProject
        rw [hs]
      rw [hempty, List.nil_append] at hnodup hlen
      obtain ⟨m', hm', hrecs, hslugs⟩ := ih hw' hnodup hlen hm hl'
      refine ⟨m', ?_, ?_, hslugs⟩
      · rw [List.foldlM_cons, hskip]
        exact hm'
      · rw [List.flatMap_cons, hempty]
        exact hrecs
    | some slug =>
      have hgroup : fileRecords rs f = rs.filter (ofProject slug) := by rw [fileRecords, hs]; rfl
      rw [hgroup] at hnodup hlen
      rw [← List.append_assoc] at hnodup hlen
      have hfirst : ((m.table.recs ++ rs.filter (ofProject slug)).map (·.id)).Nodup := by
        rw [List.map_append] at hnodup
        exact (List.nodup_append'.1 hnodup).1
      have hfirstLen : (m.table.recs ++ rs.filter (ofProject slug)).length ≤ recordLimit := by
        rw [List.length_append] at hlen
        omega
      have hplace : ∀ r ∈ rs.filter (ofProject slug), r.section_ = .project ∧
          (Section.project = .project → r.project = some slug) := by
        intro r hr
        have hof := of_decide_eq_true (List.mem_filter.1 hr).2
        exact ⟨hof.1, fun _ => hof.2⟩
      obtain ⟨t, ht, htrecs⟩ := loadSectionFile_storable now hesc
        (hw f List.mem_cons_self slug hs) (hx _)
        (fun r hr => h r (List.mem_filter.1 hr).1) hplace hfirst hfirstLen
      have hslug := hl f List.mem_cons_self slug hs
      obtain ⟨q, hq⟩ := Projects.add_ok hm hslug hps
      have hstep : loadProject X D now m f = .ok ⟨t, q⟩ := by
        unfold loadProject
        rw [hs]
        dsimp only
        rw [ht, hq]
        rfl
      have hqs : ∀ s ∈ q.slugs, s ∈ ps.slugs := by
        intro s hsq
        rcases (Projects.mem_add hq s).1 hsq with rfl | hsm
        · exact hslug
        · exact hm s hsm
      obtain ⟨m', hm', hrecs, hslugs⟩ :=
        ih (m := ⟨t, q⟩) hw' (htrecs ▸ hnodup) (htrecs ▸ hlen) hqs hl'
      refine ⟨m', ?_, ?_, hslugs⟩
      · rw [List.foldlM_cons, hstep]
        exact hm'
      · rw [List.flatMap_cons, hgroup, ← List.append_assoc]
        rw [hrecs]
        exact congrArg (· ++ _) htrecs

/-- The files in the order in which they are loaded. -/
def SectionFiles.sorted (files : SectionFiles) : List (Bytes × Bytes) :=
  files.projects.mergeSort nameLe

theorem SectionFiles.mem_sorted {files : SectionFiles} {f : Bytes × Bytes} :
    f ∈ files.sorted ↔ f ∈ files.projects := (List.mergeSort_perm _ _).mem_iff

/-- All records of the files, in the order in which they are loaded. -/
def loadedRecords (rs : List Record) (files : SectionFiles) : List Record :=
  rs.filter (·.section_ = .identity) ++ rs.filter (·.section_ = .context) ++
    files.sorted.flatMap (fileRecords rs)

theorem mem_fileRecords {rs : List Record} {f : Bytes × Bytes} {r : Record} :
    r ∈ fileRecords rs f ↔ r ∈ rs ∧ ∃ slug, fileSlug f.1 = some slug ∧ ofProject slug r = true := by
  unfold fileRecords
  cases fileSlug f.1 <;> simp

theorem mem_loadedRecords {w : CompactDraw} {ps : Projects} {rs : List Record}
    {old new : SectionFiles} (h : Compacted X D w ps rs old new) {r : Record} :
    r ∈ loadedRecords rs new ↔ r ∈ rs := by
  simp only [loadedRecords, List.mem_append, List.mem_filter, List.mem_flatMap, mem_fileRecords,
    SectionFiles.mem_sorted, decide_eq_true_eq]
  constructor
  · rintro ((⟨hr, -⟩ | ⟨hr, -⟩) | ⟨-, -, hr, -⟩) <;> exact hr
  · intro hr
    have hfile := h.filed r hr
    unfold hasFile at hfile
    cases hsec : r.section_ with
    | identity => exact .inl (.inl ⟨hr, rfl⟩)
    | context => exact .inl (.inr ⟨hr, rfl⟩)
    | project =>
      rw [hsec] at hfile
      cases hp : r.project with
      | none =>
        rw [hp] at hfile
        cases hfile
      | some slug =>
        rw [hp] at hfile
        have hslug : slug ∈ ps.slugs := Projects.known_iff.1 hfile
        obtain ⟨data, hd⟩ := h.written slug hslug
        exact .inr ⟨_, hd, hr, slug, fileSlug_name (ps.valid slug hslug), by simp [ofProject, hsec, hp]⟩

/-- No record is loaded twice. -/
theorem loadedRecords_nodup {rs : List Record} (h : rs.Nodup) (files : SectionFiles) :
    (loadedRecords rs files).Nodup := by
  have hnames : (files.sorted.map (·.1)).Nodup :=
    ((List.mergeSort_perm files.projects nameLe).map _).nodup_iff.2 files.nodup
  have hgroups : (files.sorted.flatMap (fileRecords rs)).Nodup := by
    refine List.nodup_flatMap.2 ⟨fun f _ => ?_, ?_⟩
    · unfold fileRecords
      cases fileSlug f.1 with
      | none => exact List.nodup_nil
      | some slug => exact h.filter _
    · refine (List.pairwise_map.1 hnames).imp fun {f g} hne r hf hg => ?_
      obtain ⟨-, s, hs, hrs⟩ := mem_fileRecords.1 hf
      obtain ⟨-, s', hs', hrs'⟩ := mem_fileRecords.1 hg
      obtain rfl : s = s' := Option.some.inj
        ((of_decide_eq_true hrs).2.symm.trans (of_decide_eq_true hrs').2)
      exact hne ((fileSlug_some hs).1.trans (fileSlug_some hs').1.symm)
  refine List.nodup_append'.2 ⟨List.nodup_append'.2 ⟨h.filter _, h.filter _, ?_⟩, hgroups, ?_⟩
  · intro r hi hc
    have hi := of_decide_eq_true (List.mem_filter.1 hi).2
    have hc := of_decide_eq_true (List.mem_filter.1 hc).2
    rw [hi] at hc
    cases hc
  · intro r hr hg
    obtain ⟨f, -, hf⟩ := List.mem_flatMap.1 hg
    obtain ⟨-, s, -, hof⟩ := mem_fileRecords.1 hf
    have hsec := (of_decide_eq_true hof).1
    rcases List.mem_append.1 hr with hr | hr <;>
    · have hr := of_decide_eq_true (List.mem_filter.1 hr).2
      rw [hsec] at hr
      cases hr

/-- **The files of a compaction load** and hold the records and the projects it wrote. -/
theorem storeLoad_storable (now : Int)
    (hesc : ∀ b, b < 0x20 ∨ b = 34 → Escape b.toNat (esc b))
    {w : CompactDraw} {rs : List Record} {ps : Projects} {old new : SectionFiles}
    (hnew : Compacted X D w ps rs old new) (hold : FilesKnown old ps)
    (hx : ∀ p, Legible X esc (rs.filter p)) (h : ∀ r ∈ rs, r.Storable)
    (hnodup : (rs.map (·.id)).Nodup) (hlen : rs.length ≤ recordLimit)
    (hps : ps.slugs.length ≤ projectLimit) :
    ∃ m, storeLoad X D now new = .ok m ∧ (∀ r, r ∈ m.table.recs ↔ r ∈ rs) ∧ m.projects = ps := by
  have hall := loadedRecords_nodup (hnodup.of_map _) new
  have hids : ((loadedRecords rs new).map (·.id)).Nodup :=
    hall.map_on fun r hr r' hr' he => List.inj_on_of_nodup_map hnodup
      ((mem_loadedRecords hnew).1 hr) ((mem_loadedRecords hnew).1 hr') he
  have hsize : (loadedRecords rs new).length ≤ recordLimit :=
    ((List.subperm_of_subset hall fun r hr => (mem_loadedRecords hnew).1 hr).length_le).trans hlen
  unfold loadedRecords at hids hsize
  have hids' := hids
  rw [List.map_append] at hids'
  have hfront := (List.nodup_append'.1 hids').1
  have hfront' := hfront
  rw [List.map_append] at hfront'
  have hsize' := hsize
  rw [List.length_append] at hsize'
  have hsize'' := hsize'
  rw [List.length_append] at hsize''
  obtain ⟨identity, hi, hiw⟩ := hnew.identity
  obtain ⟨context, hc, hcw⟩ := hnew.context
  have hplace : ∀ (want : Section), want ≠ .project → ∀ r ∈ rs.filter (·.section_ = want),
      r.section_ = want ∧ (want = .project → r.project = some []) := fun want hne r hr =>
    ⟨of_decide_eq_true (List.mem_filter.1 hr).2, fun he => absurd he hne⟩
  obtain ⟨t₁, h₁, hrecs₁⟩ := loadSectionFile_storable now (t := .empty) hesc hiw (hx _)
    (fun r hr => h r (List.mem_filter.1 hr).1) (hplace .identity (by decide))
    (List.nodup_append'.1 hfront').1 (show (rs.filter _).length ≤ _ by omega)
  have hrecs₁ : t₁.recs = rs.filter (·.section_ = .identity) := hrecs₁
  obtain ⟨t₂, h₂, hrecs₂⟩ := loadSectionFile_storable now (t := t₁) hesc hcw (hx _)
    (fun r hr => h r (List.mem_filter.1 hr).1) (hplace .context (by decide))
    (hrecs₁ ▸ hfront) (by rw [hrecs₁, List.length_append]; omega)
  rw [hrecs₁] at hrecs₂
  obtain ⟨m, hm, hrecs, hslugs⟩ := loadProjects_storable now (m := ⟨t₂, .empty⟩) hesc hx h
    (fun f hf slug hs => hnew.wrote hold (SectionFiles.mem_sorted.1 hf) hs) (hrecs₂ ▸ hids)
    (hrecs₂ ▸ hsize) (fun _ hs => absurd hs List.not_mem_nil)
    (fun f hf slug hs => hnew.known hold f (SectionFiles.mem_sorted.1 hf) slug hs) hps
  have hknown := (loadProjects_known hm).2
  refine ⟨m, ?_, fun r => ?_, Projects.ext_mem fun s => ⟨hslugs s, fun hs => ?_⟩⟩
  · unfold storeLoad
    rw [hi, hc, h₁]
    show (loadSectionFile X D now .context [] (some context) t₁ >>= _) = _
    rw [h₂]
    exact hm
  · have hend : m.table.recs = loadedRecords rs new := by
      rw [hrecs]
      exact congrArg (· ++ _) hrecs₂
    rw [hend, mem_loadedRecords hnew]
  · obtain ⟨data, hd⟩ := hnew.written s hs
    exact hknown _ (SectionFiles.mem_sorted.2 hd) s (fileSlug_name (ps.valid s hs))

/-! ## The invariant -/

/-- What is in `s` can be stored, and is what is loaded from it at any time. -/
structure Restorable (X : XcdnText) (D : Digest) (s : StoreState) : Prop where
  storable : ∀ r ∈ s.memory.table.recs, r.Storable
  registered : ∀ r ∈ s.memory.table.recs, ∀ slug, r.project = some slug →
    slug ∈ s.memory.projects.slugs
  records_le : s.memory.table.recs.length ≤ recordLimit
  projects_le : s.memory.projects.slugs.length ≤ projectLimit
  known : FilesKnown s.files s.memory.projects
  reload : ∀ now, ∃ m, storeOpen X D now s.files s.journal = .ok m ∧ m.Same s.memory

theorem Restorable.empty (X : XcdnText) (D : Digest) : Restorable X D .empty where
  storable _ hr := absurd hr List.not_mem_nil
  registered _ hr := absurd hr List.not_mem_nil
  records_le := Nat.zero_le _
  projects_le := Nat.zero_le _
  known _ hf := absurd hf List.not_mem_nil
  reload now := ⟨.empty, storeOpen_empty X D now, Memory.Same.refl _⟩

theorem accessAll_length (at_ : Int) (ids : List Bytes) (t : Table) :
    (accessAll at_ t ids).recs.length = t.recs.length := by
  induction ids generalizing t with
  | nil => rfl
  | cons i ids ih => exact (ih _).trans (List.length_map _)

theorem Projects.add_length {p p' : Projects} {slug : Bytes} (h : p.add slug = .ok p')
    (hp : p.slugs.length ≤ projectLimit) : p'.slugs.length ≤ projectLimit := by
  unfold Projects.add at h
  split at h
  · split at h
    · split at h
      · cases h
      · obtain rfl := Except.ok.inj h
        rw [Projects.insert, List.length_append, List.length_cons, List.length_take,
          List.length_drop]
        omega
    · rwa [← Except.ok.inj h]
  · cases h

/-- The limits of the table and of the registry are kept. -/
theorem storeApply_limits {m m' : Memory} {op : Op} (h : storeApply m op = .ok m')
    (hr : m.table.recs.length ≤ recordLimit) (hp : m.projects.slugs.length ≤ projectLimit) :
    m'.table.recs.length ≤ recordLimit ∧ m'.projects.slugs.length ≤ projectLimit := by
  unfold storeApply at h
  cases hk : op.kind with
  | insert r =>
    rw [hk] at h
    dsimp only at h
    split at h
    · cases h
    · next t ht =>
      obtain rfl := Except.ok.inj h
      have hroom := (Table.add_inv ht).2.2
      refine ⟨?_, hp⟩
      show t.recs.length ≤ _
      rw [Table.add_recs ht, List.length_append]
      exact hroom
  | update id content declared =>
    rw [hk] at h
    dsimp only at h
    split at h
    · cases h
    · split at h
      · cases h
      · obtain rfl := Except.ok.inj h
        exact ⟨(List.length_map _).trans_le hr, hp⟩
  | access ids =>
    rw [hk] at h
    obtain rfl := Except.ok.inj h
    exact ⟨(accessAll_length _ _ _).trans_le hr, hp⟩
  | projectCreate slug =>
    rw [hk] at h
    dsimp only at h
    split at h
    · cases h
    · next p hadd =>
      obtain rfl := Except.ok.inj h
      exact ⟨hr, Projects.add_length hadd hp⟩
  | _ =>
    rw [hk] at h
    dsimp only at h
    split at h
    · cases h
    · obtain rfl := Except.ok.inj h
      exact ⟨(List.length_map _).trans_le hr, hp⟩

/-- What a run asks of a call: the operation is as the format holds it, and what the call writes is
read back by the library. -/
def StoreCall.Faithful (X : XcdnText) (esc : UInt8 → Bytes) (s : StoreState) : StoreCall → Prop
  | .apply op _ _ => op.Storable ∧ 0 < op.at_ ∧
    X.parse (X.compact (opBuildNode op)) = some [(opBuildNode op).read esc]
  | .compact _ => ∀ rs : List Record, rs.Sublist s.memory.table.recs → Legible X esc rs
  | .reopen _ => True

theorem registerRecords_known {p : Projects} {rs : List Record}
    (h : ∀ r ∈ rs, ∀ slug, r.project = some slug → slug ∈ p.slugs) :
    rs.foldlM registerRecord p = .ok p := by
  induction rs with
  | nil => rfl
  | cons r rs ih =>
    have hfirst : registerRecord p r = .ok p := by
      unfold registerRecord
      split
      · next slug _ hp =>
        rw [if_pos (Projects.known_iff.2 (h r List.mem_cons_self slug hp))]
      · rfl
    rw [List.foldlM_cons, hfirst]
    exact ih fun x hx => h x (List.mem_cons_of_mem _ hx)

section
variable {S : Settings} {purgeAfter : Int} {s s' : StoreState}

/-- The text of an operation is decoded as the operation. -/
theorem opParse_build (hesc : ∀ b, b < 0x20 ∨ b = 34 → Escape b.toNat (esc b)) {op : Op}
    (hop : op.Storable)
    (hx : X.parse (X.compact (opBuildNode op)) = some [(opBuildNode op).read esc]) (now : Int) :
    opParse X now (X.compact (opBuildNode op)) = .ok op := by
  have htags : ((opBuildNode op).read esc).tags = [ascii "op"] := rfl
  unfold opParse
  rw [hx]
  dsimp only
  rw [if_pos htags]
  exact opFromNode_build hesc hop now

theorem Restorable.step (hesc : ∀ b, b < 0x20 ∨ b = 34 → Escape b.toNat (esc b)) {c : StoreCall}
    (h : Restorable X D s) (hc : c.Faithful X esc s)
    (hs : storeStep S X D purgeAfter s c = .ok s') : Restorable X D s' := by
  cases c with
  | apply op fromCurator id =>
    obtain ⟨hop, hat, hx⟩ := hc
    obtain ⟨⟨t, hv⟩, m, ha, rfl⟩ := storeStep_apply hs
    obtain ⟨hr, hp⟩ := storeApply_limits ha h.records_le h.projects_le
    refine ⟨storeApply_storable h.storable hop hat hv ha, ?_, hr, hp,
      fun f hf slug hslug => storeApply_projects ha (h.known f hf slug hslug), fun now => ?_⟩
    · intro r' hr' slug hslug
      rcases storeApply_mem ha hr' with hk | ⟨r, hr, rfl⟩
      · rw [hk] at hv
        obtain ⟨⟨⟩, hins, -⟩ := except_map_ok hv
        exact storeApply_projects ha (projectCheck_known (insertValidate_ok hins).2 hslug)
      · rw [Op.on_project] at hslug
        exact storeApply_projects ha (h.registered r hr slug hslug)
    · obtain ⟨l, hl, hsame⟩ := h.reload now
      obtain ⟨l', hl', hsame'⟩ := storeApply_same hsame.symm ha
      refine ⟨l', ?_, hsame'.symm⟩
      obtain ⟨b, hb, hreplay⟩ := except_bind_ok hl
      show (storeLoad X D now s.files >>= _) = _
      rw [hb]
      exact replayAll_push (opText X now).codec id hreplay (opParse_build hesc hop hx now) hl'
  | compact w =>
    obtain ⟨m, files, hcompact, rfl⟩ := storeStep_compact hs
    obtain ⟨hrecs, hprojects, hfiles⟩ := storeCompact_ok hcompact
    rw [registerRecords_known h.registered] at hprojects
    have hprojects := (Except.ok.inj hprojects).symm
    have hsub : ∀ r ∈ m.table.recs, r ∈ s.memory.table.recs := by
      intro r hr
      rw [hrecs] at hr
      exact (List.mem_filter.1 hr).1
    have hlen : m.table.recs.length ≤ s.memory.table.recs.length := by
      rw [hrecs]
      exact List.length_filter_le _ _
    have hknown : FilesKnown s.files m.projects := hprojects ▸ h.known
    have hstorable : ∀ r ∈ m.table.recs, r.Storable := fun r hr => h.storable r (hsub r hr)
    refine ⟨hstorable, fun r hr slug hslug => ?_, hlen.trans h.records_le,
      hprojects ▸ h.projects_le, hfiles.known hknown, fun now => ?_⟩
    · show slug ∈ m.projects.slugs
      rw [hprojects]
      exact h.registered r (hsub r hr) slug hslug
    · have hlegible : ∀ p, Legible X esc (m.table.recs.filter p) := by
        intro p
        refine hc _ (List.filter_sublist.trans ?_)
        rw [hrecs]
        exact List.filter_sublist
      obtain ⟨l, hl, hmem, hlp⟩ := storeLoad_storable now hesc hfiles hknown hlegible
        hstorable m.table.nodup (hlen.trans h.records_le) (hprojects ▸ h.projects_le)
      refine ⟨l, ?_, fun id => Option.ext fun r => ?_, hlp⟩
      · show (storeLoad X D now files >>= _) = _
        rw [hl]
        rfl
      · rw [Table.get_eq_some, Table.get_eq_some, hmem]
  | reopen now =>
    obtain ⟨m, hm, rfl⟩ := storeStep_reopen hs
    obtain ⟨l, hl, hsame⟩ := h.reload now
    obtain rfl := Except.ok.inj (hl.symm.trans hm)
    refine ⟨fun r hr => h.storable r (hsame.mem.1 hr), fun r hr slug hslug => ?_,
      hsame.perm.length_eq.trans_le h.records_le, hsame.projects ▸ h.projects_le,
      hsame.projects ▸ h.known, fun now' => ?_⟩
    · show slug ∈ l.projects.slugs
      rw [hsame.projects]
      exact h.registered r (hsame.mem.1 hr) slug hslug
    · obtain ⟨k, hk, hks⟩ := h.reload now'
      exact ⟨k, hk, hks.trans hsame.symm⟩

/-- The steps of a run whose calls are faithful. -/
def StoreKept (S : Settings) (X : XcdnText) (D : Digest) (purgeAfter : Int) (esc : UInt8 → Bytes)
    (s : StoreState) (c : StoreCall) (s' : StoreState) : Prop :=
  c.Faithful X esc s ∧ storeStep S X D purgeAfter s c = .ok s'

theorem Restorable.run (hesc : ∀ b, b < 0x20 ∨ b = 34 → Escape b.toNat (esc b))
    {cs : List StoreCall} (h : Durable.Runs (StoreKept S X D purgeAfter esc) .empty cs s) :
    Restorable X D s :=
  h.inv (I := fun _ s => Restorable X D s) (Restorable.empty X D)
    fun _ _ _ _ hs hstep => hs.step hesc hstep.1 hstep.2

end

end

end Asper
