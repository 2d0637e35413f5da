import Asper.Record.Proof.Compaction

/-! # What a compaction leaves

`FilesStored g`: the files hold what `g` says, and no transaction is under way. The body of a
compaction writes what `compactFiles` computes while every file can be put back; `compactCommit`
makes it last. -/

namespace Asper

open Durable

/-! ## Contents of files -/

/-- What the file `rel` of a store holds. -/
def storedFile (files : SectionFiles) (journal : Option Bytes) (rel : Bytes) : Option Bytes :=
  if rel = ascii "identity.xcdn" then files.identity
  else if rel = ascii "context.xcdn" then files.context
  else if rel = ascii "journal.xcdn" then journal
  else files.projects.lookup (rel.drop 9)

/-- The files hold what `g` says. -/
def Contents (g : Bytes → Option Bytes) (d : Disk) : Prop :=
  ∀ rel, relativeValid rel = true → d (resolve rel) = (g rel).map .file

/-- As `Contents`, and no transaction is under way. -/
structure FilesStored (g : Bytes → Option Bytes) (d : Disk) : Prop where
  marker : d compactMarker = none
  dir : d projectsDir = some .dir
  contents : Contents g d

section
variable {g g' : Bytes → Option Bytes} {d d₀ : Disk} {rel slug : Bytes} {p : Path}

theorem SameFiles.contents (h : SameFiles d₀ d) (h₀ : Contents g d₀) : Contents g d :=
  fun rel hrel => (h rel hrel).trans (h₀ rel hrel)

theorem FilesIntact.stored (h : FilesIntact d₀ d) (h₀ : FilesStored g d₀) : FilesStored g d :=
  ⟨h.marker, h.dir, h.files.contents h₀.contents⟩

theorem FilesStored.congr {d' : Disk} (h : FilesStored g d) (hs : SameNodes d d') :
    FilesStored g d' where
  marker := (hs _ .marker).trans h.marker
  dir := (hs _ .dir).trans h.dir
  contents rel hrel := (hs _ (.file hrel)).trans (h.contents rel hrel)

theorem Contents.stable (h : ∀ rel, relativeValid rel = true → p ≠ resolve rel) :
    Act.Stable (Contents g) p := fun _ _ hd rel hrel => by
  rw [Disk.set_ne _ _ (h rel hrel).symm, hd rel hrel]

theorem FilesStored.backup (hrel : relativeValid rel = true) :
    Act.Stable (FilesStored g) (backupPath (resolve rel)) := fun d x h =>
  { marker := by
      have hne := path_ne lastByte_marker (lastByte_backupPath hrel) (by decide)
      rw [Disk.set_ne _ _ hne, h.marker]
    dir := by
      have hne := path_ne lastByte_projects (lastByte_backupPath hrel) (by decide)
      rw [Disk.set_ne _ _ hne, h.dir]
    contents := Contents.stable (fun rel' hrel' =>
      path_ne (lastByte_backupPath hrel) (lastByte_rel hrel') (by decide)) d x h.contents }

theorem Contents.put (h : Contents g d) (hrel : relativeValid rel = true) (data : Bytes) :
    Contents (Function.update g rel (some data)) (d.set (resolve rel) (some (.file data))) := by
  intro rel' hrel'
  by_cases he : rel' = rel
  · rw [he, Disk.set_self, Function.update_self]
    rfl
  · rw [Disk.set_ne _ _ fun hr => he (resolve_inj hrel' hrel hr), Function.update_of_ne he]
    exact h rel' hrel'

theorem Contents.congr (h : Contents g d) (hg : ∀ rel, relativeValid rel = true → g rel = g' rel) :
    Contents g' d := fun rel hrel => hg rel hrel ▸ h rel hrel

/-! ## The files of the projects -/

theorem projectRel_valid (h : slugValid slug = true) : relativeValid (projectRel slug) = true := by
  rw [projectRel, List.append_assoc]
  exact relativeValid_iff.2 (.project h)

theorem resolve_projectRel (h : slugValid slug = true) :
    resolve (projectRel slug) = projectFile slug := by
  have hno : 47 ∉ slug ++ ascii ".xcdn" := by
    intro hm
    rcases List.mem_append.1 hm with hm | hm
    · exact slugValid_no_slash h hm
    · exact absurd hm (by decide)
  have hrel : projectRel slug = ascii "projects" ++ 47 :: (slug ++ ascii ".xcdn") := by
    rw [projectRel, List.append_assoc]
    rfl
  have hpush : pushName [] (ascii "projects") = projectsDir := by decide
  have hlen : 2 < (slug ++ ascii ".xcdn").length := by
    rw [List.length_append]
    exact Nat.lt_of_lt_of_le (show 2 < (ascii ".xcdn").length by decide) (Nat.le_add_left _ _)
  rw [resolve, hrel, resolveFrom_slash [] _ [] (by decide), List.nil_append, hpush,
    resolveFrom_name _ _ hno, List.nil_append, pushName_plain hlen]
  rfl

theorem projectRel_ne (h : rel.head? ≠ some 112) : rel ≠ projectRel slug := by
  rintro rfl
  exact h rfl

theorem projectRel_inj {slug' : Bytes} (h : projectRel slug = projectRel slug') : slug = slug' :=
  List.append_cancel_left (List.append_cancel_right h)

theorem storedFile_projectRel (files : SectionFiles) (journal : Option Bytes) (slug : Bytes) :
    storedFile files journal (projectRel slug) = files.projects.lookup (slug ++ ascii ".xcdn") := by
  rw [storedFile, if_neg (projectRel_ne (by decide)).symm, if_neg (projectRel_ne (by decide)).symm,
    if_neg (projectRel_ne (by decide)).symm]
  rfl

theorem lookup_others (name : Bytes) (files : List (Bytes × Bytes)) (n : Bytes) :
    (files.filter (·.1 ≠ name)).lookup n = if n = name then none else files.lookup n := by
  induction files with
  | nil => simp
  | cons f files ih =>
    obtain ⟨m, data⟩ := f
    by_cases hm : m = name
    · rw [List.filter_cons_of_neg (by simp [hm]), ih]
      by_cases hn : n = name
      · rw [if_pos hn, if_pos hn]
      · rw [if_neg hn, if_neg hn, List.lookup_cons, beq_false_of_ne (hm ▸ hn)]
    · rw [List.filter_cons_of_pos (by simp [hm]), List.lookup_cons, List.lookup_cons, ih]
      by_cases hn : n = m
      · rw [hn, beq_self_eq_true]
        exact (if_neg hm).symm
      · rw [beq_false_of_ne hn]

theorem lookup_writeProject (name data : Bytes) (files : List (Bytes × Bytes)) (n : Bytes) :
    (writeProject name data files).lookup n = if n = name then some data else files.lookup n := by
  rw [writeProject, List.lookup_append, lookup_others]
  by_cases hn : n = name
  · rw [if_pos hn, if_pos hn, hn, List.lookup_cons_self]
    rfl
  · rw [if_neg hn, if_neg hn, List.lookup_cons, beq_false_of_ne hn]
    exact Option.or_none

/-! ## What a write changes -/

theorem storedFile_identity (files : SectionFiles) (journal : Option Bytes) (data : Bytes) :
    Function.update (storedFile files journal) (ascii "identity.xcdn") (some data) =
      storedFile { files with identity := some data } journal := by
  funext rel
  by_cases he : rel = ascii "identity.xcdn"
  · rw [he, Function.update_self, storedFile, if_pos rfl]
  · rw [Function.update_of_ne he, storedFile, storedFile, if_neg he, if_neg he]

theorem storedFile_context (files : SectionFiles) (journal : Option Bytes) (data : Bytes) :
    Function.update (storedFile files journal) (ascii "context.xcdn") (some data) =
      storedFile { files with context := some data } journal := by
  funext rel
  by_cases he : rel = ascii "context.xcdn"
  · rw [he, Function.update_self, storedFile, if_neg (by decide), if_pos rfl]
  · rw [Function.update_of_ne he, storedFile, storedFile, if_neg he, if_neg he]

theorem storedFile_journal (files : SectionFiles) (journal : Option Bytes) (data : Bytes) :
    Function.update (storedFile files journal) (ascii "journal.xcdn") (some data) =
      storedFile files (some data) := by
  funext rel
  by_cases he : rel = ascii "journal.xcdn"
  · rw [he, Function.update_self, storedFile, if_neg (by decide), if_neg (by decide), if_pos rfl]
  · rw [Function.update_of_ne he, storedFile, storedFile, if_neg he, if_neg he]

theorem storedFile_project (files : SectionFiles) (journal : Option Bytes) (data : Bytes)
    (hrel : relativeValid rel = true) :
    Function.update (storedFile files journal) (projectRel slug) (some data) rel =
      storedFile { files with projects := writeProject (slug ++ ascii ".xcdn") data files.projects
                              nodup := writeProject_nodup files.nodup } journal rel := by
  cases relativeValid_iff.1 hrel with
  | identity => rw [Function.update_of_ne (projectRel_ne (by decide))]; rfl
  | context => rw [Function.update_of_ne (projectRel_ne (by decide))]; rfl
  | journal => rw [Function.update_of_ne (projectRel_ne (by decide))]; rfl
  | @project slug' _ =>
    have hslug : ascii "projects/" ++ (slug' ++ ascii ".xcdn") = projectRel slug' :=
      (List.append_assoc ..).symm
    rw [hslug, storedFile_projectRel, lookup_writeProject]
    by_cases he : slug' = slug
    · rw [he, Function.update_self, if_pos rfl]
    · rw [Function.update_of_ne fun h => he (projectRel_inj h), storedFile_projectRel,
        if_neg fun h => he (List.append_cancel_right h)]

end

/-! ## Writing the files -/

section
variable {w : CompactNames} {F : FileFaults} {D : Digest} {rows : List CompactRow} {d₀ d : Disk}
  {rel : Bytes} {g : Bytes → Option Bytes}

theorem ArmedFree.put (h : ArmedFree w D rows d₀ d) (hrel : rel ∈ rows.map (·.rel)) (data : Bytes) :
    ArmedFree w D rows d₀ (d.set (resolve rel) (some (.file data))) := by
  obtain ⟨row, hr, rfl⟩ := List.mem_map.1 hrel
  have hlast : lastByte (resolve row.rel) = some 110 := lastByte_rel (h.saved row hr).ok.valid
  exact ⟨h.toArmed.put hrel data,
    NamesFree.stable (fun _ _ => temporary_ne hlast (by decide)) d _ h.free⟩

theorem Contents.temporary {p : Path} (uuid : Uuid) :
    Act.Stable (Contents g) (temporaryFile p uuid) :=
  Contents.stable fun _ hrel => (temporary_ne (lastByte_rel hrel) (by decide)).symm

/-- A file of the transaction is replaced, while it can be put back. -/
theorem within_installFile (data : Bytes) (hw : w.Distinct) (hrel : rel ∈ rows.map (·.rel))
    (h : ArmedFree w D rows d₀ d) (hc : Contents g d) :
    Act.Within (ArmedFree w D rows d₀) (installFile F (resolve rel) (w.tmp (resolve rel)) data)
      (fun _ d' => Contents (Function.update g rel (some data)) d') d := by
  have hv : relativeValid rel = true := by
    obtain ⟨row, hr, rfl⟩ := List.mem_map.1 hrel
    exact (h.saved row hr).ok.valid
  have hne := resolve_ne_nil hv
  have hput := h.put hrel data
  refine wp_installFile (temporary_ne (lastByte_rel hv) (by decide)) ?_ ?_ ?_ ?_ ?_
  · exact fun x => ArmedFree.temporary hw hne d x h
  · exact fun x => ArmedFree.temporary hw hne _ x hput
  · exact fun x => ⟨ArmedFree.temporary hw hne d x h, nofun⟩
  · exact fun x => ⟨ArmedFree.temporary hw hne _ x hput, nofun⟩
  · exact ⟨ArmedFree.temporary hw hne _ none hput,
      fun _ _ => Contents.temporary _ _ none (hc.put hv data)⟩

theorem within_storeFileWriteChecked (text : Bytes) (id : Uuid) (hw : w.Distinct)
    (hrel : rel ∈ rows.map (·.rel)) (h : ArmedFree w D rows d₀ d) (hc : Contents g d) :
    Act.Within (ArmedFree w D rows d₀)
      (storeFileWriteChecked F D (resolve rel) text id (w.tmp (resolve rel)))
      (fun _ d' => ∃ data, checkedFile D id text = .ok data ∧
        Contents (Function.update g rel (some data)) d') d := by
  refine (Act.Within.lift (R := fun data d' => checkedFile D id text = .ok data ∧ d' = d) h
    fun data hdata => ⟨hdata, rfl⟩).bind ?_
  rintro data d' - ⟨hdata, hd⟩
  obtain rfl := hd.symm
  exact (within_installFile data hw hrel h hc).weaken fun _ _ h' => ⟨data, hdata, h'⟩

section
variable {C : CompactFaults} {X : XcdnText} {rs : List Record} {files : SectionFiles}
  {journal : Option Bytes} {ps : Projects}

/-- **The files of the projects** are those `compactProject` computes. -/
theorem within_writeProjects (hw : w.Distinct) {slugs : List Bytes}
    (hvalid : ∀ slug ∈ slugs, slugValid slug = true)
    (hslugs : ∀ slug ∈ slugs, projectRel slug ∈ rows.map (·.rel)) (h : ArmedFree w D rows d₀ d)
    (hc : Contents (storedFile files journal) d) :
    Act.Within (ArmedFree w D rows d₀) (writeProjects C X D w rs slugs) (fun _ d' => ∃ files',
      slugs.foldlM (compactProject X D w.toCompactDraw rs) files = .ok files' ∧
        Contents (storedFile files' journal) d') d := by
  induction slugs generalizing files d with
  | nil => exact .pure h ⟨files, rfl, hc⟩
  | cons slug slugs ih =>
    have hs := hvalid slug List.mem_cons_self
    have hwrite := within_storeFileWriteChecked (F := C.toFileFaults)
      (sectionText X (rs.filter fun r => r.section_ = .project ∧ r.project = some slug))
      (w.ids slug) hw (hslugs slug List.mem_cons_self) h hc
    rw [resolve_projectRel hs] at hwrite
    refine hwrite.bind ?_
    rintro _ d' h' ⟨data, hdata, hc'⟩
    have hproject : compactProject X D w.toCompactDraw rs files slug = .ok
        { files with projects := writeProject (slug ++ ascii ".xcdn") data files.projects
                     nodup := writeProject_nodup files.nodup } := by
      rw [compactProject, hdata]
      rfl
    refine (ih (fun s hm => hvalid s (List.mem_cons_of_mem _ hm))
      (fun s hm => hslugs s (List.mem_cons_of_mem _ hm)) h'
      (hc'.congr fun rel hrel => storedFile_project files journal data hrel)).weaken ?_
    rintro _ d'' ⟨files', hfold, hc''⟩
    exact ⟨files', by rw [List.foldlM_cons, hproject]; exact hfold, hc''⟩

theorem compactFiles_of {identity context : Bytes} {w : CompactDraw} {files' : SectionFiles}
    (hall : rs.all (hasFile ps) = true)
    (hi : checkedFile D (w.ids (ascii "identity"))
      (sectionText X (rs.filter (·.section_ = .identity))) = .ok identity)
    (hx : checkedFile D (w.ids (ascii "context"))
      (sectionText X (rs.filter (·.section_ = .context))) = .ok context)
    (hp : ps.slugs.foldlM (compactProject X D w rs)
      { files with identity := some identity, context := some context } = .ok files') :
    compactFiles X D w ps rs files = .ok files' := by
  unfold compactFiles
  rw [if_neg (by simp [hall]), hi, hx]
  exact hp

theorem within_checkpoint {P : Disk → Prop} (h : P d) (stage : Nat) :
    Act.Within P (checkpoint C stage) (fun _ d' => d' = d) d := by
  unfold checkpoint
  cases C.checkpoint stage with
  | none => exact .pure h rfl
  | some e => exact .fail h

theorem within_require {P : Disk → Prop} (h : P d) {c : Prop} [Decidable c] (e : Err) :
    Act.Within P (require c e) (fun _ d' => c ∧ d' = d) d :=
  .ite (fun hc => Act.Within.pure h ⟨hc, rfl⟩) fun _ => Act.Within.fail h

/-- **The files are replaced** by those of `compactFiles`, and the journal by an empty one, while
every file can be put back. -/
theorem within_compactBody (hw : w.Distinct) (hrows : rows.map (·.rel) = compactRels ps)
    (h : ArmedFree w D rows d₀ d) (hc : Contents (storedFile files journal) d) :
    Act.Within (ArmedFree w D rows d₀) (compactBody C X D w ps rs) (fun _ d' => ∃ files',
      compactFiles X D w.toCompactDraw ps rs files = .ok files' ∧
        Contents (storedFile files' (some [])) d') d := by
  have hmem : ∀ rel ∈ compactRels ps, rel ∈ rows.map (·.rel) := fun rel hm => hrows ▸ hm
  have hprojects : ∀ slug ∈ ps.slugs, projectRel slug ∈ rows.map (·.rel) := fun slug hs =>
    hmem _ (by simp [compactRels, List.mem_map_of_mem hs])
  have hid : resolve (ascii "identity.xcdn") = identityFile := by decide
  have hctx : resolve (ascii "context.xcdn") = contextFile := by decide
  have hlog : resolve (ascii "journal.xcdn") = journalFile := by decide
  refine (within_checkpoint h 1).bind ?_
  rintro _ d₁ h₁ rfl
  refine (within_require h₁ _).bind ?_
  rintro _ d₂ h₂ ⟨hall, rfl⟩
  have hwrite := within_storeFileWriteChecked (F := C.toFileFaults)
    (sectionText X (rs.filter (·.section_ = .identity))) (w.ids (ascii "identity")) hw
    (hmem (ascii "identity.xcdn") (by simp [compactRels])) h₂ hc
  rw [hid] at hwrite
  refine hwrite.bind ?_
  rintro _ d₃ h₃ ⟨identity, hi, hc₃⟩
  rw [storedFile_identity] at hc₃
  refine (within_checkpoint h₃ 2).bind ?_
  rintro _ d₄ h₄ rfl
  have hwrite := within_storeFileWriteChecked (F := C.toFileFaults)
    (sectionText X (rs.filter (·.section_ = .context))) (w.ids (ascii "context")) hw
    (hmem (ascii "context.xcdn") (by simp [compactRels])) h₄ hc₃
  rw [hctx] at hwrite
  refine hwrite.bind ?_
  rintro _ d₅ h₅ ⟨context, hx, hc₅⟩
  rw [storedFile_context] at hc₅
  refine (within_writeProjects hw ps.valid hprojects h₅ hc₅).bind ?_
  rintro _ d₆ h₆ ⟨files', hp, hc₆⟩
  have hfiles := compactFiles_of hall hi hx hp
  refine (within_checkpoint h₆ 3).bind ?_
  rintro _ d₇ h₇ rfl
  have hwrite := within_installFile (F := C.toFileFaults) [] hw
    (hmem (ascii "journal.xcdn") (by simp [compactRels])) h₇ hc₆
  rw [hlog, storedFile_journal] at hwrite
  have hreset : Act.Within (ArmedFree w D rows d₀)
      (storeFileWriteIn C.toFileFaults journalFile [] (w.tmp journalFile))
      (fun _ d' => Contents (storedFile files' (some [])) d') d₇ := by
    refine (within_require h₇ _).bind ?_
    rintro _ d' - ⟨-, hd⟩
    obtain rfl := hd.symm
    exact hwrite
  refine hreset.bind ?_
  rintro _ d₈ h₈ hc₈
  refine (within_require h₈ _).bind ?_
  rintro _ d₉ h₉ ⟨-, rfl⟩
  exact (within_checkpoint h₉ 4).weaken fun _ d' hd => ⟨files', hfiles, hd ▸ hc₈⟩

end

end

/-! ## The commit -/

section
variable {w : CompactNames} {F : FileFaults} {D : Digest} {rows : List CompactRow}
  {rels : List Bytes} {d₀ d : Disk} {g : Bytes → Option Bytes}

theorem Armed.unmarked (h : Armed D rows d₀ d) (hc : Contents g d) :
    FilesStored g (d.set compactMarker none) where
  marker := Disk.set_self ..
  dir := by rw [Disk.set_ne _ _ (path_ne lastByte_projects lastByte_marker (by decide)), h.dir]
  contents := Contents.stable (fun _ hrel =>
    path_ne lastByte_marker (lastByte_rel hrel) (by decide)) d none hc

/-- **The commit** is one removal: before it every file can be put back, from it on the files are
what they are. -/
theorem wp_compactCommit (hrels : ∀ rel ∈ rels, relativeValid rel = true)
    (h : Armed D rows d₀ d) (hc : Contents g d) :
    Act.Wp (fun d' => Armed D rows d₀ d' ∨ FilesStored g d') (compactCommit F rels)
      (fun r d' => (Armed D rows d₀ d' ∧ r ≠ .ok ()) ∨ FilesStored g d') d := by
  have hremove : Act.Wp (fun d' => Armed D rows d₀ d' ∨ FilesStored g d')
      (osRemoveFileIn F compactMarker)
      (fun r d' => (Armed D rows d₀ d' ∧ r ≠ .ok ()) ∨ FilesStored g d') d := by
    refine .ite (fun _ => .fail (.inl h) (.inl ⟨h, nofun⟩)) fun _ => ?_
    obtain ⟨b, hb⟩ := h.marker_file
    have hrun := osRemoveFile_file (Disk.find_top_some hb : d.find compactMarker = _)
    obtain ⟨r, hsync, -⟩ := syncParent_run F compactMarker (d.set compactMarker none)
    have hdone := h.unmarked hc
    exact .of_run (Act.bind_run_run hrun hsync)
      (.whole (fun _ => rfl) (.inl h) (.inr hdone) (.inr hdone))
  refine hremove.bind ?_ ?_
  · rintro _ d' (⟨-, he⟩ | hd)
    · exact absurd rfl he
    · refine (wp_cleanupAll (fun rel hrel => FilesStored.backup (hrels rel hrel)) hd).weaken ?_ ?_
      · exact fun _ h' => .inr h'
      · exact fun _ _ h' => .inr h'.2
  · rintro e d' (⟨ha, -⟩ | hd)
    · exact .inl ⟨ha, nofun⟩
    · exact .inr hd

end

/-! ## Recovering -/

/-- Where a compaction from `d₀` may be stopped, with files of `new` when it is past its commit. -/
inductive Compacting (D : Digest) (d₀ : Disk) (new : (Bytes → Option Bytes) → Prop) (d : Disk) :
    Prop
  | intact (h : FilesIntact d₀ d)
  | armed {rows : List CompactRow} (h : Armed D rows d₀ d)
  | done {g : Bytes → Option Bytes} (hg : new g) (h : FilesStored g d)

/-- A recovery that is stopped, or ends, at `d'`; the names of its copies are free. -/
def RecoverTry (D : Digest) (d : Disk) (uuids : Bytes → Uuid) (d' : Disk) : Prop :=
  NamesFree uuids d ∧ ∃ t, Crash ((compactRecover D uuids).writes d) d t d'

section
variable {D : Digest} {d₀ d : Disk} {new : (Bytes → Option Bytes) → Prop} {uuids : Bytes → Uuid}

/-- **A recovery** of what a compaction left: the files are those before it or the new ones. -/
theorem Compacting.recover (h : Compacting D d₀ new d) (hfree : NamesFree uuids d) :
    Act.Wp (Compacting D d₀ new) (compactRecover D uuids) (fun r d' => r = .ok () ∧
      (FilesIntact d₀ d' ∨ ∃ g, new g ∧ FilesStored g d')) d := by
  cases h with
  | intact h => exact .of_quiet (compactRecover_none uuids h.marker) (.intact h) ⟨rfl, .inl h⟩
  | armed h =>
    refine (h.recover hfree).weaken ?_ fun r d' hd => ⟨hd.1, .inl hd.2⟩
    rintro d' (ha | hi)
    · exact .armed ha
    · exact .intact hi
  | done hg h =>
    exact .of_quiet (compactRecover_none uuids h.marker) (.done hg h) ⟨rfl, .inr ⟨_, hg, h⟩⟩

theorem Compacting.run {ls : List (Bytes → Uuid)} {d' : Disk} (h : Compacting D d₀ new d)
    (hruns : Durable.Runs (RecoverTry D) d ls d') : Compacting D d₀ new d' := by
  refine hruns.inv (I := fun _ d => Compacting D d₀ new d) h ?_
  rintro - d₁ u d₂ h₁ ⟨hfree, t, hc⟩
  exact (h₁.recover hfree).crash hc fun _ _ _ hf => hf

end

/-! ## A compaction that may fail -/

theorem registerAll_ok {ps ps' : Projects} {rs : List Record}
    (h : registerAll ps rs = (ps', none)) : rs.foldlM registerRecord ps = .ok ps' := by
  induction rs generalizing ps with
  | nil =>
    obtain ⟨rfl, -⟩ := Prod.mk.inj h
    rfl
  | cons r rs ih =>
    unfold registerAll at h
    cases hr : registerRecord ps r with
    | error e =>
      rw [hr] at h
      cases (Prod.mk.inj h).2
    | ok ps₁ =>
      rw [hr] at h
      rw [List.foldlM_cons, hr]
      exact ih h

section
variable {V : Type} {C : CompactFaults} {X : XcdnText} {D : Digest} {w : CompactNames}
  {purgeAfter : Int} {x : Ctx V} {files : SectionFiles} {journal : Option Bytes} {d : Disk}

/-- The files of a compaction of `m`. -/
def CompactedFiles (X : XcdnText) (D : Digest) (w : CompactDraw) (purgeAfter : Int) (m : Memory)
    (files : SectionFiles) (g : Bytes → Option Bytes) : Prop :=
  ∃ m' files', storeCompact X D w purgeAfter m files = .ok (m', files') ∧
    g = storedFile files' (some [])

/-- How a compaction ends. -/
inductive CompactEnd (X : XcdnText) (D : Digest) (w : CompactDraw) (purgeAfter : Int)
    (manifest : Option Err) (files : SectionFiles) (x : Ctx V) (d₀ : Disk) :
    Except Err (Ctx V × Option Err) → Disk → Prop
  /-- It failed, and nothing came of it but the projects of the records. -/
  | failed {x' : Ctx V} {e : Err} {d : Disk} (hm : x'.memory.table = x.memory.table)
    (hp : x'.memory.projects = x.memory.projects ∨
      x'.memory.projects = (registerAll x.memory.projects x.memory.table.recs).1)
    (hj : x.journal.isOpen = true → x'.journal = x.journal) (h : FilesIntact d₀ d) :
    CompactEnd X D w purgeAfter manifest files x d₀ (.ok (x', some e)) d
  /-- It failed, and what came of it is not known. -/
  | unknown {x' : Ctx V} {e : Err} {d : Disk} (hm : x'.memory.table = x.memory.table)
    (hp : x'.journal.poisoned = true)
    (h : Compacting D d₀ (CompactedFiles X D w purgeAfter x.memory files) d) :
    CompactEnd X D w purgeAfter manifest files x d₀ (.ok (x', some e)) d
  | done {x' : Ctx V} {files' : SectionFiles} {d : Disk} (hj : x'.journal = .opened 0)
    (hc : storeCompact X D w purgeAfter x.memory files = .ok (x'.memory, files'))
    (h : FilesStored (storedFile files' (some [])) d) :
    CompactEnd X D w purgeAfter manifest files x d₀ (.ok (x', manifest)) d

theorem compactGate_none (h : compactGate x = none) : x.journal.poisoned = false := by
  unfold compactGate at h
  split at h
  · cases h
  · next hp => simpa using hp

theorem storeCompact_of {w : CompactDraw} {m : Memory} {ps : Projects} {files' : SectionFiles}
    (hps : m.table.recs.foldlM registerRecord m.projects = .ok ps)
    (hfiles : compactFiles X D w ps
      (m.table.recs.filter fun r => !purgeDue purgeAfter w.now r) files = .ok files') :
    storeCompact X D w purgeAfter m files =
      .ok (⟨purgeRows (purgeDue purgeAfter w.now) m.table.recs.length m.table, ps⟩, files') := by
  unfold storeCompact
  rw [hps]
  show (compactFiles X D w ps _ files >>= _) = _
  rw [hfiles]
  rfl

/-- A rollback ends with the files of before. -/
theorem wp_compactRollback {rows : List CompactRow} {d₀ : Disk} {m : Memory} {e : Err}
    (hm : m.table = x.memory.table)
    (hps : m.projects = (registerAll x.memory.projects x.memory.table.recs).1)
    (hp : x.journal.poisoned = false) (h : ArmedFree w D rows d₀ d) :
    Act.Wp (Compacting D d₀ (CompactedFiles X D w.toCompactDraw purgeAfter x.memory files))
      (compactRollback C D w { x with memory := m } e)
      (CompactEnd X D w.toCompactDraw purgeAfter C.manifest files x d₀) d := by
  have hundo : Act.Wp
      (Compacting D d₀ (CompactedFiles X D w.toCompactDraw purgeAfter x.memory files))
      (compactRecover D w.back) (fun r d' => r = .ok () ∧ FilesIntact d₀ d') d := by
    refine (h.toArmed.recover h.free).weaken ?_ fun _ _ h => h
    rintro d' (ha | hi)
    · exact .armed ha
    · exact .intact hi
  refine hundo.bind_attempt ?_
  rintro _ d' ⟨rfl, hi⟩
  refine .pure (.intact hi) ?_
  cases hb : C.reopenBack with
  | true => exact .unknown hm rfl (.intact hi)
  | false =>
    refine .failed hm (.inr hps) (fun ho => ?_) hi
    have heta : x.journal = ⟨x.journal.ops, x.journal.poisoned, x.journal.isOpen⟩ := rfl
    rw [heta, hp, ho]
    rfl

theorem wp_commitLast {rels : List Bytes} {rows : List CompactRow} {d₀ : Disk}
    {g : Bytes → Option Bytes} {new : (Bytes → Option Bytes) → Prop}
    (hrels : ∀ rel ∈ rels, relativeValid rel = true) (h : Armed D rows d₀ d) (hc : Contents g d)
    (hg : new g) : Act.Wp (Compacting D d₀ new) (do
      compactCommit C.toFileFaults rels
      checkpoint C 5 : Io Unit) (fun r d' => (r ≠ .ok () ∧ Compacting D d₀ new d') ∨
        (r = .ok () ∧ FilesStored g d')) d := by
  have hcommit := wp_compactCommit (F := C.toFileFaults) hrels h hc
  refine Act.Wp.bind (P := Compacting D d₀ new) (hcommit.weaken ?_ fun _ _ h => h) ?_ ?_
  · rintro d' (ha | hd)
    · exact .armed ha
    · exact .done hg hd
  · rintro _ d' (⟨-, he⟩ | hd)
    · exact absurd rfl he
    · have hlast := within_checkpoint (C := C) (P := Compacting D d₀ new) (.done hg hd) 5
      refine Act.Wp.weaken hlast (fun _ h => h) ?_
      rintro r d'' ⟨hd', hok⟩
      cases r with
      | error e => exact .inl ⟨nofun, hd'⟩
      | ok a =>
        obtain rfl := hok a rfl
        exact .inr ⟨rfl, hd⟩
  · rintro e d' (⟨ha, -⟩ | hd)
    · exact .inl ⟨nofun, .armed ha⟩
    · exact .inl ⟨nofun, .done hg hd⟩

/-- **A compaction that may fail**, by any of its failures, or by the end of the process in it. -/
theorem wp_storeCompactLive (hw : w.Distinct) (h : FilesStored (storedFile files journal) d)
    (hfree : NamesFree w.back d) :
    Act.Wp (Compacting D d (CompactedFiles X D w.toCompactDraw purgeAfter x.memory files))
      (storeCompactLive C X D w purgeAfter x)
      (CompactEnd X D w.toCompactDraw purgeAfter C.manifest files x d) d := by
  have hstart : FilesIntact d d := ⟨h.marker, h.dir, fun _ _ => rfl⟩
  unfold storeCompactLive
  cases hgate : compactGate x with
  | some e => exact .pure (.intact hstart) (.failed rfl (.inl rfl) (fun _ => rfl) hstart)
  | none =>
    dsimp only
    have hp := compactGate_none hgate
    rcases hreg : registerAll x.memory.projects x.memory.table.recs with ⟨ps, o⟩
    cases o with
    | some e =>
      exact .pure (.intact hstart) (.failed rfl (.inr (by rw [hreg])) (fun _ => rfl) hstart)
    | none =>
      have hbegin : Act.Wp _ (compactBegin C.toFileFaults D w (compactRels ps)) _ d :=
        wp_compactBegin hw (⟨hstart, hfree⟩ : Before w d d)
      refine Act.Wp.bind (P := Compacting D d (CompactedFiles X D w.toCompactDraw purgeAfter
        x.memory files)) (hbegin.weaken ?_ fun _ _ h => h) ?_ ?_
      · rintro d' (hb | ⟨rows, -, hr, -⟩)
        · exact .intact hb.toFilesIntact
        · exact .armed hr.toArmed
      · rintro ⟨o, poisoned⟩ d₁ hend
        cases hend with
        | refused e hb =>
          refine .pure (.intact hb.toFilesIntact) (.failed rfl (.inr (by rw [hreg])) (fun _ => ?_)
            hb.toFilesIntact)
          exact congrArg (JournalState.mk x.journal.ops · x.journal.isOpen) hp.symm
        | unknown e hb =>
          obtain ⟨rows, -, hr, -⟩ := hb
          exact .pure (.armed hr.toArmed) (.unknown rfl rfl (.armed hr.toArmed))
        | begun hlist hb =>
          obtain ⟨rows, hrows, hr, hsame⟩ := hb
          have hbody : Act.Within _ (compactBody C X D w ps
              (x.memory.table.recs.filter fun r => !purgeDue purgeAfter w.now r)) _ d₁ :=
            within_compactBody hw hrows hr (hsame.contents h.contents)
          refine (Act.Wp.weaken hbody (fun _ hr' => Compacting.armed hr'.toArmed)
            fun _ _ h => h).bind_attempt ?_
          rintro r d₂ ⟨hr₂, hok⟩
          cases r with
          | error e => exact wp_compactRollback rfl (by rw [hreg]) hp hr₂
          | ok a =>
            obtain ⟨files', hfiles, hc⟩ := hok a rfl
            have hcompact := storeCompact_of (registerAll_ok hreg) hfiles
            have hnew : CompactedFiles X D w.toCompactDraw purgeAfter x.memory files
                (storedFile files' (some [])) := ⟨_, files', hcompact, rfl⟩
            refine (wp_commitLast hlist.valid hr₂.toArmed hc hnew).bind_attempt ?_
            rintro r d₃ (⟨hr₃, hd₃⟩ | ⟨rfl, hd₃⟩)
            · cases r with
              | ok a => exact absurd rfl hr₃
              | error e => exact .pure hd₃ (.unknown rfl rfl hd₃)
            · exact .pure (.done hnew hd₃) (.done rfl hcompact hd₃)
      · intro e d' he
        cases he

/-- The disk of a store that holds no records. -/
def emptyStoreDisk : Disk := fun p =>
  if p = projectsDir then some .dir else if p = journalFile then some (.file []) else none

theorem emptyStoreDisk_none {p : Path} (h : p ≠ projectsDir) (h' : p ≠ journalFile) :
    emptyStoreDisk p = none := by
  rw [emptyStoreDisk, if_neg h, if_neg h']

theorem emptyStoreDisk_stored : FilesStored (storedFile .empty (some [])) emptyStoreDisk where
  marker := emptyStoreDisk_none (by decide) (by decide)
  dir := if_pos rfl
  contents rel hrel := by
    cases relativeValid_iff.1 hrel with
    | identity => decide
    | context => decide
    | journal => decide
    | @project slug hs =>
      have hslug : ascii "projects/" ++ (slug ++ ascii ".xcdn") = projectRel slug :=
        (List.append_assoc ..).symm
      rw [hslug, resolve_projectRel hs, storedFile_projectRel]
      exact emptyStoreDisk_none (by simp [projectFile, projectsDir])
        (by simp [projectFile, journalFile])

theorem emptyStoreDisk_free (uuids : Bytes → Uuid) : NamesFree uuids emptyStoreDisk := fun _ _ =>
  emptyStoreDisk_none (temporary_ne lastByte_projects (by decide)).symm
    (temporary_ne (show lastByte journalFile = some 110 by decide) (by decide)).symm

def mutedText : XcdnText := ⟨fun _ => [], fun _ => [], fun s => if s = [] then some [] else none⟩

def bareCtx : Ctx Unit := ⟨.empty, [], .opened 0, none, false⟩

def bareNames : CompactNames :=
  ⟨⟨0, fun _ => uuidV4 fun _ => 0⟩, fun _ => uuidV4 fun _ => 0, fun _ => uuidV4 fun _ => 1⟩

theorem bareNames_distinct : bareNames.Distinct := fun _ =>
  show uuidV4 (fun _ => 1) ≠ uuidV4 fun _ => 0 by decide

/-- The context file cannot be moved to its place. -/
def contextFaults : CompactFaults :=
  ⟨⟨fun _ => none, fun p => p = contextFile, fun _ => false⟩, fun _ => none, false, false, none⟩

end

end Asper
