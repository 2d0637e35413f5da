import Asper.Journal.Proof.Atomic
import Asper.Record.Live
import Asper.Record.Proof.Compacted
import Asper.Record.Proof.Journaled
import Asper.Record.Proof.Registry
import Asper.Record.Proof.Runs
import Asper.Record.Proof.Scan

/-! # Opening a store

`storeLoad_congr`: what is loaded depends on the files of the store alone, in whatever order the
directory lists them and whatever else lies there. `wp_storeOpenLive`: a store whose process stopped
at any time (`Rests`) is opened as what `storeOpen` computes. -/

namespace Asper

open Durable

/-! ## The order of the files -/

section
variable {X : XcdnText} {D : Digest} {now : Int} {files files' : SectionFiles}

theorem nameLe_iff {a b : Bytes × Bytes} : nameLe a b = true ↔ a.1 ≤ b.1 := by
  rw [nameLe, decide_eq_true_iff, ne_eq, strcmp_swap, strcmp_lt]
  exact List.not_lt

theorem sorted_nameLe (l : List (Bytes × Bytes)) :
    (l.mergeSort nameLe).Pairwise fun a b => nameLe a b = true := by
  refine List.pairwise_mergeSort (fun a b c hab hbc => ?_) (fun a b => ?_) l
  · exact nameLe_iff.2 (List.le_trans (nameLe_iff.1 hab) (nameLe_iff.1 hbc))
  · rw [Bool.or_eq_true, nameLe_iff, nameLe_iff]
    exact List.le_total a.1 b.1

/-- The file is one of a project. -/
def loadable (f : Bytes × Bytes) : Bool := (fileSlug f.1).isSome

theorem loadProjects_loadable (l : List (Bytes × Bytes)) (m : Memory) :
    l.foldlM (loadProject X D now) m = (l.filter loadable).foldlM (loadProject X D now) m := by
  induction l generalizing m with
  | nil => rfl
  | cons f l ih =>
    cases hf : fileSlug f.1 with
    | none =>
      have hskip : loadProject X D now m f = .ok m := by
        unfold loadProject
        rw [hf]
      rw [List.filter_cons_of_neg (by simp [loadable, hf]), List.foldlM_cons, hskip]
      exact ih m
    | some slug =>
      rw [List.filter_cons_of_pos (by simp [loadable, hf]), List.foldlM_cons, List.foldlM_cons]
      exact congrArg (loadProject X D now m f >>= ·) (funext ih)

theorem mem_iff_lookup {l : List (Bytes × Bytes)} (h : (l.map (·.1)).Nodup) {n b : Bytes} :
    (n, b) ∈ l ↔ l.lookup n = some b := by
  induction l with
  | nil => simp
  | cons f l ih =>
    obtain ⟨m, c⟩ := f
    rw [List.map_cons, List.nodup_cons] at h
    by_cases hn : n = m
    · subst hn
      rw [List.lookup_cons_self, List.mem_cons]
      constructor
      · rintro (he | hm)
        · rw [(Prod.mk.inj he).2]
        · exact absurd (List.mem_map_of_mem (f := (·.1)) hm) h.1
      · intro he
        exact .inl (by rw [Option.some.inj he])
    · rw [List.lookup_cons, beq_false_of_ne hn, List.mem_cons, ← ih h.2]
      exact ⟨fun hm => hm.resolve_left fun he => hn (Prod.mk.inj he).1, .inr⟩

/-- **The files of the projects** are loaded alike wherever they are the same. -/
theorem sorted_loadable (h : ∀ slug, slugValid slug = true →
      files.projects.lookup (slug ++ ascii ".xcdn") =
        files'.projects.lookup (slug ++ ascii ".xcdn")) :
    (files.projects.mergeSort nameLe).filter loadable =
      (files'.projects.mergeSort nameLe).filter loadable := by
  have hmem : ∀ f : Bytes × Bytes, f ∈ files.projects.filter loadable ↔
      f ∈ files'.projects.filter loadable := by
    rintro ⟨n, b⟩
    rw [List.mem_filter, List.mem_filter, mem_iff_lookup files.nodup, mem_iff_lookup files'.nodup]
    refine and_congr_left fun hf => ?_
    obtain ⟨slug, hslug⟩ := Option.isSome_iff_exists.1 hf
    obtain ⟨rfl, hvalid⟩ := fileSlug_some hslug
    rw [h slug hvalid]
  have hnodup : ∀ files : SectionFiles, (files.projects.filter loadable).Nodup := fun files =>
    (files.nodup.of_map _).filter _
  have hperm := (List.perm_ext_iff_of_nodup (hnodup files) (hnodup files')).2 hmem
  have hsorted : ∀ l : List (Bytes × Bytes), ((l.mergeSort nameLe).filter loadable).Pairwise
      fun a b => nameLe a b = true := fun l => (sorted_nameLe l).filter _
  have hsort : ∀ l : List (Bytes × Bytes),
      ((l.mergeSort nameLe).filter loadable).Perm (l.filter loadable) := fun l =>
    (List.mergeSort_perm l _).filter _
  refine List.Perm.eq_of_pairwise ?_ (hsorted _) (hsorted _)
    ((hsort _).trans (hperm.trans (hsort _).symm))
  rintro ⟨n, b⟩ ⟨n', b'⟩ hf hf' hle hle'
  obtain rfl : n = n' := List.le_antisymm (nameLe_iff.1 hle) (nameLe_iff.1 hle')
  have hf := (List.mem_filter.1 hf)
  have hf' := (List.mem_filter.1 hf')
  have hb := (mem_iff_lookup files.nodup).1 ((List.mergeSort_perm _ _).mem_iff.1 hf.1)
  have hb' := (mem_iff_lookup files'.nodup).1 ((List.mergeSort_perm _ _).mem_iff.1 hf'.1)
  obtain ⟨slug, hslug⟩ := Option.isSome_iff_exists.1 hf.2
  obtain ⟨rfl, hvalid⟩ := fileSlug_some hslug
  rw [h slug hvalid, hb'] at hb
  rw [Option.some.inj hb]

/-- **What is loaded** depends on the files of the store alone: not on the order in which they are
listed, and not on other files in `projects/`. -/
theorem storeLoad_congr (h : ∀ rel, relativeValid rel = true →
      storedFile files none rel = storedFile files' none rel) :
    storeLoad X D now files = storeLoad X D now files' := by
  have hid : files.identity = files'.identity := h (ascii "identity.xcdn") (by decide)
  have hctx : files.context = files'.context := h (ascii "context.xcdn") (by decide)
  have hprojects : (files.projects.mergeSort nameLe).filter loadable =
      (files'.projects.mergeSort nameLe).filter loadable := sorted_loadable fun slug hs => by
    rw [← storedFile_projectRel files none, ← storedFile_projectRel files' none]
    exact h _ (projectRel_valid hs)
  unfold storeLoad
  rw [hid, hctx]
  refine congrArg (_ >>= ·) (funext fun t => congrArg (_ >>= ·) (funext fun t => ?_))
  rw [loadProjects_loadable, hprojects, ← loadProjects_loadable]

end

/-! ## Reading the disk -/

/-- What the file at `p` holds. -/
def fileAt (d : Disk) (p : Path) : Option Bytes :=
  match d p with
  | some (.file b) => some b
  | _ => none

/-- The files of the records that lie on a disk. -/
def diskFiles (d : Disk) (names : List Bytes) (h : names.Nodup) : SectionFiles where
  identity := fileAt d identityFile
  context := fileAt d contextFile
  projects := names.map fun name => (name, d.data (projectsDir ++ [name]))
  nodup := by
    rw [List.map_map]
    exact (congrArg List.Nodup (List.map_id names)).mpr h

/-- The regular files in `projects/`, in the order of the directory. -/
def Lists (names : List Bytes) (d : Disk) : Prop :=
  names.Nodup ∧ ∀ name, name ∈ names ↔ ∃ b, d (projectsDir ++ [name]) = some (.file b)

section
variable {X : XcdnText} {D : Digest} {now : Int} {d : Disk} {names : List Bytes}

theorem blob_of {q : Path} {n : Bytes} {o : Option Bytes} (hq : d.find q = .found .dir)
    (h : d (q ++ [n]) = o.map .file) : blob d (q ++ [n]) = o.elim (.error .notFound) .ok := by
  rw [blob_child n hq, h]
  cases o <;> rfl

theorem loadSectionIn_of {want : Section} {slug : Bytes} {p : Path} {o : Option Bytes} {t : Table}
    (h : blob d p = o.elim (.error .notFound) .ok) :
    loadSectionIn X D now want slug p t d = ⟨[], loadSectionFile X D now want slug o t⟩ := by
  have hread : (osBlobOpen p).attempt d = ⟨[], .ok (o.elim (.error .notFound) .ok)⟩ := by
    rw [osBlobOpen, Act.attempt, Act.writes_read, Act.result_read, h]
  rw [loadSectionIn, Act.bind_run hread]
  cases o <;> rfl

theorem loadProjectIn_run (hdir : d projectsDir = some .dir) {name : Bytes}
    (h : ∃ b, d (projectsDir ++ [name]) = some (.file b)) (m : Memory) :
    loadProjectIn X D now m name d =
      ⟨[], loadProject X D now m (name, d.data (projectsDir ++ [name]))⟩ := by
  obtain ⟨b, hb⟩ := h
  have hdata : d.data (projectsDir ++ [name]) = b := by rw [Disk.data, hb]
  rw [hdata, loadProjectIn, loadProject]
  cases fileSlug name with
  | none => rfl
  | some slug =>
    have hfind : d.find projectsDir = .found .dir := Disk.find_top_some hdir
    have hload : loadSectionIn X D now .project slug (projectsDir ++ [name]) m.table d = _ :=
      loadSectionIn_of (blob_of (o := some b) hfind hb)
    exact Act.bind_quiet hload fun t _ => Act.bind_quiet rfl fun ps _ => rfl

/-- The files of the projects are loaded one by one. -/
theorem loadNamesIn_run (hdir : d projectsDir = some .dir)
    (h : ∀ name ∈ names, ∃ b, d (projectsDir ++ [name]) = some (.file b)) (m : Memory) :
    loadNamesIn X D now names m d = ⟨[], (names.map fun name =>
      (name, d.data (projectsDir ++ [name]))).foldlM (loadProject X D now) m⟩ := by
  induction names generalizing m with
  | nil => rfl
  | cons name names ih =>
    rw [List.map_cons, List.foldlM_cons]
    exact Act.bind_quiet (loadProjectIn_run hdir (h name List.mem_cons_self) m) fun m' _ =>
      ih (fun n hn => h n (List.mem_cons_of_mem _ hn)) m'

theorem lookup_names (f : Bytes → Bytes) (names : List Bytes) (n : Bytes) :
    (names.map fun name => (name, f name)).lookup n = if n ∈ names then some (f n) else none := by
  induction names with
  | nil => simp
  | cons name names ih =>
    rw [List.map_cons]
    by_cases hn : n = name
    · rw [hn, List.lookup_cons_self, if_pos List.mem_cons_self]
    · rw [List.lookup_cons, beq_false_of_ne hn, ih]
      simp [hn]

theorem fileAt_of {p : Path} {o : Option Bytes} (h : d p = o.map .file) : fileAt d p = o := by
  rw [fileAt, h]
  cases o <;> rfl

/-- **The files on a disk** are those of the store it holds. -/
theorem diskFiles_stored {files : SectionFiles} {journal : Option Bytes}
    (h : FilesStored (storedFile files journal) d) (hl : Lists names d) {rel : Bytes}
    (hrel : relativeValid rel = true) :
    storedFile (diskFiles d names hl.1) none rel = storedFile files none rel := by
  have hid : resolve (ascii "identity.xcdn") = identityFile := by decide
  have hctx : resolve (ascii "context.xcdn") = contextFile := by decide
  have hcontents := h.contents rel hrel
  cases relativeValid_iff.1 hrel with
  | identity => exact fileAt_of (hid ▸ hcontents)
  | context => exact fileAt_of (hctx ▸ hcontents)
  | journal => rfl
  | @project slug hs =>
    have hslug : ascii "projects/" ++ (slug ++ ascii ".xcdn") = projectRel slug :=
      (List.append_assoc ..).symm
    rw [hslug] at hcontents ⊢
    rw [resolve_projectRel hs, storedFile_projectRel] at hcontents
    rw [storedFile_projectRel, storedFile_projectRel, diskFiles, lookup_names]
    have hnode : d (projectsDir ++ [slug ++ ascii ".xcdn"]) =
        (files.projects.lookup (slug ++ ascii ".xcdn")).map .file := hcontents
    cases ho : files.projects.lookup (slug ++ ascii ".xcdn") with
    | none =>
      rw [ho] at hnode
      refine if_neg fun hm => ?_
      obtain ⟨b, hb⟩ := (hl.2 _).1 hm
      rw [hnode] at hb
      cases hb
    | some b =>
      rw [ho] at hnode
      rw [if_pos ((hl.2 _).2 ⟨b, hnode⟩), Disk.data, hnode]
      rfl

/-- **Loading a disk** is loading the files of the store it holds. -/
theorem storeLoadIn_run {files : SectionFiles} {journal : Option Bytes} {w : OpenDraw}
    (h : FilesStored (storedFile files journal) d) (hl : Lists w.names d) :
    storeLoadIn X D w d = ⟨[], storeLoad X D w.now files⟩ := by
  have hid : blob d identityFile = files.identity.elim (.error .notFound) .ok :=
    blob_of (q := []) rfl (h.contents (ascii "identity.xcdn") (by decide))
  have hctx : blob d contextFile = files.context.elim (.error .notFound) .ok :=
    blob_of (q := []) rfl (h.contents (ascii "context.xcdn") (by decide))
  have hnames : ∀ name ∈ w.names.mergeSort nameBefore,
      ∃ b, d (projectsDir ++ [name]) = some (.file b) := fun name hm =>
    (hl.2 name).1 ((List.mergeSort_perm _ _).mem_iff.1 hm)
  have hsort : (diskFiles d w.names hl.1).projects.mergeSort nameLe =
      (w.names.mergeSort nameBefore).map fun name => (name, d.data (projectsDir ++ [name])) :=
    (List.map_mergeSort (f := fun name => (name, d.data (projectsDir ++ [name])))
      fun _ _ _ _ => rfl).symm
  have hprojects : ∀ t, loadNamesIn X D w.now (w.names.mergeSort nameBefore) ⟨t, .empty⟩ d =
      ⟨[], ((diskFiles d w.names hl.1).projects.mergeSort nameLe).foldlM (loadProject X D w.now)
        ⟨t, .empty⟩⟩ := fun t => by
    rw [hsort]
    exact loadNamesIn_run h.dir hnames _
  have hload : storeLoadIn X D w d =
      ⟨[], (loadSectionFile X D w.now .identity [] files.identity .empty).bind fun t =>
        (loadSectionFile X D w.now .context [] files.context t).bind fun t =>
          ((diskFiles d w.names hl.1).projects.mergeSort nameLe).foldlM (loadProject X D w.now)
            ⟨t, .empty⟩⟩ :=
    Act.bind_quiet (loadSectionIn_of hid) fun t _ =>
      Act.bind_quiet (loadSectionIn_of hctx) fun t _ => hprojects t
  rw [hload, ← storeLoad_congr fun rel hrel => diskFiles_stored h hl hrel]
  have hi : (diskFiles d w.names hl.1).identity = files.identity :=
    diskFiles_stored h hl (show relativeValid (ascii "identity.xcdn") = true by decide)
  have hc : (diskFiles d w.names hl.1).context = files.context :=
    diskFiles_stored h hl (show relativeValid (ascii "context.xcdn") = true by decide)
  rw [← hi, ← hc]
  rfl

end

/-! ## Where a store rests -/

/-- The disk holds the files of records `files`, and no transaction is under way. -/
structure FilesKept (files : SectionFiles) (d : Disk) : Prop where
  marker : d compactMarker = none
  dir : d projectsDir = some .dir
  contents : ∀ rel, relativeValid rel = true → rel ≠ ascii "journal.xcdn" →
    d (resolve rel) = (storedFile files none rel).map .file

/-- The journal holds the operations `es`, and maybe a cut one; a new store has none yet. -/
inductive JournalKept (D : Digest) (es : List Event) (d : Disk) : Prop
  | missing (hes : es = []) (h : d journalFile = none)
  | frames {t : Bytes} (h : JournalFile D d [] journalName es t)

/-- The disk holds the store `s`. -/
structure OnDisk (D : Digest) (s : StoreState) (d : Disk) : Prop where
  files : FilesKept s.files d
  journal : JournalKept D s.journal d

/-- The disk holds the store `s`, or a compaction of it that can be undone. -/
inductive Revertible (D : Digest) (s : StoreState) (d : Disk) : Prop
  | kept (h : OnDisk D s d)
  | armed {d₀ : Disk} {rows : List CompactRow} (h₀ : OnDisk D s d₀) (h : Armed D rows d₀ d)

/-- The disk of a store that was never opened. -/
structure Unborn (d : Disk) : Prop where
  marker : d compactMarker = none
  dir : DirOk d projectsDir
  files : ∀ rel, relativeValid rel = true → d (resolve rel) = none

/-- What the process of a store may leave when it stops. -/
inductive Rests (D : Digest) (s : StoreState) (d : Disk) : Prop
  | settled (h : Revertible D s d)
  | unborn (hs : s = .empty) (h : Unborn d)

section
variable {D : Digest} {s : StoreState} {files : SectionFiles} {es : List Event} {d d' d₀ : Disk}
  {p : Path}

theorem resolve_journal : resolve (ascii "journal.xcdn") = journalFile := by decide

theorem storePath_journal : StorePath journalFile :=
  resolve_journal ▸ .file (show relativeValid (ascii "journal.xcdn") = true by decide)

theorem storedFile_other {journal : Option Bytes} {rel : Bytes} (h : rel ≠ ascii "journal.xcdn") :
    storedFile files journal rel = storedFile files none rel := by
  rw [storedFile, storedFile, if_neg h, if_neg h]

theorem stored_iff {journal : Option Bytes} : FilesStored (storedFile files journal) d ↔
    FilesKept files d ∧ d journalFile = journal.map .file := by
  constructor
  · intro h
    refine ⟨⟨h.marker, h.dir, fun rel hrel hne => ?_⟩, ?_⟩
    · rw [h.contents rel hrel, storedFile_other hne]
    · exact resolve_journal ▸ h.contents (ascii "journal.xcdn") (by decide)
  · rintro ⟨h, hj⟩
    refine ⟨h.marker, h.dir, fun rel hrel => ?_⟩
    by_cases hne : rel = ascii "journal.xcdn"
    · rw [hne, resolve_journal, hj]
      rfl
    · exact (h.contents rel hrel hne).trans (congrArg (·.map Node.file) (storedFile_other hne).symm)

theorem FilesKept.congr (h : FilesKept files d) (hm : d' compactMarker = d compactMarker)
    (hd : d' projectsDir = d projectsDir) (hf : ∀ rel, relativeValid rel = true →
      rel ≠ ascii "journal.xcdn" → d' (resolve rel) = d (resolve rel)) : FilesKept files d' :=
  ⟨hm.trans h.marker, hd.trans h.dir, fun rel hrel hne =>
    (hf rel hrel hne).trans (h.contents rel hrel hne)⟩

/-- The files of records do not depend on the journal. -/
theorem FilesKept.journal : Act.Stable (FilesKept files) journalFile := fun d x h =>
  h.congr (Disk.set_ne _ _ (by decide)) (Disk.set_ne _ _ (by decide)) fun rel hrel hne =>
    Disk.set_ne _ _ fun he => hne (resolve_inj hrel (by decide) (he.trans resolve_journal.symm))

theorem JournalFile.congr {t : Bytes} (h : JournalFile D d [] journalName es t)
    (hsame : d' journalFile = d journalFile) : JournalFile D d' [] journalName es t :=
  ⟨rfl, h.ok, h.torn, h.size, hsame.trans h.log⟩

theorem JournalKept.congr (h : JournalKept D es d) (hsame : d' journalFile = d journalFile) :
    JournalKept D es d' := by
  cases h with
  | missing hes h => exact .missing hes (hsame.trans h)
  | frames h => exact .frames (h.congr hsame)

theorem OnDisk.congr (h : OnDisk D s d) (hs : SameNodes d d') : OnDisk D s d' :=
  ⟨h.files.congr (hs _ .marker) (hs _ .dir) fun _ hrel _ => hs _ (.file hrel),
    h.journal.congr (hs _ storePath_journal)⟩

/-- **A compaction that is undone** leaves the store. -/
theorem OnDisk.intact (h : OnDisk D s d₀) (hi : FilesIntact d₀ d) : OnDisk D s d := by
  refine ⟨⟨hi.marker, hi.dir, fun rel hrel hne => ?_⟩, h.journal.congr ?_⟩
  · rw [hi.files rel hrel, h.files.contents rel hrel hne]
  · exact resolve_journal ▸ hi.files (ascii "journal.xcdn") (by decide)

theorem Revertible.congr (h : Revertible D s d) (hs : SameNodes d d') : Revertible D s d' := by
  cases h with
  | kept h => exact .kept (h.congr hs)
  | armed h₀ h => exact .armed h₀ (h.congr hs)

theorem Revertible.dir (h : Revertible D s d) : d projectsDir = some .dir := by
  cases h with
  | kept h => exact h.files.dir
  | armed _ h => exact h.dir

theorem Unborn.congr (h : Unborn d) (hs : SameNodes d d') : Unborn d' :=
  ⟨(hs _ .marker).trans h.marker, h.dir.congr (hs _ .dir), fun rel hrel =>
    (hs _ (.file hrel)).trans (h.files rel hrel)⟩

theorem Rests.congr (h : Rests D s d) (hs : SameNodes d d') : Rests D s d' := by
  cases h with
  | settled h => exact .settled (h.congr hs)
  | unborn he h => exact .unborn he (h.congr hs)

theorem storedFile_empty (rel : Bytes) : storedFile .empty none rel = none := by
  unfold storedFile
  split_ifs <;> rfl

/-- A store that was never opened, with its directory. -/
theorem Unborn.born (h : Unborn d) (hd : d projectsDir = some .dir) : OnDisk D .empty d :=
  ⟨⟨h.marker, hd, fun rel hrel _ =>
      (h.files rel hrel).trans (congrArg (Option.map Node.file) (storedFile_empty rel)).symm⟩,
    .missing rfl (resolve_journal ▸ h.files (ascii "journal.xcdn") (by decide))⟩

theorem Unborn.mkdir (h : Unborn d) : Unborn (d.set projectsDir (some .dir)) :=
  ⟨by rw [Disk.set_ne _ _ (by decide), h.marker], .inr (Disk.set_self ..), fun rel hrel => by
    rw [Disk.set_ne _ _ (path_ne (lastByte_rel hrel) lastByte_projects (by decide)),
      h.files rel hrel]⟩

end

/-! ## Undoing a compaction -/

section
variable {D : Digest} {s : StoreState} {d : Disk} {P : Disk → Prop} {uuids : Bytes → Uuid}

theorem osMkdirP_of {c : Bytes} {ws : List Write} {r : Except Err Unit}
    (h : mkdirStep [c] d = ⟨ws, r⟩) : osMkdirP [c] d = ⟨ws, r⟩ := by
  cases r with
  | error e => exact Act.bind_run_error h
  | ok a => exact (Act.bind_run_run (v := []) h rfl).trans (by rw [List.append_nil])

theorem mkdirStep_look {p : Path} {o : Option Node} (h : d p = o) :
    (Act.look (· p) : Io (Option Node)) d = ⟨[], .ok o⟩ := by
  rw [Act.look, h]

theorem osMkdirP_new {c : Bytes} (h : d [c] = none) : osMkdirP [c] d = ⟨[.mkdir [c]], .ok ()⟩ :=
  osMkdirP_of (Act.bind_run_run (mkdirStep_look h) rfl)

theorem wp_osMkdirP {c : Bytes} {Q : Except Err Unit → Disk → Prop} (hP : P d)
    (hnone : d [c] = none → P (d.set [c] (some .dir)) ∧ Q (.ok ()) (d.set [c] (some .dir)))
    (hdir : d [c] = some .dir → Q (.ok ()) d) (hfile : ¬ DirOk d [c] → Q (.error .io) d) :
    Act.Wp P (osMkdirP [c]) Q d := by
  cases hd : d [c] with
  | none =>
    obtain ⟨hset, hq⟩ := hnone hd
    exact .of_run (osMkdirP_new hd) (.whole (fun _ => rfl) hP hset hq)
  | some x =>
    have hlook := mkdirStep_look hd
    cases x with
    | dir => exact .of_quiet (osMkdirP_of (Act.bind_run_run hlook rfl)) hP (hdir hd)
    | file b =>
      have hno : ¬ DirOk d [c] := by
        rintro (h | h) <;> rw [hd] at h <;> cases h
      exact .of_quiet (osMkdirP_of (Act.bind_run_run hlook rfl)) hP (hfile hno)

theorem cacheDir_foreign : ¬ StorePath cacheDir := fun h => by
  obtain ⟨b, hb, hlt⟩ := h.lastByte
  obtain rfl : b = 101 := Option.some.inj (hb.symm.trans (by decide))
  exact absurd hlt (by decide)

theorem temporaryFile_long {p : Path} {uuid : Uuid} {n : Bytes} (h : n.length < 36) :
    temporaryFile p uuid ≠ [n] := by
  intro he
  have hlen := congrArg (fun p : Path => (p.getLastD []).length) he
  have huuid := uuidShape_length uuid.2
  simp only [temporaryFile, ext, List.getLastD_concat, List.length_append, huuid] at hlen
  have hn : ([n] : Path).getLastD [] = n := rfl
  rw [hn] at hlen
  omega

theorem NamesFree.short (h : NamesFree uuids d) {n : Bytes} (hn : n.length < 36) (x : Option Node) :
    NamesFree uuids (d.set [n] x) :=
  NamesFree.stable (fun _ _ => (temporaryFile_long hn).symm) d x h

/-- **A compaction is undone**, if one was stopped. -/
theorem Revertible.recover (h : Revertible D s d) (hfree : NamesFree uuids d) :
    Act.Wp (Revertible D s) (compactRecover D uuids)
      (fun r d' => r = .ok () ∧ OnDisk D s d') d := by
  cases h with
  | kept h =>
    exact .of_quiet (compactRecover_none uuids h.files.marker) (.kept h) ⟨rfl, h⟩
  | armed h₀ h =>
    refine (h.recover hfree).weaken ?_ fun _ _ hd => ⟨hd.1, h₀.intact hd.2⟩
    rintro d' (ha | hi)
    · exact .armed h₀ ha
    · exact .kept (h₀.intact hi)

/-- How the first part of opening a store ends. -/
inductive RecoverEnd (D : Digest) (s : StoreState) (d : Disk) : Except Err Unit → Disk → Prop
  | done {d' : Disk} (h : OnDisk D s d') : RecoverEnd D s d (.ok ()) d'
  | failed {d' : Disk} {e : Err} (hc : ¬ DirOk d cacheDir) (h : Rests D s d') :
    RecoverEnd D s d (.error e) d'

theorem wp_storeRecover (h : Rests D s d) (hfree : NamesFree uuids d) :
    Act.Wp (Rests D s) (storeRecover D uuids) (RecoverEnd D s d) d := by
  have hprojects : Act.Wp (Rests D s) (osMkdirP [ascii "projects"]) (fun r d' => r = .ok () ∧
      Revertible D s d' ∧ NamesFree uuids d' ∧ d' cacheDir = d cacheDir) d := by
    cases h with
    | settled h =>
      refine wp_osMkdirP (.settled h) (fun hn => ?_) (fun _ => ⟨rfl, h, hfree, rfl⟩) fun hno => ?_
      · exact nomatch hn.symm.trans h.dir
      · exact absurd (.inr h.dir) hno
    | unborn hs h =>
      refine wp_osMkdirP (.unborn hs h) (fun _ => ?_)
        (fun hd => ⟨rfl, hs ▸ .kept (h.born hd), hfree, rfl⟩) fun hno => absurd h.dir hno
      exact ⟨.unborn hs h.mkdir, rfl, hs ▸ .kept (h.mkdir.born (Disk.set_self ..)),
        hfree.short (by decide) _, Disk.set_ne _ _ (by decide)⟩
  refine hprojects.bind ?_ fun _ _ he => nomatch he.1
  rintro _ d₁ ⟨-, h₁, hfree₁, hcache⟩
  have hmkdir : Act.Wp (Rests D s) (osMkdirP cacheDir) (fun r d' =>
      (r = .ok () ∧ Revertible D s d' ∧ NamesFree uuids d') ∨
        (r = .error .io ∧ ¬ DirOk d cacheDir ∧ Rests D s d')) d₁ := by
    refine wp_osMkdirP (.settled h₁) (fun _ => ?_) (fun _ => .inl ⟨rfl, h₁, hfree₁⟩) fun hno => ?_
    · have h₂ := h₁.congr (.set cacheDir_foreign d₁ (some .dir))
      exact ⟨.settled h₂, .inl ⟨rfl, h₂, hfree₁.short (by decide) _⟩⟩
    · exact .inr ⟨rfl, fun hc => hno (hc.congr hcache), .settled h₁⟩
  refine hmkdir.bind ?_ ?_
  · rintro _ d₂ (⟨-, h₂, hfree₂⟩ | ⟨he, -⟩)
    · refine (h₂.recover hfree₂).weaken (fun _ h => .settled h) ?_
      rintro _ d₃ ⟨rfl, h₃⟩
      exact .done h₃
    · cases he
  · rintro e d₂ (⟨he, -⟩ | ⟨-, hc, h₂⟩)
    · cases he
    · exact .failed hc h₂

end

/-! ## Opening -/

/-- The disk of a store that runs. -/
structure Healthy (D : Digest) (s : StoreState) (d : Disk) : Prop where
  files : FilesKept s.files d
  journal : JournalFile D d [] journalName s.journal []

/-- How opening a store ends. -/
inductive OpenEnd (X : XcdnText) (D : Digest) (w : OpenDraw) (s : StoreState) (d : Disk) :
    Except Err (Memory × JournalState) → Disk → Prop
  | opened {d' : Disk} {m : Memory} (hm : storeOpen X D w.now s.files s.journal = .ok m)
    (h : Healthy D s d') : OpenEnd X D w s d (.ok (m, .opened s.journal.length)) d'
  | failed {d' : Disk} {e : Err} (he : w.manifest ≠ none ∨ ¬ DirOk d cacheDir ∨
      storeOpen X D w.now s.files s.journal = .error e) (h : Rests D s d') :
    OpenEnd X D w s d (.error e) d'

section
variable {X : XcdnText} {D : Digest} {w : OpenDraw} {s : StoreState} {d d₀ : Disk}

theorem Healthy.kept (h : Healthy D s d) : OnDisk D s d := ⟨h.files, .frames h.journal⟩

theorem Healthy.congr {d' : Disk} (h : Healthy D s d) (hs : SameNodes d d') : Healthy D s d' :=
  ⟨(h.kept.congr hs).files, h.journal.congr (hs _ storePath_journal)⟩

theorem Healthy.intact (h : Healthy D s d₀) (hi : FilesIntact d₀ d) : Healthy D s d :=
  ⟨(h.kept.intact hi).files,
    h.journal.congr (resolve_journal ▸ hi.files (ascii "journal.xcdn") (by decide))⟩

theorem Healthy.stored (h : Healthy D s d) :
    FilesStored (storedFile s.files (some (logBytes D s.journal))) d :=
  stored_iff.2 ⟨h.files, h.journal.log.trans (by rw [List.append_nil]; rfl)⟩

theorem OnDisk.stored (h : OnDisk D s d) :
    ∃ journal, FilesStored (storedFile s.files journal) d := by
  cases h.journal with
  | missing _ hj => exact ⟨none, stored_iff.2 ⟨h.files, hj⟩⟩
  | frames hj => exact ⟨some _, stored_iff.2 ⟨h.files, hj.log⟩⟩

/-- Opening the journal to append makes it, if it is not there. -/
theorem wp_openJournal (h : FilesKept s.files d) (hj : JournalKept D s.journal d)
    (hlog : s.journal = [] ∧ d journalFile = none ∨ JournalFile D d [] journalName s.journal []) :
    Act.Wp (OnDisk D s) (osAppend journalFile []) (fun r d' => r = .ok () ∧ Healthy D s d') d := by
  have hnode : d journalFile ≠ some .dir := by
    rcases hlog with ⟨-, hn⟩ | hf
    · rw [hn]
      exact nofun
    · have hl : d journalFile = _ := hf.log
      rw [hl]
      simp
  have hdata : d.data journalFile = logBytes D s.journal := by
    rcases hlog with ⟨hes, hn⟩ | hf
    · rw [Disk.data, hn, hes]
      rfl
    · have hl : d journalFile = _ := hf.log
      rw [Disk.data, hl, List.append_nil]
  have hrun : osAppend journalFile [] d = ⟨[.append journalFile []], .ok ()⟩ :=
    osAppend_child (q := []) (ascii "journal.xcdn") [] rfl hnode
  have hdone : Healthy D s (d.set journalFile (some (.file (logBytes D s.journal)))) := by
    refine ⟨FilesKept.journal d _ h, ?_⟩
    rcases hlog with ⟨hes, -⟩ | hf
    · rw [hes]
      exact ⟨rfl, trivial, frameRead_nil D, Nat.zero_le _, Disk.set_self ..⟩
    · exact hf.cut
  have happend : ∀ w : Write, w = .append journalFile [] → Healthy D s (w.apply d) := by
    rintro w rfl
    rwa [Write.apply, hdata, List.append_nil]
  refine .of_run hrun (.single ⟨h, hj⟩ (fun k w' hk _ => ?_) (happend _ rfl).kept
    ⟨rfl, happend _ rfl⟩)
  exact (happend w' (by rw [← Option.some.inj hk, List.take_nil])).kept

/-- The journal is replayed over what was loaded. -/
theorem wp_replay {m : Memory} (h : OnDisk D s d) (hm : storeLoad X D w.now s.files = .ok m) :
    Act.Wp (OnDisk D s) (do
      let r ← journalReplay (opText X w.now).codec D journalFile m
      osAppend journalFile []
      pure (r.1, .opened r.2) : Io (Memory × JournalState)) (OpenEnd X D w s d₀) d := by
  have hopen : storeOpen X D w.now s.files s.journal =
      replayAll (opText X w.now).codec m 0 s.journal := by
    unfold storeOpen
    rw [hm]
    rfl
  have hlast : ∀ (m' : Memory) d', storeOpen X D w.now s.files s.journal = .ok m' → OnDisk D s d' →
      (s.journal = [] ∧ d' journalFile = none ∨ JournalFile D d' [] journalName s.journal []) →
      Act.Wp (OnDisk D s) (do
        osAppend journalFile []
        pure (m', .opened s.journal.length) : Io (Memory × JournalState))
          (OpenEnd X D w s d₀) d' := by
    intro m' d' hm' hk hlog
    refine (wp_openJournal hk.files hk.journal hlog).bind ?_ fun _ _ he => nomatch he.1
    rintro _ d'' ⟨-, hd⟩
    exact .pure hd.kept (.opened hm' hd)
  cases h.journal with
  | missing hes hj =>
    have hfs : osFileSize journalFile d = ⟨[], .error .notFound⟩ := by
      have hsize := fileSize_child (q := []) (d := d) (ascii "journal.xcdn") rfl
      have hn : d ([] ++ [ascii "journal.xcdn"]) = none := hj
      rw [hn] at hsize
      exact congrArg (Outcome.mk []) hsize
    have hreplay : journalReplay (opText X w.now).codec D journalFile m d = ⟨[], .ok (m, 0)⟩ := by
      rw [journalReplay, Act.bind_run (Act.attempt_run hfs)]
      rfl
    refine .after hreplay ?_
    have hzero : JournalState.opened 0 = .opened s.journal.length := by rw [hes]; rfl
    dsimp only
    rw [hzero]
    exact hlast m _ (by rw [hopen, hes]; rfl) h (.inl ⟨hes, hj⟩)
  | frames hj =>
    obtain ⟨ws, hrun, hsteps, hframe⟩ := journalReplay_steps (opText X w.now).codec hj m
    have hkept : ∀ d' : Disk, (∀ p, ¬ p = [] ++ [journalName] → d' p = d p) →
        FilesKept s.files d' := fun d' hd => h.files.congr (hd _ (by decide)) (hd _ (by decide)) fun rel hrel hne =>
        hd _ fun he => hne (resolve_inj hrel (by decide) (he.trans resolve_journal.symm))
    have hwp : Act.Wp (OnDisk D s) (journalReplay (opText X w.now).codec D journalFile m)
        (fun r d' => r = (replayAll (opText X w.now).codec m 0 s.journal).map
          (fun m => (m, s.journal.length)) ∧ OnDisk D s d' ∧
            ∀ m', replayAll (opText X w.now).codec m 0 s.journal = .ok m' →
              JournalFile D d' [] journalName s.journal []) d := by
      refine .of_run hrun ((hsteps.framed hframe).weaken ?_ ?_)
      · rintro d' ⟨⟨t, ht⟩, hd⟩
        exact ⟨hkept d' hd, .frames ht⟩
      · rintro d' ⟨⟨⟨t, ht⟩, hok⟩, hd⟩
        exact ⟨rfl, ⟨hkept d' hd, .frames ht⟩, hok⟩
    refine hwp.bind ?_ ?_
    · rintro ⟨m', n⟩ d' ⟨hr, hk, hok⟩
      obtain ⟨m'', hm'', he⟩ := except_map_ok hr.symm
      obtain ⟨rfl, rfl⟩ := Prod.mk.inj he
      exact hlast _ d' (hopen.trans hm'') hk (.inr (hok _ hm''))
    · rintro e d' ⟨hr, hk, -⟩
      cases hall : replayAll (opText X w.now).codec m 0 s.journal with
      | ok m' =>
        rw [hall] at hr
        cases hr
      | error e' =>
        rw [hall] at hr
        obtain rfl := Except.error.inj hr
        exact .failed (.inr (.inr (hopen.trans hall))) (.settled (.kept hk))

/-- **A store is opened** as what `storeOpen` computes from its files and its journal, whatever a
process left of it. -/
theorem wp_storeOpenLive (h : Rests D s d) (hfree : NamesFree w.uuids d)
    (hl : Lists w.names ((storeRecover D w.uuids).final d)) :
    Act.Wp (Rests D s) (storeOpenLive X D w) (OpenEnd X D w s d) d := by
  refine (wp_storeRecover h hfree).at_final.bind ?_ ?_
  · rintro _ d₁ ⟨hend, hd⟩
    cases hend with
    | done hk =>
      rw [← hd] at hl
      cases hmanifest : w.manifest with
      | some e =>
        have hno : w.manifest ≠ none := fun hn => nomatch hmanifest.symm.trans hn
        exact .of_quiet (Act.bind_run_error rfl) (.settled (.kept hk))
          (.failed (.inl hno) (.settled (.kept hk)))
      | none =>
        obtain ⟨journal, hstored⟩ := hk.stored
        have hload := storeLoadIn_run (X := X) (D := D) hstored hl
        refine .after rfl ?_
        cases hm : storeLoad X D w.now s.files with
        | error e =>
          rw [hm] at hload
          refine .of_quiet (Act.bind_run_error hload) (.settled (.kept hk))
            (.failed (.inr (.inr ?_)) (.settled (.kept hk)))
          unfold storeOpen
          rw [hm]
          rfl
        | ok m =>
          rw [hm] at hload
          refine .after hload ?_
          exact (wp_replay hk hm).weaken (fun _ h => .settled (.kept h)) fun _ _ h => h
  · rintro e d₁ ⟨hend, -⟩
    cases hend with
    | failed hc hr => exact .failed (.inr (.inl hc)) hr

/-- What opening a store draws on `d`. -/
structure OpenSent (D : Digest) (w : OpenDraw) (d : Disk) : Prop where
  free : NamesFree w.uuids d
  listed : Lists w.names ((storeRecover D w.uuids).final d)

/-- Opening the store is stopped, or ends, at `d'`. -/
def OpenTry (X : XcdnText) (D : Digest) (d : Disk) (w : OpenDraw) (d' : Disk) : Prop :=
  OpenSent D w d ∧ Stops (storeOpenLive X D w) d d'

theorem Rests.run {ws : List OpenDraw} {d' : Disk} (h : Rests D s d)
    (hruns : Durable.Runs (OpenTry X D) d ws d') : Rests D s d' := by
  refine hruns.inv (I := fun _ d => Rests D s d) h ?_
  rintro - d₁ w d₂ h₁ ⟨hw, t, hc⟩
  exact (wp_storeOpenLive h₁ hw.free hw.listed).crash hc fun _ _ _ hf => hf

end

/-! ## A blank disk -/

section
variable {D : Digest} {uuids : Bytes → Uuid}

def blankDisk : Disk := fun _ => none

theorem blankDisk_unborn : Unborn blankDisk := ⟨rfl, .inl rfl, fun _ _ => rfl⟩

theorem blankDisk_recover : (storeRecover D uuids).final blankDisk =
    (blankDisk.set projectsDir (some .dir)).set cacheDir (some .dir) := by
  have hcache : (blankDisk.set projectsDir (some .dir)) cacheDir = none :=
    Disk.set_ne _ _ (by decide)
  have hmarker : ((blankDisk.set projectsDir (some .dir)).set cacheDir (some .dir))
      compactMarker = none := by
    rw [Disk.set_ne _ _ (by decide), Disk.set_ne _ _ (by decide)]
    rfl
  have hrun : storeRecover D uuids blankDisk = ⟨[.mkdir projectsDir, .mkdir cacheDir], .ok ()⟩ :=
    Act.bind_run_run (osMkdirP_new rfl) (Act.bind_run_run (osMkdirP_new hcache)
      (compactRecover_none uuids hmarker))
  rw [Act.final, Act.writes, hrun]
  rfl

/-- A new store is opened with no files. -/
theorem blankDisk_sent (now : Int) : OpenSent D ⟨now, uuids, none, []⟩ blankDisk where
  free := fun _ _ => rfl
  listed := by
    refine ⟨List.nodup_nil, fun name => ⟨nofun, ?_⟩⟩
    rintro ⟨b, hb⟩
    rw [blankDisk_recover, Disk.set_ne _ _ (by simp [projectsDir, cacheDir]),
      Disk.set_ne _ _ (by simp [projectsDir])] at hb
    cases hb

end

section
variable {X : XcdnText} {D : Digest} {w : OpenDraw} {s : StoreState} {d : Disk}

end

end Asper
