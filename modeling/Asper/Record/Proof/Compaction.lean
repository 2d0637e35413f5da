import Asper.Lib.Crash
import Asper.Record.Compaction
import Asper.Record.Proof.Marker
import Asper.Record.Proof.Snapshot
import Asper.Source.Proof.Dirs

/-! # A compaction is all or nothing

Until the marker is there the files are as they were (`Before`); while it is there every file can be
put back (`Armed`); when it is gone again the files are new (`FilesStored`). -/

namespace Asper

open Durable

/-! ## Names of files -/

theorem temporaryFile_inj {p p' : Path} {u u' : Uuid} (hp : p ≠ []) (hp' : p' ≠ [])
    (h : temporaryFile p u = temporaryFile p' u') : p = p' ∧ u = u' := by
  have hlen : u.val.length = u'.val.length :=
    (uuidShape_length u.2).trans (uuidShape_length u'.2).symm
  unfold temporaryFile ext at h
  obtain ⟨hdir, hname⟩ := List.append_inj' h rfl
  have hname := List.singleton_inj.1 hname
  rw [← List.append_assoc, ← List.append_assoc] at hname
  obtain ⟨hfront, hu⟩ := List.append_inj' hname hlen
  obtain ⟨hlast, -⟩ := List.append_inj' hfront rfl
  refine ⟨?_, Subtype.ext hu⟩
  rw [← List.dropLast_append_getLast hp, ← List.dropLast_append_getLast hp', hdir]
  rw [List.getLastD_eq_getLast?, List.getLastD_eq_getLast?, List.getLast?_eq_some_getLast hp,
    List.getLast?_eq_some_getLast hp'] at hlast
  exact congrArg (_ ++ [·]) hlast

section
variable {rel rel' : Bytes}

/-- A file of the store as a row. -/
def bareRow (rel : Bytes) : CompactRow := ⟨rel, [], false⟩

theorem bareRow_valid (h : relativeValid rel = true) : relativeValid (bareRow rel).rel = true := h

theorem rel_place (h : relativeValid rel = true) : ∃ q n, RowPlace (bareRow rel) q n :=
  row_place (bareRow_valid h)

theorem resolve_ne_nil (h : relativeValid rel = true) : resolve rel ≠ [] := by
  obtain ⟨q, n, hp⟩ := rel_place h
  have htarget : resolve rel = q ++ [n] := hp.target
  rw [htarget]
  exact List.append_ne_nil_of_right_ne_nil _ (List.cons_ne_nil _ _)

theorem lastByte_rel (h : relativeValid rel = true) : lastByte (resolve rel) = some 110 :=
  lastByte_target (bareRow_valid h)

theorem lastByte_backupPath (h : relativeValid rel = true) :
    lastByte (backupPath (resolve rel)) = some 107 := lastByte_backup (bareRow_valid h)

theorem resolve_inj (h : relativeValid rel = true) (h' : relativeValid rel' = true)
    (he : resolve rel = resolve rel') : rel = rel' := by
  obtain ⟨q, n, hq, hp⟩ := relativeValid_placed h
  obtain ⟨q', n', hq', hp'⟩ := relativeValid_placed h'
  exact hp.inj hp' (hq.symm.trans (he.trans hq'))

theorem backupPath_inj (h : relativeValid rel = true) (h' : relativeValid rel' = true)
    (he : backupPath (resolve rel) = backupPath (resolve rel')) : rel = rel' := by
  obtain ⟨q, n, hp⟩ := rel_place h
  obtain ⟨q', n', hp'⟩ := rel_place h'
  have hb : q ++ [n ++ ascii ".compact.bak"] = q' ++ [n' ++ ascii ".compact.bak"] :=
    hp.backup.symm.trans (he.trans hp'.backup)
  obtain ⟨rfl, hn⟩ := List.append_inj' hb rfl
  obtain ⟨rfl, -⟩ := List.append_inj' (List.singleton_inj.1 hn) rfl
  exact resolve_inj h h' (hp.target.trans hp'.target.symm)

end

/-- The nodes a store depends on. -/
inductive StorePath : Path → Prop
  | marker : StorePath compactMarker
  | dir : StorePath projectsDir
  | file {rel : Bytes} (h : relativeValid rel = true) : StorePath (resolve rel)
  | backup {rel : Bytes} (h : relativeValid rel = true) : StorePath (backupPath (resolve rel))

theorem StorePath.lastByte {p : Path} (h : StorePath p) : ∃ b, lastByte p = some b ∧ 102 < b := by
  cases h with
  | marker => exact ⟨103, lastByte_marker, by decide⟩
  | dir => exact ⟨115, lastByte_projects, by decide⟩
  | file h => exact ⟨110, lastByte_rel h, by decide⟩
  | backup h => exact ⟨107, lastByte_backupPath h, by decide⟩

theorem StorePath.ne_temporary {p q : Path} {uuid : Uuid} (h : StorePath p) :
    p ≠ temporaryFile q uuid := by
  obtain ⟨b, hb, hlt⟩ := h.lastByte
  exact temporary_ne hb hlt

/-- The disks hold the same store. -/
def SameNodes (d d' : Disk) : Prop := ∀ p, StorePath p → d' p = d p

theorem SameNodes.set {p : Path} (h : ¬ StorePath p) (d : Disk) (x : Option Node) :
    SameNodes d (d.set p x) := fun _ hq => Disk.set_ne _ _ fun he => h (he ▸ hq)

theorem SameNodes.temporary (p : Path) (uuid : Uuid) (d : Disk) (x : Option Node) :
    SameNodes d (d.set (temporaryFile p uuid) x) :=
  .set (fun h => h.ne_temporary rfl) d x

/-! ## A file that is replaced -/

theorem disk_set_get (d : Disk) (p : Path) : d.set p (d p) = d := Function.update_eq_self p d

section
variable {F : FileFaults} {d : Disk} {p path : Path} {uuid : Uuid} {data : Bytes} {P : Disk → Prop}

theorem wp_osBlobCreate (hP : P d) (hset : ∀ x, P (d.set p x)) :
    Act.Wp P (osBlobCreate p data) (fun r d' =>
      (r = .ok () ∧ d.find p.dropLast = .found .dir ∧ d' = d.set p (some (.file data))) ∨
        (r = .error .io ∧ d' = d)) d := by
  by_cases hc : creatable d p = true
  · refine .of_run (osBlobCreate_run data d hc) (.single hP (fun k w' hk _ => ?_) (hset _)
      (.inl ⟨rfl, (of_decide_eq_true hc).2, rfl⟩))
    obtain rfl := Option.some.inj hk
    exact hset _
  · have hno : osBlobCreate p data d = ⟨[], .error .io⟩ := Act.bind_run_run (w := []) (a := false)
      (by rw [Act.look, Bool.eq_false_iff.2 hc]) rfl
    exact .of_quiet hno hP (.inr ⟨rfl, rfl⟩)

theorem syncParent_run (F : FileFaults) (p : Path) (d : Disk) : ∃ r,
    syncParent F p d = ⟨[], r⟩ ∧ (r = .ok () ∨ r = .error .io) := by
  unfold syncParent
  split
  · exact ⟨_, rfl, .inr rfl⟩
  · exact ⟨_, rfl, .inl rfl⟩

/-- A file is moved, or not; when it is the caller may be told it is not. -/
theorem wp_osFileReplaceIn {src : Path} {b : Bytes} (hf : d.find src = .found (.file b)) (hP : P d)
    (hnew : P ((d.set path (d src)).set src none)) :
    Act.Wp P (osFileReplaceIn F src path) (fun r d' =>
      (r = .ok () ∧ d' = (d.set path (d src)).set src none) ∨
        (r = .error .io ∧ (d' = d ∨ d' = (d.set path (d src)).set src none))) d := by
  unfold osFileReplaceIn
  refine .ite (fun _ => .fail hP (.inr ⟨rfl, .inl rfl⟩)) fun _ => ?_
  have hmove := osFileReplace_file (p := path) hf
  cases hw : writable d path with
  | false =>
    rw [withWritable_false hw] at hmove
    exact .of_quiet (Act.bind_run_error hmove) hP (.inr ⟨rfl, .inl rfl⟩)
  | true =>
    rw [withWritable_true hw] at hmove
    obtain ⟨r, hsync, hr⟩ := syncParent_run F path ((d.set path (d src)).set src none)
    refine .of_run (Act.bind_run_run hmove hsync) (.whole (fun _ => rfl) hP hnew ?_)
    rcases hr with rfl | rfl
    · exact .inl ⟨rfl, rfl⟩
    · exact .inr ⟨rfl, .inr rfl⟩

/-- Removing a file names no other node. -/
theorem osRemoveFile_writes (p : Path) (d : Disk) :
    (osRemoveFile p).writes d = [] ∨ (osRemoveFile p).writes d = [.remove p] := by
  unfold osRemoveFile
  rw [Act.writes_look_bind]
  split
  · exact .inl rfl
  · exact .inr rfl
  · exact .inl rfl

theorem keeps_osRemoveFile {Bad : Write → Write → Prop} {I : Disk → Prop} (h : Act.Stable I p) :
    Act.Keeps Bad I (osRemoveFile p) fun _ => True where
  steps d hd := by
    rcases osRemoveFile_writes p d with hw | hw <;> rw [hw]
    · exact .nil hd hd
    · exact .whole (fun _ => rfl) hd (h _ _ hd) (h _ _ hd)
  value _ _ _ _ := trivial

theorem keeps_syncParent {Bad : Write → Write → Prop} {I : Disk → Prop} :
    Act.Keeps Bad I (syncParent F p) fun _ => True :=
  .ite (fun _ => .fail _) fun _ => .pure trivial

theorem keeps_osRemoveFileIn {Bad : Write → Write → Prop} {I : Disk → Prop} (h : Act.Stable I p) :
    Act.Keeps Bad I (osRemoveFileIn F p) fun _ => True :=
  .ite (fun _ => .fail _) fun _ => (keeps_osRemoveFile h).bind fun _ _ => keeps_syncParent

theorem keeps_ignore {Bad : Write → Write → Prop} {I : Disk → Prop} {m : Io Unit}
    {R : Unit → Prop} (h : Act.Keeps Bad I m R) : Act.Keeps Bad I (ignore m) fun _ => True :=
  h.attempt.bind fun _ _ => .pure trivial

theorem wp_ignore {I : Disk → Prop} {m : Io Unit} {R : Unit → Prop}
    (h : Act.Keeps (fun _ _ => False) I m R) (hd : I d) :
    Act.Wp I (ignore m) (fun r d' => r = .ok () ∧ I d') d :=
  (h.wp hd).bind_attempt fun _ _ h => .pure h.1 ⟨rfl, h.1⟩

/-- The disks that differ from `d` at `p` only. -/
def SetAt (d : Disk) (p : Path) (d' : Disk) : Prop := ∃ x, d' = d.set p x

theorem SetAt.stable (d : Disk) (p : Path) : Act.Stable (SetAt d p) p := by
  rintro _ y ⟨x, rfl⟩
  exact ⟨y, Disk.set_set ..⟩

/-- Taking a temporary file away, as far as that succeeds. -/
theorem wp_ignore_remove {d' : Disk} (hd : SetAt d p d') (hP : ∀ x, P (d.set p x)) :
    Act.Wp P (ignore (osRemoveFileIn F p)) (fun r d' => r = .ok () ∧ SetAt d p d') d' := by
  refine (wp_ignore (keeps_osRemoveFileIn (SetAt.stable d p)) hd).weaken ?_ fun _ _ h => h
  rintro _ ⟨x, rfl⟩
  exact hP x

/-- **A file is replaced** by the new one or not at all; its temporary file may stay. -/
theorem wp_installFile {Q : Except Err Unit → Disk → Prop} (hne : path ≠ temporaryFile path uuid)
    (htmp : ∀ x, P (d.set (temporaryFile path uuid) x))
    (hnew : ∀ x, P ((d.set path (some (.file data))).set (temporaryFile path uuid) x))
    (hno : ∀ x, Q (.error .io) (d.set (temporaryFile path uuid) x))
    (hsync : ∀ x, Q (.error .io) ((d.set path (some (.file data))).set (temporaryFile path uuid) x))
    (hok : Q (.ok ()) ((d.set path (some (.file data))).set (temporaryFile path uuid) none)) :
    Act.Wp P (installFile F path uuid data) Q d := by
  generalize ht : temporaryFile path uuid = t at *
  have hP : P d := disk_set_get d t ▸ htmp (d t)
  have hQ : Q (.error .io) d := disk_set_get d t ▸ hno (d t)
  have hlast : ∃ q n, t = q ++ [n] := ⟨_, _, ht.symm⟩
  unfold installFile
  rw [ht]
  generalize hdata : F.landed path data = data'
  refine (wp_osBlobCreate hP htmp).bind ?_ ?_
  swap
  · rintro e d' (⟨h, -⟩ | ⟨h, rfl⟩)
    · cases h
    · obtain rfl := Except.error.inj h
      exact hQ
  rintro a d' (⟨-, hdir, rfl⟩ | ⟨h, -⟩)
  swap
  · cases h
  have hfound : (d.set t (some (.file data'))).find t = .found (.file data') := by
    obtain ⟨q, n, rfl⟩ := hlast
    rw [List.dropLast_concat] at hdir
    exact Disk.find_child_some (by rw [Disk.find_set_child, hdir]) (Disk.set_self ..)
  -- the disk with the file moved, where the whole of it was written
  have hmoved : F.write path = none → ((d.set t (some (.file data'))).set path
      ((d.set t (some (.file data'))) t)).set t none =
        (d.set path (some (.file data))).set t none := by
    intro hw
    rw [FileFaults.landed, hw] at hdata
    rw [Disk.set_self, Disk.set_comm _ _ _ hne.symm, Disk.set_set, ← hdata]
  have hinner : Act.Wp P (do
      require ((F.write path).isNone = true) .io
      osFileReplaceIn F t path : Io Unit) (fun r d' =>
        (r = .ok () ∧ d' = (d.set path (some (.file data))).set t none) ∨
          (r = .error .io ∧ (SetAt d t d' ∨ SetAt (d.set path (some (.file data))) t d')))
        (d.set t (some (.file data'))) := by
    cases hw : F.write path with
    | some k => exact .of_quiet (require_bind_fail (by simp)) (htmp _) (.inr ⟨rfl, .inl ⟨_, rfl⟩⟩)
    | none =>
      have hmove : Act.Wp P (osFileReplaceIn F t path) _ _ :=
        wp_osFileReplaceIn hfound (htmp _) (hmoved hw ▸ hnew none)
      rw [hmoved hw] at hmove
      refine .congr (require_bind rfl) (hmove.weaken (fun _ h => h) ?_)
      rintro r d' (h | ⟨hr, rfl | rfl⟩)
      · exact .inl h
      · exact .inr ⟨hr, .inl ⟨_, rfl⟩⟩
      · exact .inr ⟨hr, .inr ⟨_, rfl⟩⟩
  refine hinner.bind_attempt fun r d' hr => ?_
  cases r with
  | ok a =>
    rcases hr with ⟨-, rfl⟩ | ⟨h, -⟩
    · exact .pure (hnew none) hok
    · cases h
  | error e =>
    rcases hr with ⟨h, -⟩ | ⟨he, hd | hd⟩
    · cases h
    all_goals obtain rfl := Except.error.inj he
    · refine (wp_ignore_remove hd htmp).bind (fun _ d' h => ?_) fun _ _ h => nomatch h.1
      obtain ⟨-, x, rfl⟩ := h
      exact .fail (htmp x) (hno x)
    · refine (wp_ignore_remove hd hnew).bind (fun _ d' h => ?_) fun _ _ h => nomatch h.1
      obtain ⟨-, x, rfl⟩ := h
      exact .fail (hnew x) (hsync x)

end

/-! ## Before the marker -/

/-- The files are those of `d₀`. -/
def SameFiles (d₀ d : Disk) : Prop :=
  ∀ rel, relativeValid rel = true → d (resolve rel) = d₀ (resolve rel)

/-- No transaction is under way, and the files are those of `d₀`. -/
structure FilesIntact (d₀ d : Disk) : Prop where
  marker : d compactMarker = none
  dir : d projectsDir = some .dir
  files : SameFiles d₀ d

/-- The names a recovery gives its copies are free. -/
def NamesFree (uuids : Bytes → Uuid) (d : Disk) : Prop :=
  ∀ rel, relativeValid rel = true → d (temporaryFile (resolve rel) (uuids rel)) = none

/-- As `FilesIntact`, with the names of a rollback free. -/
structure Before (w : CompactNames) (d₀ d : Disk) : Prop extends FilesIntact d₀ d where
  free : NamesFree w.back d

/-- The names of a rollback are other names than those of the copies. -/
def CompactNames.Distinct (w : CompactNames) : Prop := ∀ rel, w.back rel ≠ w.tmp (resolve rel)

section
variable {w : CompactNames} {D : Digest} {F : FileFaults} {d₀ d : Disk} {rel : Bytes} {p : Path}

/-- A path that is no part of the store's files. -/
structure Aside (w : CompactNames) (p : Path) : Prop where
  marker : p ≠ compactMarker
  dir : p ≠ projectsDir
  file : ∀ rel, relativeValid rel = true → p ≠ resolve rel
  back : ∀ rel, relativeValid rel = true → p ≠ temporaryFile (resolve rel) (w.back rel)

theorem Aside.temporary (hw : w.Distinct) (hp : p ≠ []) : Aside w (temporaryFile p (w.tmp p)) where
  marker := (temporary_ne lastByte_marker (by decide)).symm
  dir := (temporary_ne lastByte_projects (by decide)).symm
  file rel h := (temporary_ne (lastByte_rel h) (by decide)).symm
  back rel h he := by
    obtain ⟨rfl, hu⟩ := temporaryFile_inj hp (resolve_ne_nil h) he
    exact hw rel hu.symm

theorem Aside.backup (h : relativeValid rel = true) : Aside w (backupPath (resolve rel)) where
  marker := path_ne (lastByte_backupPath h) lastByte_marker (by decide)
  dir := path_ne (lastByte_backupPath h) lastByte_projects (by decide)
  file rel' h' := path_ne (lastByte_backupPath h) (lastByte_rel h') (by decide)
  back rel' h' := temporary_ne (lastByte_backupPath h) (by decide)

theorem Before.aside (ha : Aside w p) : Act.Stable (Before w d₀) p := fun d x h =>
  { marker := by rw [Disk.set_ne _ _ ha.marker.symm, h.marker]
    dir := by rw [Disk.set_ne _ _ ha.dir.symm, h.dir]
    files := fun rel hrel => by rw [Disk.set_ne _ _ (ha.file rel hrel).symm, h.files rel hrel]
    free := fun rel hrel => by rw [Disk.set_ne _ _ (ha.back rel hrel).symm, h.free rel hrel] }

/-- The backup of a row is good, and holds what the file was. -/
structure BackedUp (D : Digest) (d₀ d : Disk) (row : CompactRow) : Prop where
  ok : row.Ok
  good : row.existed = true → BackupGood D d row
  saved : savedNode d row = d₀ row.target

theorem BackedUp.congr {d' : Disk} {row : CompactRow} (h : BackedUp D d₀ d row)
    (hsame : d' row.backup = d row.backup) : BackedUp D d₀ d' row := by
  refine ⟨h.ok, fun hex => ?_, ?_⟩
  · obtain ⟨b, hb, hrest⟩ := h.good hex
    exact ⟨b, hsame.trans hb, hrest⟩
  · rw [← h.saved, savedNode, savedNode, hsame]

theorem BackedUp.stable {row : CompactRow} (hne : p ≠ row.backup) :
    Act.Stable (fun d => BackedUp D d₀ d row) p := fun _ _ h => h.congr (Disk.set_ne _ _ hne.symm)

/-- What was saved is no directory. -/
theorem BackedUp.not_dir {row : CompactRow} (h : BackedUp D d₀ d row) :
    d₀ row.target ≠ some .dir := by
  rw [← h.saved, savedNode]
  split
  · next hex =>
    obtain ⟨b, hb, -⟩ := h.good hex
    rw [hb]
    simp
  · simp

theorem hexDigest_lower (D : Digest) (s : Bytes) : ∀ b ∈ hexDigest D s, isLowerHex b = true := by
  intro b hb
  obtain ⟨c, -, hc⟩ := List.mem_flatMap.1 hb
  rcases List.mem_cons.1 hc with rfl | hc
  · exact isLowerHex_hexDigit (shiftRight_lt c)
  · rw [List.mem_singleton.1 hc]
    exact isLowerHex_hexDigit (and_lt c)

/-- What a step of the backing up keeps. -/
structure BackingUp (w : CompactNames) (D : Digest) (d₀ d : Disk) (rels : List Bytes) (d' : Disk) :
    Prop where
  before : Before w d₀ d'
  stays : ∀ row, row.rel ∉ rels → BackedUp D d₀ d row → BackedUp D d₀ d' row

theorem BackingUp.temporary (hw : w.Distinct) (hp : p ≠ []) {rels : List Bytes} :
    Act.Stable (BackingUp w D d₀ d rels) (temporaryFile p (w.tmp p)) := fun d' x h =>
  ⟨Before.aside (Aside.temporary hw hp) d' x h.before, fun row hr hb => by
    have hne : row.backup ≠ temporaryFile p (w.tmp p) :=
      temporary_ne (lastByte_backup hb.ok.valid) (by decide)
    exact BackedUp.stable hne.symm d' x (h.stays row hr hb)⟩

theorem BackingUp.backup (hrel : relativeValid rel = true) {rels : List Bytes} (hm : rel ∈ rels) :
    Act.Stable (BackingUp w D d₀ d rels) (backupPath (resolve rel)) := fun d' x h =>
  ⟨Before.aside (Aside.backup hrel) d' x h.before, fun row hr hb => by
    refine BackedUp.stable (fun he => hr ?_) d' x (h.stays row hr hb)
    exact (backupPath_inj hrel hb.ok.valid he) ▸ hm⟩

/-- What copying a file to its backup ends in. -/
structure BackupEnd (w : CompactNames) (D : Digest) (d₀ d : Disk) (rel : Bytes)
    (r : Except Err Bytes) (d' : Disk) : Prop where
  kept : BackingUp w D d₀ d [rel] d'
  missing : r = .error .notFound → d (resolve rel) = none
  copied : ∀ hash, r = .ok hash → ∃ b, d (resolve rel) = some (.file b) ∧
    b.length ≤ storeFileMax ∧ hash = hexDigest D b ∧ d' (backupPath (resolve rel)) = some (.file b)

theorem BackupEnd.failed {d' : Disk} {e : Err} (hk : BackingUp w D d₀ d [rel] d')
    (hm : e = .notFound → d (resolve rel) = none) : BackupEnd w D d₀ d rel (.error e) d' where
  kept := hk
  missing hr := hm (Except.error.inj hr)
  copied hash hr := absurd hr (by simp)

theorem wp_storeFileBackup (hw : w.Distinct) (hrel : relativeValid rel = true) (h : Before w d₀ d) :
    Act.Wp (Before w d₀) (storeFileBackup F D (resolve rel) (backupPath (resolve rel))
      (w.tmp (backupPath (resolve rel)))) (BackupEnd w D d₀ d rel) d := by
  have hstart : BackingUp w D d₀ d [rel] d := ⟨h, fun _ _ hb => hb⟩
  obtain ⟨q, n, hp⟩ := rel_place hrel
  have htarget : resolve rel = q ++ [n] := hp.target
  have hblob := blob_child n (hp.dir d h.dir)
  rw [← htarget] at hblob
  have hfail : ∀ {e : Err}, blob d (resolve rel) = .error e →
      (e = .notFound → d (resolve rel) = none) → Act.Wp (Before w d₀) (storeFileBackup F D
        (resolve rel) (backupPath (resolve rel)) (w.tmp (backupPath (resolve rel))))
        (BackupEnd w D d₀ d rel) d := fun he hnone =>
    .of_quiet (Act.bind_run_error (by rw [osBlobOpen, Act.read, he])) h (.failed hstart hnone)
  cases hx : d (resolve rel) with
  | none =>
    rw [hx] at hblob
    exact hfail hblob fun _ => hx
  | some x =>
    cases x with
    | dir =>
      rw [hx] at hblob
      exact hfail hblob fun he => absurd he (by simp)
    | file b =>
      rw [hx] at hblob
      unfold storeFileBackup
      refine .after (a := b) (by rw [osBlobOpen, Act.read, hblob]) ?_
      by_cases hlen : b.length ≤ storeFileMax
      swap
      · exact .of_quiet (require_bind_fail hlen) h (.failed hstart fun he => absurd he (by simp))
      refine .congr (require_bind hlen) ?_
      generalize hdst : backupPath (resolve rel) = dst
      have hlast : lastByte dst = some 107 := hdst ▸ lastByte_backupPath hrel
      have hne : dst ≠ [] := fun he => by rw [he] at hlast; cases hlast
      have ht : Act.Stable (BackingUp w D d₀ d [rel]) (temporaryFile dst (w.tmp dst)) :=
        BackingUp.temporary hw hne
      have hb : Act.Stable (BackingUp w D d₀ d [rel]) dst :=
        hdst ▸ BackingUp.backup hrel (List.mem_singleton_self rel)
      have hdiff : dst ≠ temporaryFile dst (w.tmp dst) := temporary_ne hlast (by decide)
      have hio : ∀ d', BackingUp w D d₀ d [rel] d' → BackingUp w D d₀ d [rel] d' ∧
          (Except.error .io : Except Err Unit) ≠ .error .notFound ∧
            ((Except.error .io : Except Err Unit) = .ok () → d' dst = some (.file b)) := fun d' hk =>
        ⟨hk, by simp, fun he => absurd he (by simp)⟩
      refine (wp_installFile (Q := fun r d' => BackingUp w D d₀ d [rel] d' ∧ r ≠ .error .notFound ∧
        (r = .ok () → d' dst = some (.file b))) hdiff (fun x => (ht _ x hstart).before)
        (fun x => (ht _ x (hb _ _ hstart)).before) (fun x => hio _ (ht _ x hstart))
        (fun x => hio _ (ht _ x (hb _ _ hstart)))
        ⟨ht _ none (hb _ _ hstart), by simp, fun _ => ?_⟩).bind ?_ ?_
      · rw [Disk.set_ne _ _ hdiff, Disk.set_self]
      · intro _ d' hd
        obtain ⟨hk, -, hcopy⟩ := hd
        refine .pure hk.before ⟨hk, fun he => absurd he (by simp), fun hash hhash => ?_⟩
        exact ⟨b, hx, hlen, (Except.ok.inj hhash).symm, hdst ▸ hcopy rfl⟩
      · intro e d' hd
        obtain ⟨hk, hfound, -⟩ := hd
        exact .failed hk fun he => absurd (congrArg Except.error he) hfound

/-- **A file is backed up**, or none is there; or the copy fails. -/
theorem wp_backupRow (hw : w.Distinct) (hrel : relativeValid rel = true) (h : Before w d₀ d) :
    Act.Wp (Before w d₀) (backupRow F D w rel) (fun r d' => BackingUp w D d₀ d [rel] d' ∧
      ∀ row, r = .ok row → row.rel = rel ∧ BackedUp D d₀ d' row) d := by
  have hsame := h.files rel hrel
  refine (wp_storeFileBackup hw hrel h).bind_attempt fun r d' hr => ?_
  cases r with
  | ok hash =>
    obtain ⟨b, hb, hlen, rfl, hcopy⟩ := hr.copied hash rfl
    refine .pure hr.kept.before ⟨hr.kept, fun row hrow => ?_⟩
    obtain rfl := Except.ok.inj hrow
    refine ⟨rfl, ⟨hrel, fun _ => ⟨length_hexDigest D b, hexDigest_lower D b⟩, nofun⟩,
      fun _ => ⟨b, hcopy, hlen, rfl⟩, ?_⟩
    exact hcopy.trans (hb.symm.trans hsame)
  | error e =>
    by_cases he : e = .notFound
    · subst he
      refine .pure hr.kept.before ⟨hr.kept, fun row hrow => ?_⟩
      obtain rfl := Except.ok.inj hrow
      exact ⟨rfl, ⟨hrel, nofun, fun _ => rfl⟩, nofun, (hsame.symm.trans (hr.missing rfl)).symm⟩
    · have hfail : Act.Wp (Before w d₀) (Act.fail e : Io CompactRow) (fun r d' =>
          BackingUp w D d₀ d [rel] d' ∧ ∀ row, r = .ok row → row.rel = rel ∧ BackedUp D d₀ d' row)
          d' := .fail hr.kept.before ⟨hr.kept, nofun⟩
      cases e <;> first | exact absurd rfl he | exact hfail

/-- **All files are backed up**, or a copy fails. -/
theorem wp_backupRows (hw : w.Distinct) {rels : List Bytes}
    (hrels : ∀ rel ∈ rels, relativeValid rel = true) (hnodup : rels.Nodup) (h : Before w d₀ d) :
    Act.Wp (Before w d₀) (backupRows F D w rels) (fun r d' => BackingUp w D d₀ d rels d' ∧
      ∀ rows, r = .ok rows → rows.map (·.rel) = rels ∧ ∀ row ∈ rows, BackedUp D d₀ d' row) d := by
  induction rels generalizing d with
  | nil =>
    refine .pure h ⟨⟨h, fun _ _ hb => hb⟩, fun rows hrows => ?_⟩
    obtain rfl := Except.ok.inj hrows
    exact ⟨rfl, nofun⟩
  | cons rel rels ih =>
    have hrest := fun x hx => hrels x (List.mem_cons_of_mem _ hx)
    obtain ⟨hnew, hnodup⟩ := List.nodup_cons.1 hnodup
    refine (wp_backupRow hw (hrels rel List.mem_cons_self) h).bind ?_ ?_
    · rintro row d' ⟨hk, hrow⟩
      obtain ⟨hrel, hsaved⟩ := hrow row rfl
      refine (ih hrest hnodup hk.before).bind ?_ ?_
      · rintro rows d'' ⟨hk', hrows⟩
        obtain ⟨hmap, hall⟩ := hrows rows rfl
        refine .pure hk'.before ⟨⟨hk'.before, fun x hx hb => ?_⟩, fun rs hrs => ?_⟩
        · rw [List.mem_cons, not_or] at hx
          exact hk'.stays x hx.2 (hk.stays x (by simpa using hx.1) hb)
        · obtain rfl := Except.ok.inj hrs
          refine ⟨by rw [List.map_cons, hrel, hmap], fun x hx => ?_⟩
          rcases List.mem_cons.1 hx with rfl | hx
          · exact hk'.stays x (hrel ▸ hnew) hsaved
          · exact hall x hx
      · rintro e d'' ⟨hk', -⟩
        refine ⟨⟨hk'.before, fun x hx hb => ?_⟩, nofun⟩
        rw [List.mem_cons, not_or] at hx
        exact hk'.stays x hx.2 (hk.stays x (by simpa using hx.1) hb)
    · rintro e d' ⟨hk, -⟩
      refine ⟨⟨hk.before, fun x hx hb => ?_⟩, nofun⟩
      rw [List.mem_cons, not_or] at hx
      exact hk.stays x (by simpa using hx.1) hb

end

/-! ## While the marker is there -/

/-- Every file of `rows` can be put back, and the others are those of `d₀`. -/
structure Armed (D : Digest) (rows : List CompactRow) (d₀ d : Disk) : Prop where
  listed : (markerRows D).result d = .ok rows
  dir : d projectsDir = some .dir
  saved : ∀ row ∈ rows, BackedUp D d₀ d row
  file : ∀ row ∈ rows, d row.target ≠ some .dir
  others : ∀ rel, relativeValid rel = true → rel ∉ rows.map (·.rel) →
    d (resolve rel) = d₀ (resolve rel)

section
variable {D : Digest} {rows : List CompactRow} {d₀ d : Disk} {rel : Bytes} {p : Path}

theorem markerRows_congr {d' : Disk} (h : d' compactMarker = d compactMarker) :
    (markerRows D).result d' = (markerRows D).result d := by
  rw [markerRows_result, markerRows_result, blob_marker, blob_marker, h]

theorem Armed.congr {d' : Disk} (h : Armed D rows d₀ d) (hs : SameNodes d d') :
    Armed D rows d₀ d' where
  listed := (markerRows_congr (hs _ .marker)).trans h.listed
  dir := (hs _ .dir).trans h.dir
  saved row hr := (h.saved row hr).congr (hs _ (.backup (h.saved row hr).ok.valid))
  file row hr := by
    have hsame : d' row.target = d row.target := hs _ (.file (h.saved row hr).ok.valid)
    rw [hsame]
    exact h.file row hr
  others rel hv hrel := (hs _ (.file hv)).trans (h.others rel hv hrel)

theorem Armed.temporary (uuid : Uuid) : Act.Stable (Armed D rows d₀) (temporaryFile p uuid) :=
  fun d x h => h.congr (.temporary p uuid d x)

/-- A file of the transaction may be replaced. -/
theorem Armed.put (h : Armed D rows d₀ d) (hrel : rel ∈ rows.map (·.rel)) (data : Bytes) :
    Armed D rows d₀ (d.set (resolve rel) (some (.file data))) := by
  obtain ⟨row₀, hr₀, rfl⟩ := List.mem_map.1 hrel
  have hv := (h.saved row₀ hr₀).ok.valid
  have hlast : lastByte (resolve row₀.rel) = some 110 := lastByte_rel hv
  refine ⟨?_, ?_, fun row hr => ?_, fun row hr => ?_, fun rel hv' hrel' => ?_⟩
  · rw [markerRows_congr (Disk.set_ne _ _ (path_ne lastByte_marker hlast (by decide))), h.listed]
  · rw [Disk.set_ne _ _ (path_ne lastByte_projects hlast (by decide)), h.dir]
  · have hback := lastByte_backup (h.saved row hr).ok.valid
    exact BackedUp.stable (path_ne hlast hback (by decide)) d _ (h.saved row hr)
  · by_cases he : row.target = resolve row₀.rel
    · rw [he, Disk.set_self]
      simp
    · rw [Disk.set_ne _ _ he]
      exact h.file row hr
  · have hne : resolve rel ≠ resolve row₀.rel := fun he => hrel' (resolve_inj hv' hv he ▸ hrel)
    rw [Disk.set_ne _ _ hne, h.others rel hv' hrel']

theorem Armed.marker_file (h : Armed D rows d₀ d) : ∃ b, d compactMarker = some (.file b) := by
  have hlisted := h.listed
  rw [markerRows_result, blob_marker] at hlisted
  cases hm : d compactMarker with
  | none => rw [hm] at hlisted; cases hlisted
  | some x =>
    cases x with
    | dir => rw [hm] at hlisted; cases hlisted
    | file b => exact ⟨b, rfl⟩

/-! ## Undoing a transaction -/

section
variable {Bad : Write → Write → Prop} {I : Disk → Prop} {uuids : Bytes → Uuid}

theorem keeps_osBlobCreate {data : Bytes} (h : Act.Stable I p) :
    Act.Keeps Bad I (osBlobCreate p data) fun _ => True := by
  have hemit : Act.Keeps Bad I (Act.emit (.create p data) : Io Unit) fun _ => True :=
    .emit fun q hq => List.mem_singleton.1 hq ▸ h
  exact (Act.silent_look _).keeps.bind fun _ _ => .ite (fun _ => hemit) fun _ => .fail _

theorem keeps_osFileReplace {src : Path} (hs : Act.Stable I src) (hp : Act.Stable I p) :
    Act.Keeps Bad I (osFileReplace src p) fun _ => True := by
  have hemit : Act.Keeps Bad I (Act.emit (.rename src p) : Io Unit) fun _ => True := by
    refine .emit fun q hq => ?_
    simp only [Write.paths, List.mem_cons, List.not_mem_nil, or_false] at hq
    rcases hq with rfl | rfl
    · exact hs
    · exact hp
  have hmove : Act.Keeps Bad I (withWritable p (.rename src p)) fun _ => True :=
    (Act.silent_look _).keeps.bind fun _ _ => .ite (fun _ => hemit) fun _ => .fail _
  refine (Act.silent_look _).keeps.bind fun x _ => ?_
  cases x with
  | absent => exact .fail _
  | blocked => exact .fail _
  | found n =>
    cases n with
    | dir => exact .fail _
    | file b => exact hmove

theorem keeps_storeFileCopy {src : Path} {hash : Bytes} {uuid : Uuid}
    (ht : Act.Stable I (temporaryFile p uuid)) (hp : Act.Stable I p) :
    Act.Keeps Bad I (storeFileCopy D src p hash uuid) fun _ => True := by
  refine (keeps_osBlobOpen src).bind fun data _ => (keeps_require _).bind fun _ _ =>
    (keeps_osBlobCreate ht).bind fun _ _ => ?_
  have hinner : Act.Keeps Bad I (do
      require (hexDigest D data = hash) .parse
      osFileReplace (temporaryFile p uuid) p : Io Unit) fun _ => True :=
    (keeps_require _).bind fun _ _ => keeps_osFileReplace ht hp
  refine hinner.attempt.bind fun r _ => ?_
  cases r with
  | ok a => exact .pure trivial
  | error e => exact (keeps_ignore (keeps_osRemoveFile ht)).bind fun _ _ => .fail _

theorem keeps_restoreApply {row : CompactRow}
    (ht : Act.Stable I (temporaryFile row.target (uuids row.rel)))
    (hp : Act.Stable I row.target) :
    Act.Keeps Bad I (restoreApply D uuids row) fun _ => True := by
  refine .ite (fun _ => keeps_storeFileCopy ht hp) fun _ => ?_
  refine (keeps_osRemoveFile hp).attempt.bind fun r _ => ?_
  cases r with
  | ok a => exact .pure trivial
  | error e => exact .ite (fun _ => .pure trivial) fun _ => .fail _

theorem keeps_eachRow {f : CompactRow → Io Unit} : ∀ {l : List CompactRow},
    (∀ row ∈ l, Act.Keeps Bad I (f row) fun _ => True) →
    Act.Keeps Bad I (eachRow f l) fun _ => True
  | [], _ => .pure trivial
  | row :: _, h => (h row List.mem_cons_self).bind fun _ _ =>
    keeps_eachRow fun r hr => h r (List.mem_cons_of_mem _ hr)

theorem keeps_restoreCheck (row : CompactRow) :
    Act.Keeps Bad I (restoreCheck D row) fun _ => True :=
  .silent (restoreCheck_writes D row) fun _ _ _ _ => trivial

/-- Undoing a transaction keeps what depends on none of its files. -/
theorem keeps_compactRestore (hm : Act.Stable I compactMarker)
    (h : ∀ row ∈ rows, Act.Stable I row.target ∧ Act.Stable I row.backup ∧
      Act.Stable I (temporaryFile row.target (uuids row.rel))) :
    Act.Keeps Bad I (compactRestore D uuids rows) fun _ => True :=
  (keeps_eachRow fun row _ => keeps_restoreCheck row).bind fun _ _ =>
    (keeps_eachRow fun row hr => keeps_restoreApply (h row hr).2.2 (h row hr).1).bind fun _ _ =>
      (keeps_osRemoveFile hm).bind fun _ _ =>
        keeps_eachRow fun row hr => keeps_ignore (keeps_osRemoveFile (h row hr).2.1)

end

/-- What undoing a transaction of `rows` does not touch. -/
structure Untouched (rows : List CompactRow) (d₀ d : Disk) : Prop where
  dir : d projectsDir = some .dir
  others : ∀ rel, relativeValid rel = true → rel ∉ rows.map (·.rel) →
    d (resolve rel) = d₀ (resolve rel)

theorem Untouched.stable (hdir : p ≠ projectsDir)
    (hfile : ∀ rel, relativeValid rel = true → rel ∉ rows.map (·.rel) → p ≠ resolve rel) :
    Act.Stable (Untouched rows d₀) p := fun d x h =>
  { dir := by rw [Disk.set_ne _ _ hdir.symm, h.dir]
    others := fun rel hv hrel => by
      rw [Disk.set_ne _ _ (hfile rel hv hrel).symm, h.others rel hv hrel] }

theorem keeps_untouched {Bad : Write → Write → Prop} {uuids : Bytes → Uuid}
    (hv : ∀ row ∈ rows, relativeValid row.rel = true) :
    Act.Keeps Bad (Untouched rows d₀) (compactRestore D uuids rows) fun _ => True := by
  refine keeps_compactRestore ?_ fun row hr => ⟨?_, ?_, ?_⟩
  · refine .stable (path_ne lastByte_marker lastByte_projects (by decide)) fun rel hrel _ => ?_
    exact path_ne lastByte_marker (lastByte_rel hrel) (by decide)
  · have hlast := lastByte_target (hv row hr)
    refine .stable (path_ne hlast lastByte_projects (by decide)) fun rel hrel hno he => hno ?_
    exact resolve_inj (hv row hr) hrel he ▸ List.mem_map_of_mem hr
  · have hlast := lastByte_backup (hv row hr)
    refine .stable (path_ne hlast lastByte_projects (by decide)) fun rel hrel _ => ?_
    exact path_ne hlast (lastByte_rel hrel) (by decide)
  · refine .stable (temporary_ne lastByte_projects (by decide)).symm fun rel hrel _ => ?_
    exact (temporary_ne (lastByte_rel hrel) (by decide)).symm

/-- **A transaction is undone**, and can be as long as it is not. -/
theorem Armed.recover (h : Armed D rows d₀ d) {uuids : Bytes → Uuid} (hfree : NamesFree uuids d) :
    Act.Wp (fun d' => Armed D rows d₀ d' ∨ FilesIntact d₀ d') (compactRecover D uuids)
      (fun r d' => r = .ok () ∧ FilesIntact d₀ d') d := by
  have hu : Undoable D rows d :=
    ⟨markerRows_listed h.listed, h.dir, fun row hr => (h.saved row hr).good, h.file⟩
  have hrows : Free rows uuids d := fun row hr _ => hfree row.rel (hu.listed.valid row hr)
  obtain ⟨ws, hrun, hs⟩ := compactRecover_steps hu h.listed (Undo.start rows d) hrows
  have hframe : Act.Wp (Untouched rows d₀) (compactRecover D uuids)
      (fun _ d' => Untouched rows d₀ d') d := by
    refine .congr (compactRecover_rows uuids h.listed) ?_
    exact ((keeps_untouched hu.listed.valid).wp ⟨h.dir, h.others⟩).weaken (fun _ h => h)
      fun _ _ h => h.1
  have harmed : ∀ d', Undo rows d d' → Untouched rows d₀ d' → Armed D rows d₀ d' :=
    fun d' hd hf => ⟨(markerRows_congr hd.marker).trans h.listed, hf.dir,
      fun row hr => (h.saved row hr).congr (hd.backup row hr), fun row hr => hu.not_dir hd hr,
      hf.others⟩
  have hintact : ∀ d', Undone rows d d' → Untouched rows d₀ d' → FilesIntact d₀ d' := by
    intro d' hd hf
    refine ⟨hd.marker, hf.dir, fun rel hrel => ?_⟩
    by_cases hm : rel ∈ rows.map (·.rel)
    · obtain ⟨row, hr, rfl⟩ := List.mem_map.1 hm
      exact (hd.target row hr).trans (h.saved row hr).saved
    · exact hf.others rel hrel hm
  have hboth := (Act.Wp.of_run (Q := fun r d' => r = .ok () ∧ Undone rows d d') hrun
    (hs.weaken (fun _ h => h) fun _ h => ⟨rfl, h⟩)).and hframe
  refine hboth.weaken ?_ fun r d' hd => ⟨hd.1.1, hintact d' hd.1.2 hd.2⟩
  rintro d' ⟨hd | hd, hf⟩
  · exact .inl (harmed d' hd hf)
  · exact .inr (hintact d' hd hf)

end

/-! ## Writing the marker -/

/-- As `Armed`, with the names of a rollback free. -/
structure ArmedFree (w : CompactNames) (D : Digest) (rows : List CompactRow) (d₀ d : Disk) : Prop
    extends Armed D rows d₀ d where
  free : NamesFree w.back d

/-- The marker of the files `rels` is there, and none is replaced yet. -/
def Begun (w : CompactNames) (D : Digest) (rels : List Bytes) (d₀ d : Disk) : Prop :=
  ∃ rows, rows.map (·.rel) = rels ∧ ArmedFree w D rows d₀ d ∧ SameFiles d₀ d

section
variable {w : CompactNames} {F : FileFaults} {D : Digest} {rows : List CompactRow}
  {rels : List Bytes} {d₀ d : Disk} {rel : Bytes} {p : Path}

theorem NamesFree.stable {uuids : Bytes → Uuid}
    (h : ∀ rel, relativeValid rel = true → p ≠ temporaryFile (resolve rel) (uuids rel)) :
    Act.Stable (NamesFree uuids) p := fun _ _ hd rel hrel => by
  rw [Disk.set_ne _ _ (h rel hrel).symm, hd rel hrel]

theorem SameFiles.stable (h : ∀ rel, relativeValid rel = true → p ≠ resolve rel) :
    Act.Stable (SameFiles d₀) p := fun _ _ hd rel hrel => by
  rw [Disk.set_ne _ _ (h rel hrel).symm, hd rel hrel]

theorem ArmedFree.temporary (hw : w.Distinct) (hp : p ≠ []) :
    Act.Stable (ArmedFree w D rows d₀) (temporaryFile p (w.tmp p)) := fun d x h =>
  ⟨Armed.temporary _ d x h.toArmed, NamesFree.stable (Aside.temporary hw hp).back d x h.free⟩

theorem Begun.temporary (hw : w.Distinct) (hp : p ≠ []) :
    Act.Stable (Begun w D rels d₀) (temporaryFile p (w.tmp p)) := by
  rintro d x ⟨rows, hrels, hr, hs⟩
  exact ⟨rows, hrels, ArmedFree.temporary hw hp d x hr,
    SameFiles.stable (Aside.temporary hw hp).file d x hs⟩

/-- **The marker is written last**: it lists good backups of all files. -/
theorem Before.arm {id : Uuid} {data : Bytes} (h : Before w d₀ d) (hm : Marker rows)
    (hs : ∀ row ∈ rows, BackedUp D d₀ d row)
    (hdata : checkedFile D id (markerText rows) = .ok data) :
    Begun w D (rows.map (·.rel)) d₀ (d.set compactMarker (some (.file data))) := by
  have hfiles : SameFiles d₀ (d.set compactMarker (some (.file data))) := SameFiles.stable
    (fun rel hrel => path_ne lastByte_marker (lastByte_rel hrel) (by decide)) d _ h.files
  have hlisted : (markerRows D).result (d.set compactMarker (some (.file data))) = .ok rows := by
    rw [markerRows_result, blob_marker, Disk.set_self, (checkedFile_ok hdata).2.2]
    refine (congrArg (·.bind compactParse)
      (checkedText_frameBytes (hm.event_ok id) hm.length_le)).trans ?_
    exact compactParse_iff.2 ⟨hm, rfl⟩
  refine ⟨rows, rfl, ⟨⟨hlisted, ?_, fun row hr => ?_, fun row hr => ?_, fun rel hrel _ =>
    hfiles rel hrel⟩, ?_⟩, hfiles⟩
  · rw [Disk.set_ne _ _ (path_ne lastByte_projects lastByte_marker (by decide)), h.dir]
  · have hlast := lastByte_backup (hs row hr).ok.valid
    exact BackedUp.stable (path_ne lastByte_marker hlast (by decide)) d _ (hs row hr)
  · rw [CompactRow.target, hfiles row.rel (hs row hr).ok.valid]
    exact (hs row hr).not_dir
  · exact NamesFree.stable (fun rel _ => temporary_ne lastByte_marker (by decide)) d _ h.free

/-- What a transaction can list. -/
structure Listable (rels : List Bytes) : Prop where
  nonempty : rels ≠ []
  fits : rels.length ≤ maxFiles
  valid : ∀ rel ∈ rels, relativeValid rel = true
  distinct : rels.Nodup

/-- A call that fails leaves the files as they were, without a marker or with one that lists them
all. -/
theorem wp_compactArm (hw : w.Distinct) (hr : Listable rels) (h : Before w d₀ d) :
    Act.Wp (fun d' => Before w d₀ d' ∨ Begun w D rels d₀ d') (compactArm F D w rels)
      (fun r d' => (Before w d₀ d' ∧ ∃ e, r = .error e) ∨ Begun w D rels d₀ d') d := by
  have hrows := wp_backupRows (F := F) (D := D) hw hr.valid hr.distinct h
  refine (hrows.weaken (fun _ h => Or.inl h) fun _ _ h => h).bind ?_ ?_
  swap
  · rintro e d' ⟨hk, -⟩
    exact .inl ⟨hk.before, e, rfl⟩
  rintro rows d' ⟨hk, hall⟩
  obtain ⟨rfl, hs⟩ := hall rows rfl
  have hm : Marker rows := by
    refine ⟨?_, ?_, fun row hrow => (hs row hrow).ok, hr.distinct⟩
    · rintro rfl
      exact hr.nonempty rfl
    · rw [← List.length_map (f := fun row : CompactRow => row.rel)]
      exact hr.fits
  unfold storeFileWriteChecked
  cases hdata : checkedFile D (w.ids (ascii "compact.pending")) (markerText rows) with
  | error e =>
    exact .of_quiet (Act.bind_run_error rfl) (.inl hk.before) (.inl ⟨hk.before, e, rfl⟩)
  | ok data =>
    have hne : compactMarker ≠ [] := by decide
    have harmed := hk.before.arm hm hs hdata
    have haside : Aside w (temporaryFile compactMarker (w.tmp compactMarker)) :=
      Aside.temporary hw hne
    refine .after rfl ?_
    exact wp_installFile (temporary_ne lastByte_marker (by decide))
      (fun x => .inl (Before.aside haside _ x hk.before))
      (fun x => .inr (Begun.temporary hw hne _ x harmed))
      (fun x => .inl ⟨Before.aside haside _ x hk.before, _, rfl⟩)
      (fun x => .inr (Begun.temporary hw hne _ x harmed))
      (.inr (Begun.temporary hw hne _ none harmed))

end

/-! ## Beginning -/

section
variable {w : CompactNames} {F : FileFaults} {D : Digest} {rels : List Bytes} {d₀ d : Disk}

theorem osFileExists_marker (d : Disk) :
    osFileExists compactMarker d = ⟨[], .ok (d compactMarker).isSome⟩ := by
  rw [osFileExists, Act.look]
  cases hm : d compactMarker with
  | none => rw [show d.find compactMarker = .absent from Disk.find_top_none hm]; rfl
  | some x => rw [show d.find compactMarker = .found x from Disk.find_top_some hm]; rfl

theorem Begun.marker (h : Begun w D rels d₀ d) : (d compactMarker).isSome = true := by
  obtain ⟨rows, -, hr, -⟩ := h
  obtain ⟨b, hb⟩ := hr.marker_file
  rw [hb]
  rfl

/-- Taking the backups away never fails. -/
theorem wp_cleanupAll {I : Disk → Prop} (h : ∀ rel ∈ rels, Act.Stable I (backupPath (resolve rel)))
    (hd : I d) : Act.Wp I (cleanupAll F rels) (fun r d' => r = .ok () ∧ I d') d := by
  induction rels generalizing d with
  | nil => exact .pure hd ⟨rfl, hd⟩
  | cons rel rels ih =>
    have hremove := wp_ignore (keeps_osRemoveFileIn (F := F) (h rel List.mem_cons_self)) hd
    refine hremove.bind (fun _ d' h' => ?_) fun _ _ he => nomatch he.1
    exact ih (fun x hx => h x (List.mem_cons_of_mem _ hx)) h'.2

/-- How `asper_compact_begin` ends. -/
inductive BeginEnd (w : CompactNames) (D : Digest) (rels : List Bytes) (d₀ : Disk) :
    Except Err (Option Err × Bool) → Disk → Prop where
  | refused {d : Disk} (e : Err) (h : Before w d₀ d) : BeginEnd w D rels d₀ (.ok (some e, false)) d
  | unknown {d : Disk} (e : Err) (h : Begun w D rels d₀ d) :
    BeginEnd w D rels d₀ (.ok (some e, true)) d
  | begun {d : Disk} (hr : Listable rels) (h : Begun w D rels d₀ d) :
    BeginEnd w D rels d₀ (.ok (none, false)) d

theorem wp_compactBegin (hw : w.Distinct) (h : Before w d₀ d) :
    Act.Wp (fun d' => Before w d₀ d' ∨ Begun w D rels d₀ d') (compactBegin F D w rels)
      (BeginEnd w D rels d₀) d := by
  refine .ite (fun _ => .pure (.inl h) (.refused _ h)) fun hsize => ?_
  refine .ite (fun _ => .pure (.inl h) (.refused _ h)) fun hrels => ?_
  obtain ⟨hne, hfits⟩ := not_or.1 hsize
  obtain ⟨hvalid, hnodup⟩ := not_not.1 hrels
  have hr : Listable rels := ⟨hne, Nat.le_of_not_lt hfits, hvalid, hnodup⟩
  have hpending : osFileExists compactMarker d = ⟨[], .ok false⟩ := by
    rw [osFileExists_marker, h.marker]
    rfl
  refine .after hpending ?_
  refine (wp_compactArm (F := F) hw hr h).bind_attempt fun r d' hend => ?_
  cases r with
  | ok a =>
    rcases hend with ⟨-, e, he⟩ | hb
    · cases he
    · exact .pure (.inr hb) (.begun hr hb)
  | error e =>
    have hlook := osFileExists_marker d'
    rcases hend with ⟨hb, -⟩ | hb
    · rw [hb.marker] at hlook
      refine .after hlook ?_
      have haside : ∀ rel ∈ rels, Act.Stable (Before w d₀) (backupPath (resolve rel)) :=
        fun rel hrel => Before.aside (Aside.backup (hvalid rel hrel))
      have hclean := wp_cleanupAll (F := F) haside hb
      refine (hclean.weaken (fun _ h => Or.inl h) fun _ _ h => h).bind ?_ fun _ _ he => nomatch he.1
      rintro _ d₁ ⟨-, h₁⟩
      exact .pure (.inl h₁) (.refused e h₁)
    · rw [hb.marker] at hlook
      refine .after hlook ?_
      exact .pure (.inr hb) (.unknown e hb)

end

end Asper
