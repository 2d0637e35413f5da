import Asper.Base.Proof.Files
import Asper.Event.Proof.Frame
import Asper.Lib.Runs
import Asper.Record.Transaction
import Mathlib.Data.List.Nodup

/-! # Recovery is all or nothing

`Undo` says that a transaction can still be undone: the marker and the backups are as they were, and
each file is as it was or restored. `Undone` says that it is. A recovery that finds a backup damaged
writes nothing (`compactRecover_damaged`); any other keeps `Undo` until the marker goes and ends in
`Undone`, wherever it is stopped before (`compactRecover_steps`). `compactRecover_atomic` puts these
together over any number of stopped recoveries. -/

namespace Asper

open Durable

/-! ## Names of files -/

theorem resolveFrom_name (p : Path) : ∀ {s : Bytes} (cur : Bytes), 47 ∉ s →
    resolveFrom p cur s = pushName p (cur ++ s)
  | [], cur, _ => by rw [resolveFrom, List.append_nil]
  | b :: s, cur, h => by
    have hb : b ≠ 47 := fun he => h (he ▸ List.mem_cons_self)
    rw [resolveFrom, if_neg hb, resolveFrom_name p _ fun hm => h (List.mem_cons_of_mem b hm),
      List.append_assoc]
    rfl

theorem resolveFrom_slash (p : Path) (s : Bytes) : ∀ {a : Bytes} (cur : Bytes), 47 ∉ a →
    resolveFrom p cur (a ++ 47 :: s) = resolveFrom (pushName p (cur ++ a)) [] s
  | [], cur, _ => by rw [List.nil_append, resolveFrom, if_pos rfl, List.append_nil]
  | b :: a, cur, h => by
    have hb : b ≠ 47 := fun he => h (he ▸ List.mem_cons_self)
    rw [List.cons_append, resolveFrom, if_neg hb,
      resolveFrom_slash p s _ fun hm => h (List.mem_cons_of_mem b hm), List.append_assoc]
    rfl

theorem pushName_plain {p : Path} {n : Bytes} (h : 2 < n.length) : pushName p n = p ++ [n] := by
  have h1 : n ≠ [] := fun he => by
    rw [he] at h
    cases h
  have h2 : n ≠ ascii "." := fun he => by
    rw [he] at h
    exact absurd h (by decide)
  have h3 : n ≠ ascii ".." := fun he => by
    rw [he] at h
    exact absurd h (by decide)
  rw [pushName, if_neg (not_or.2 ⟨h1, h2⟩), if_neg h3]

def projectsDir : Path := [ascii "projects"]

/-- Where a file of a transaction lies: at the root or among the projects. -/
inductive Placed (rel : Bytes) : Path → Bytes → Prop where
  | top (h : ∃ b, rel = b ++ ascii ".xcdn") : Placed rel [] rel
  | project {n : Bytes} (h : ∃ b, n = b ++ ascii ".xcdn") (hr : rel = ascii "projects/" ++ n) :
    Placed rel projectsDir n

theorem slugValid_no_slash {slug : Bytes} (h : slugValid slug = true) : 47 ∉ slug := by
  intro hm
  cases slug with
  | nil => cases h
  | cons a s =>
    simp only [slugValid, Bool.decide_and, Bool.and_eq_true, decide_eq_true_eq, List.all_eq_true] at h
    rcases List.mem_cons.1 hm with rfl | hm
    · exact absurd h.1 (by decide)
    · have := h.2.2 47 hm
      exact absurd this (by decide)

/-- **The place of a file** that a marker may name. -/
theorem relativeValid_placed {rel : Bytes} (h : relativeValid rel = true) :
    ∃ q n, resolve rel = q ++ [n] ∧ Placed rel q n := by
  rcases of_decide_eq_true h with rfl | rfl | rfl | ⟨hhead, hlen, htail, hslug⟩
  · exact ⟨[], _, by decide, .top ⟨ascii "identity", by decide⟩⟩
  · exact ⟨[], _, by decide, .top ⟨ascii "context", by decide⟩⟩
  · exact ⟨[], _, by decide, .top ⟨ascii "journal", by decide⟩⟩
  · have hsplit : rel.drop 9 = (rel.drop 9).take (rel.length - 14) ++ ascii ".xcdn" := by
      have hdrop : (rel.drop 9).drop (rel.length - 14) = ascii ".xcdn" := by
        rw [List.drop_drop, ← htail]
        exact congrArg (rel.drop ·) (by omega)
      rw [← hdrop, List.take_append_drop]
    have hno : 47 ∉ rel.drop 9 := by
      rw [hsplit]
      intro hm
      rcases List.mem_append.1 hm with hm | hm
      · exact slugValid_no_slash hslug hm
      · exact absurd hm (by decide)
    have hrel : rel = ascii "projects/" ++ rel.drop 9 := by
      rw [← hhead, List.take_append_drop]
    have hrel' : rel = ascii "projects" ++ 47 :: rel.drop 9 := hrel
    refine ⟨projectsDir, rel.drop 9, ?_, .project ⟨_, hsplit⟩ hrel⟩
    have hpush : pushName [] (ascii "projects") = projectsDir := by decide
    have hn : pushName projectsDir (rel.drop 9) = projectsDir ++ [rel.drop 9] :=
      pushName_plain (by rw [List.length_drop]; omega)
    conv_lhs => rw [resolve, hrel']
    rw [resolveFrom_slash [] _ [] (by decide), List.nil_append, hpush, resolveFrom_name _ _ hno,
      List.nil_append, hn]

theorem Placed.inj {rel rel' : Bytes} {q q' : Path} {n n' : Bytes} (h : Placed rel q n)
    (h' : Placed rel' q' n') (he : q ++ [n] = q' ++ [n']) : rel = rel' := by
  obtain ⟨rfl, hn⟩ := List.append_inj' he rfl
  obtain rfl := List.singleton_inj.1 hn
  cases h with
  | top => cases h'; rfl
  | project hb hr =>
    cases h' with
    | project _ hr' => exact hr.trans hr'.symm

/-! ## Kinds of paths -/

/-- The last byte of the last name. -/
def lastByte (p : Path) : Option UInt8 := (p.getLastD []).getLast?

theorem lastByte_concat (q : Path) (n : Bytes) : lastByte (q ++ [n]) = n.getLast? := by
  rw [lastByte, List.getLastD_concat]

theorem lastByte_temporary (p : Path) (uuid : Uuid) :
    ∃ b, lastByte (temporaryFile p uuid) = some b ∧ b ≤ 102 := by
  have hne : uuid.val ≠ [] := fun he => by
    have hlen := uuidShape_length uuid.2
    rw [he] at hlen
    cases hlen
  refine ⟨uuid.val.getLast hne, ?_, ?_⟩
  · rw [temporaryFile, ext, lastByte_concat, ← List.append_assoc, List.getLast?_append_of_ne_nil _ hne,
      List.getLast?_eq_some_getLast hne]
  · rcases shapeAux_mem uuid.2 (List.getLast_mem hne) with he | he
    · rw [he]
      decide
    · simp only [isLowerHex, decide_eq_true_eq, UInt8.le_iff_toNat_le, UInt8.reduceToNat] at he
      rw [UInt8.le_iff_toNat_le]
      simp only [UInt8.reduceToNat]
      omega

/-! ## Rows of a marker -/

theorem compactRow_valid {text : Bytes} {row : CompactRow} (h : compactRow text = some row) :
    relativeValid row.rel = true := by
  unfold compactRow at h
  split_ifs at h with h1 h2 h3
  · obtain rfl := Option.some.inj h
    exact h2.2
  · obtain rfl := Option.some.inj h
    exact h3.2

/-- The rows name files that a transaction may name, each once. -/
structure MarkerRows (rows : List CompactRow) : Prop where
  valid : ∀ row ∈ rows, relativeValid row.rel = true
  nodup : (rows.map (·.rel)).Nodup

theorem compactRows_ok : ∀ {texts : List Bytes} {acc rows : List CompactRow},
    compactRows acc texts = .ok rows → MarkerRows acc → MarkerRows rows
  | [], _, _, h, hacc => Except.ok.inj h ▸ hacc
  | text :: texts, acc, rows, h, hacc => by
    unfold compactRows at h
    split_ifs at h
    split at h
    · cases h
    · next row hrow =>
      split_ifs at h with hany
      refine compactRows_ok h ⟨fun x hx => ?_, ?_⟩
      · rcases List.mem_append.1 hx with hx | hx
        · exact hacc.valid x hx
        · exact List.mem_singleton.1 hx ▸ compactRow_valid hrow
      · rw [List.map_append]
        refine List.nodup_append'.2 ⟨hacc.nodup, List.nodup_singleton _, fun r hr hr' => hany ?_⟩
        obtain ⟨x, hx, rfl⟩ := List.mem_map.1 hr
        exact List.any_eq_true.2 ⟨x, hx, decide_eq_true (List.mem_singleton.1 hr')⟩

theorem compactParse_ok {text : Bytes} {rows : List CompactRow} (h : compactParse text = .ok rows) :
    MarkerRows rows := by
  unfold compactParse at h
  split at h
  · cases h
  · next rows' hrows =>
    split_ifs at h
    obtain rfl := Except.ok.inj h
    exact compactRows_ok hrows ⟨nofun, List.nodup_nil⟩

theorem MarkerRows.eq_of_target {rows : List CompactRow} (h : MarkerRows rows) {r r' : CompactRow}
    (hr : r ∈ rows) (hr' : r' ∈ rows) (he : r.target = r'.target) : r = r' := by
  obtain ⟨q, n, hq, hp⟩ := relativeValid_placed (h.valid r hr)
  obtain ⟨q', n', hq', hp'⟩ := relativeValid_placed (h.valid r' hr')
  have hrel : r.rel = r'.rel := hp.inj hp' (hq.symm.trans (he.trans hq'))
  exact List.inj_on_of_nodup_map h.nodup hr hr' hrel

/-- Where a row and its copies lie. -/
structure RowPlace (row : CompactRow) (q : Path) (n : Bytes) : Prop where
  target : row.target = q ++ [n]
  backup : row.backup = q ++ [n ++ ascii ".compact.bak"]
  temporary : ∀ u : Uuid, temporaryFile row.target u = q ++ [n ++ (ascii ".tmp-" ++ u.val)]
  dir : ∀ d : Disk, d projectsDir = some .dir → d.find q = .found .dir
  last : n.getLast? = some 110

theorem row_place {row : CompactRow} (h : relativeValid row.rel = true) :
    ∃ q n, RowPlace row q n := by
  obtain ⟨q, n, hq, hp⟩ := relativeValid_placed h
  have htarget : row.target = q ++ [n] := hq
  have hlast : n.getLast? = some 110 := by
    cases hp with
    | top hb =>
      obtain ⟨b, hb⟩ := hb
      rw [hb, List.getLast?_append_of_ne_nil _ (by decide)]
      decide
    | project hb _ =>
      obtain ⟨b, hb⟩ := hb
      rw [hb, List.getLast?_append_of_ne_nil _ (by decide)]
      decide
  refine ⟨q, n, htarget, ?_, fun u => ?_, fun d hd => ?_, hlast⟩
  · rw [CompactRow.backup, backupPath, htarget, ext_concat]
  · rw [temporaryFile, htarget, ext_concat]
  · cases hp with
    | top => rfl
    | project => exact Disk.find_top_some hd

section
variable {row row' : CompactRow} {q : Path} {n : Bytes} {d : Disk} {uuid : Uuid}

theorem lastByte_target (h : relativeValid row.rel = true) : lastByte row.target = some 110 := by
  obtain ⟨q, n, hp⟩ := row_place h
  rw [hp.target, lastByte_concat, hp.last]

theorem lastByte_backup (h : relativeValid row.rel = true) : lastByte row.backup = some 107 := by
  obtain ⟨q, n, hp⟩ := row_place h
  rw [hp.backup, lastByte_concat, List.getLast?_append_of_ne_nil _ (by decide)]
  decide

theorem temporary_ne {b : UInt8} {p p' : Path} (hb : lastByte p = some b) (hlt : 102 < b) :
    p ≠ temporaryFile p' uuid := by
  rintro rfl
  obtain ⟨b', hb', hle⟩ := lastByte_temporary p' uuid
  rw [hb] at hb'
  obtain rfl := Option.some.inj hb'
  exact absurd hle (UInt8.not_le.2 hlt)

theorem path_ne {b b' : UInt8} {p p' : Path} (hb : lastByte p = some b) (hb' : lastByte p' = some b')
    (hne : b ≠ b') : p ≠ p' := by
  rintro rfl
  rw [hb] at hb'
  exact hne (Option.some.inj hb')

theorem lastByte_marker : lastByte compactMarker = some 103 := by decide

theorem lastByte_projects : lastByte projectsDir = some 115 := by decide

/-! ## One row -/

/-- The backup of a row is there and has the digest of the row. -/
def BackupGood (D : Digest) (d : Disk) (row : CompactRow) : Prop :=
  ∃ b, d row.backup = some (.file b) ∧ b.length ≤ storeFileMax ∧ hexDigest D b = row.hash

theorem restoreCheck_writes (D : Digest) (row : CompactRow) (d : Disk) :
    (restoreCheck D row).writes d = [] := by
  unfold restoreCheck
  split
  · unfold storeFileVerify
    rw [osBlobOpen]
    cases hb : blob d row.backup with
    | error e => rw [Act.writes, Act.bind_run_error (by rw [Act.read, hb])]
    | ok b =>
      rw [Act.writes, Act.bind_run (w := []) (a := b) (by rw [Act.read, hb]), applyAll_nil, Act.writes]
      by_cases hlen : b.length ≤ storeFileMax
      · rw [require_bind hlen]
        by_cases hh : hexDigest D b = row.hash
        · rw [require_run _ _ hh]
          rfl
        · rw [require_fail _ _ hh]
          rfl
      · rw [require_bind_fail hlen]
        rfl
  · rfl

/-- **The first pass** passes a row exactly when its backup is good. -/
theorem restoreCheck_ok {D : Digest} (hv : relativeValid row.rel = true)
    (hd : d projectsDir = some .dir) : (restoreCheck D row).result d = .ok () ↔
      (row.existed = true → BackupGood D d row) := by
  obtain ⟨q, n, hp⟩ := row_place hv
  have hblob := blob_child (n ++ ascii ".compact.bak") (hp.dir d hd)
  rw [← hp.backup] at hblob
  unfold restoreCheck
  split
  swap
  · next hno => exact ⟨fun _ h => absurd h hno, fun _ => rfl⟩
  next hex =>
  have hgood : (row.existed = true → BackupGood D d row) ↔ BackupGood D d row :=
    ⟨fun h => h hex, fun h _ => h⟩
  rw [hgood, storeFileVerify, osBlobOpen]
  cases hb : blob d row.backup with
  | error e =>
    rw [Act.result, Act.bind_run_error (by rw [Act.read, hb])]
    refine iff_of_false (by simp) ?_
    rintro ⟨b, hfile, -⟩
    rw [hb, hfile] at hblob
    cases hblob
  | ok b =>
    have hfile : d row.backup = some (.file b) := by
      rw [hb] at hblob
      cases hx : d row.backup with
      | none => rw [hx] at hblob; cases hblob
      | some x =>
        cases x with
        | dir => rw [hx] at hblob; cases hblob
        | file b' => rw [hx] at hblob; cases hblob; rfl
    rw [Act.result, Act.bind_run (w := []) (a := b) (by rw [Act.read, hb]), applyAll_nil]
    dsimp only
    by_cases hlen : b.length ≤ storeFileMax
    · rw [Act.result, require_bind hlen]
      by_cases hh : hexDigest D b = row.hash
      · rw [require_run _ _ hh]
        exact ⟨fun _ => ⟨b, hfile, hlen, hh⟩, fun _ => rfl⟩
      · rw [require_fail _ _ hh]
        refine iff_of_false (by simp) ?_
        rintro ⟨b', hfile', -, hh'⟩
        refine hh ?_
        rw [hfile] at hfile'
        cases hfile'
        exact hh'
    · rw [Act.result, require_bind_fail hlen]
      refine iff_of_false (by simp) ?_
      rintro ⟨b', hfile', hlen', -⟩
      refine hlen ?_
      rw [hfile] at hfile'
      cases hfile'
      exact hlen'

end

/-! ## What can be undone -/

/-- What a row restores: the backup, or nothing where no file was. -/
def savedNode (d₀ : Disk) (row : CompactRow) : Option Node :=
  if row.existed then d₀ row.backup else none

/-- The transaction on `d₀` can still be undone. -/
structure Undo (rows : List CompactRow) (d₀ d : Disk) : Prop where
  marker : d compactMarker = d₀ compactMarker
  dir : d projectsDir = d₀ projectsDir
  backup : ∀ row ∈ rows, d row.backup = d₀ row.backup
  target : ∀ row ∈ rows, d row.target = d₀ row.target ∨ d row.target = savedNode d₀ row

/-- The transaction on `d₀` is undone. -/
structure Undone (rows : List CompactRow) (d₀ d : Disk) : Prop where
  marker : d compactMarker = none
  target : ∀ row ∈ rows, d row.target = savedNode d₀ row

/-- The names of the temporary copies are free. -/
def Free (rows : List CompactRow) (uuids : Bytes → Uuid) (d : Disk) : Prop :=
  ∀ row ∈ rows, row.existed = true → d (temporaryFile row.target (uuids row.rel)) = none

/-- A transaction that can be undone: every backup is good, and no directory stands in the place of a
file. -/
structure Undoable (D : Digest) (rows : List CompactRow) (d₀ : Disk) : Prop where
  listed : MarkerRows rows
  dir : d₀ projectsDir = some .dir
  good : ∀ row ∈ rows, row.existed = true → BackupGood D d₀ row
  file : ∀ row ∈ rows, d₀ row.target ≠ some .dir

section
variable {D : Digest} {rows : List CompactRow} {d₀ d : Disk} {row : CompactRow}
  {uuids : Bytes → Uuid}

theorem Undo.start (rows : List CompactRow) (d₀ : Disk) : Undo rows d₀ d₀ :=
  ⟨rfl, rfl, fun _ _ => rfl, fun _ _ => .inl rfl⟩

/-- A temporary copy is no part of it. -/
theorem Undo.temporary (h : Undo rows d₀ d) (hm : MarkerRows rows) (p : Path) (uuid : Uuid)
    (x : Option Node) : Undo rows d₀ (d.set (temporaryFile p uuid) x) where
  marker := by rw [Disk.set_ne _ _ (temporary_ne lastByte_marker (by decide)), h.marker]
  dir := by rw [Disk.set_ne _ _ (temporary_ne lastByte_projects (by decide)), h.dir]
  backup r hr := by
    rw [Disk.set_ne _ _ (temporary_ne (lastByte_backup (hm.valid r hr)) (by decide)), h.backup r hr]
  target r hr := by
    rw [Disk.set_ne _ _ (temporary_ne (lastByte_target (hm.valid r hr)) (by decide))]
    exact h.target r hr

theorem restored_put (hm : MarkerRows rows) (hr : row ∈ rows) {r : CompactRow} (hr' : r ∈ rows) :
    (d.set row.target (savedNode d₀ row)) r.target = d r.target ∨
      (d.set row.target (savedNode d₀ row)) r.target = savedNode d₀ r := by
  by_cases he : r.target = row.target
  · obtain rfl := hm.eq_of_target hr' hr he
    exact .inr (Disk.set_self ..)
  · exact .inl (Disk.set_ne _ _ he)

/-- A file is restored. -/
theorem Undo.put (h : Undo rows d₀ d) (hm : MarkerRows rows) (hr : row ∈ rows) :
    Undo rows d₀ (d.set row.target (savedNode d₀ row)) where
  marker := by
    have hne := path_ne lastByte_marker (lastByte_target (hm.valid row hr)) (by decide)
    rw [Disk.set_ne _ _ hne, h.marker]
  dir := by
    have hne := path_ne lastByte_projects (lastByte_target (hm.valid row hr)) (by decide)
    rw [Disk.set_ne _ _ hne, h.dir]
  backup r hr' := by
    have hne := path_ne (lastByte_backup (hm.valid r hr')) (lastByte_target (hm.valid row hr))
      (by decide)
    rw [Disk.set_ne _ _ hne, h.backup r hr']
  target r hr' := by
    rcases restored_put hm hr hr' with he | he
    · rw [he]
      exact h.target r hr'
    · exact .inr he

/-- Files that are restored stay so. -/
def StaysRestored (rows : List CompactRow) (d₀ d d' : Disk) : Prop :=
  ∀ r ∈ rows, d r.target = savedNode d₀ r → d' r.target = savedNode d₀ r

theorem StaysRestored.temporary (hm : MarkerRows rows) (p : Path) (uuid : Uuid) (x : Option Node) :
    StaysRestored rows d₀ d (d.set (temporaryFile p uuid) x) := fun r hr h => by
  rwa [Disk.set_ne _ _ (temporary_ne (lastByte_target (hm.valid r hr)) (by decide))]

theorem StaysRestored.put (hm : MarkerRows rows) (hr : row ∈ rows) :
    StaysRestored rows d₀ d (d.set row.target (savedNode d₀ row)) := fun _ hr' h =>
  (restored_put hm hr hr').elim (·.trans h) id

/-- What a step of the second pass leaves. -/
structure RowDone (rows : List CompactRow) (d₀ : Disk) (uuids : Bytes → Uuid) (row : CompactRow)
    (d d' : Disk) : Prop where
  undo : Undo rows d₀ d'
  free : Free rows uuids d'
  restored : d' row.target = savedNode d₀ row
  stays : StaysRestored rows d₀ d d'

theorem Undoable.not_dir (hu : Undoable D rows d₀) (h : Undo rows d₀ d) (hr : row ∈ rows) :
    d row.target ≠ some .dir := by
  rcases h.target row hr with he | he
  · rw [he]
    exact hu.file row hr
  · rw [he, savedNode]
    split
    · next hex =>
      obtain ⟨b, hb, -⟩ := hu.good row hr hex
      rw [hb]
      simp
    · simp

/-- **A file that was there** is restored by way of a temporary copy. -/
theorem storeFileCopy_steps (hu : Undoable D rows d₀) (h : Undo rows d₀ d)
    (hfree : Free rows uuids d) (hr : row ∈ rows) (hex : row.existed = true) :
    ∃ ws, storeFileCopy D row.backup row.target row.hash (uuids row.rel) d = ⟨ws, .ok ()⟩ ∧
      Steps (fun _ _ => False) d ws (Undo rows d₀) (RowDone rows d₀ uuids row d) := by
  have hm := hu.listed
  obtain ⟨q, n, hp⟩ := row_place (hm.valid row hr)
  obtain ⟨b, hb₀, hlen, hhash⟩ := hu.good row hr hex
  have hsaved : savedNode d₀ row = some (.file b) := by rw [savedNode, if_pos hex, hb₀]
  have hdir : d.find q = .found .dir := hp.dir d (h.dir.trans hu.dir)
  have hb : d row.backup = some (.file b) := (h.backup row hr).trans hb₀
  have hblob : blob d row.backup = .ok b := by
    have hchild := blob_child (n ++ ascii ".compact.bak") hdir
    rwa [← hp.backup, hb] at hchild
  have hnone := hfree row hr hex
  have hdrop : (temporaryFile row.target (uuids row.rel)).dropLast = q := by
    rw [hp.temporary, List.dropLast_concat]
  have hcreate : creatable d (temporaryFile row.target (uuids row.rel)) = true := by
    refine decide_eq_true ⟨?_, by rw [hdrop, hdir]⟩
    rw [hp.temporary] at hnone ⊢
    rw [Disk.find_child _ hdir, hnone]
  have hfound := find_created row.target b (uuids row.rel) d hcreate
  have hwritable : writable ((Write.create (temporaryFile row.target (uuids row.rel)) b).apply d)
      row.target = true := by
    have hne : row.target ≠ temporaryFile row.target (uuids row.rel) :=
      temporary_ne (lastByte_target (hm.valid row hr)) (by decide)
    have hnd : (Write.create (temporaryFile row.target (uuids row.rel)) b).apply d row.target ≠
        some .dir := by
      rw [Write.apply, Disk.set_ne _ _ hne]
      exact hu.not_dir h hr
    rw [hp.target] at hnd ⊢
    refine writable_child n ?_ hnd
    rw [← hp.target, Write.apply, hp.temporary, Disk.find_set_child, hdir]
  have hmove := (osFileReplace_file hfound).trans
    (withWritable_true (w := .rename (temporaryFile row.target (uuids row.rel)) row.target) hwritable)
  have hrun : storeFileCopy D row.backup row.target row.hash (uuids row.rel) d =
      ⟨[.create (temporaryFile row.target (uuids row.rel)) b,
        .rename (temporaryFile row.target (uuids row.rel)) row.target], .ok ()⟩ := by
    have hinner : (do
        require (hexDigest D b = row.hash) .parse
        osFileReplace (temporaryFile row.target (uuids row.rel)) row.target : Io Unit)
          ((Write.create (temporaryFile row.target (uuids row.rel)) b).apply d) =
        ⟨[.rename (temporaryFile row.target (uuids row.rel)) row.target], .ok ()⟩ := by
      rw [require_bind hhash, hmove]
    rw [storeFileCopy, osBlobOpen,
      Act.bind_run (w := []) (a := b) (by rw [Act.read, hblob]), applyAll_nil, Act.writes,
      Act.result, require_bind hlen]
    exact congrArg (fun o : Outcome Err Unit => (⟨[] ++ o.writes, o.result⟩ : Outcome Err Unit))
      (Act.bind_run_run (osBlobCreate_run b d hcreate) (Act.bind_run_run (Act.attempt_run hinner) rfl))
  refine ⟨_, hrun, ?_⟩
  generalize ht : temporaryFile row.target (uuids row.rel) = t at *
  have hcut : ∀ k w', (Write.create t b).cut k = some w' → ¬ False → Undo rows d₀ (w'.apply d) := by
    intro k w' hk _
    obtain rfl := Option.some.inj hk
    rw [Write.apply, ← ht]
    exact h.temporary hm _ _ _
  have hmade : Undo rows d₀ ((Write.create t b).apply d) := by
    rw [Write.apply, ← ht]
    exact h.temporary hm _ _ _
  have hren : (Write.rename t row.target).apply ((Write.create t b).apply d) =
      ((d.set t (some (.file b))).set row.target (savedNode d₀ row)).set t none := by
    rw [Write.apply, Write.apply, Disk.set_self, hsaved]
  have hstay : StaysRestored rows d₀ d
      (((d.set t (some (.file b))).set row.target (savedNode d₀ row)).set t none) := by
    intro r hr' hs
    rw [← ht]
    exact StaysRestored.temporary hm _ _ _ r hr' (StaysRestored.put hm hr r hr' (StaysRestored.temporary hm _ _ _ r hr' hs))
  have hundo : Undo rows d₀
      (((d.set t (some (.file b))).set row.target (savedNode d₀ row)).set t none) := by
    rw [← ht]
    exact ((h.temporary hm _ _ _).put hm hr).temporary hm _ _ _
  have hdone : RowDone rows d₀ uuids row d
      (((d.set t (some (.file b))).set row.target (savedNode d₀ row)).set t none) := by
    refine ⟨hundo, fun r hr' hex' => ?_, ?_, hstay⟩
    · by_cases he : temporaryFile r.target (uuids r.rel) = t
      · rw [he, Disk.set_self]
      · rw [Disk.set_ne _ _ he, Disk.set_ne _ _ (temporary_ne (lastByte_target (hm.valid row hr))
          (by decide)).symm, Disk.set_ne _ _ he]
        exact hfree r hr' hex'
    · have hne : row.target ≠ t := by
        rw [← ht]
        exact temporary_ne (lastByte_target (hm.valid row hr)) (by decide)
      rw [Disk.set_ne _ _ hne, Disk.set_self]
  have h1 : Steps (fun _ _ => False) d [.create t b] (Undo rows d₀)
      (fun d' => d' = (Write.create t b).apply d) := .single h hcut hmade rfl
  have h2 : Steps (fun _ _ => False) ((Write.create t b).apply d) [.rename t row.target]
      (Undo rows d₀) (RowDone rows d₀ uuids row d) :=
    .whole (fun _ => rfl) hmade (hren ▸ hundo) (hren ▸ hdone)
  exact h1.append h2

/-- **A file that was not there** is removed. -/
theorem removeTarget_steps (hu : Undoable D rows d₀) (h : Undo rows d₀ d)
    (hfree : Free rows uuids d) (hr : row ∈ rows) (hex : row.existed = false) :
    ∃ ws, orElse (osRemoveFile row.target) .notFound () d = ⟨ws, .ok ()⟩ ∧
      Steps (fun _ _ => False) d ws (Undo rows d₀) (RowDone rows d₀ uuids row d) := by
  have hm := hu.listed
  obtain ⟨q, n, hp⟩ := row_place (hm.valid row hr)
  have hdir : d.find q = .found .dir := hp.dir d (h.dir.trans hu.dir)
  have hfind := Disk.find_child n hdir
  rw [← hp.target] at hfind
  have hsaved : savedNode d₀ row = none := by rw [savedNode, hex, if_neg Bool.false_ne_true]
  cases hx : d row.target with
  | none =>
    rw [hx] at hfind
    have hrun : osRemoveFile row.target d = ⟨[], .error .notFound⟩ := by
      rw [osRemoveFile, Act.bind_run (w := []) (a := .absent) (by rw [Act.look, hfind])]
      rfl
    refine ⟨[], orElse_run .notFound () hrun fun e he => (Except.error.inj he).symm, ?_⟩
    exact .nil h ⟨h, hfree, hx.trans hsaved.symm, fun _ _ hs => hs⟩
  | some x =>
    cases x with
    | dir => exact absurd hx (hu.not_dir h hr)
    | file b =>
      rw [hx] at hfind
      refine ⟨_, orElse_run .notFound () (osRemoveFile_file hfind) (fun e he => by cases he), ?_⟩
      have hremove : (Write.remove row.target).apply d = d.set row.target (savedNode d₀ row) := by
        rw [Write.apply, hsaved]
      have hundo : Undo rows d₀ ((Write.remove row.target).apply d) := hremove ▸ h.put hm hr
      refine .whole (fun _ => rfl) h hundo ⟨hundo, fun r hr' hex' => ?_, ?_, ?_⟩
      · rw [hremove, Disk.set_ne _ _ (temporary_ne (lastByte_target (hm.valid row hr))
          (by decide)).symm]
        exact hfree r hr' hex'
      · rw [hremove, Disk.set_self]
      · rw [hremove]
        exact StaysRestored.put hm hr

theorem restoreApply_steps (hu : Undoable D rows d₀) (h : Undo rows d₀ d)
    (hfree : Free rows uuids d) (hr : row ∈ rows) :
    ∃ ws, restoreApply D uuids row d = ⟨ws, .ok ()⟩ ∧
      Steps (fun _ _ => False) d ws (Undo rows d₀) (RowDone rows d₀ uuids row d) := by
  cases hex : row.existed with
  | true =>
    obtain ⟨ws, hrun, hs⟩ := storeFileCopy_steps hu h hfree hr hex
    exact ⟨ws, by rw [restoreApply, if_pos hex, hrun], hs⟩
  | false =>
    obtain ⟨ws, hrun, hs⟩ := removeTarget_steps hu h hfree hr hex
    exact ⟨ws, by rw [restoreApply, hex, if_neg Bool.false_ne_true, hrun], hs⟩

/-! ## The passes -/

/-- The first pass writes nothing, and passes when every backup is good. -/
theorem eachRow_check (hd : d projectsDir = some .dir) : ∀ {l : List CompactRow},
    (∀ row ∈ l, relativeValid row.rel = true) →
    (eachRow (restoreCheck D) l).writes d = [] ∧
      ((eachRow (restoreCheck D) l).result d = .ok () ↔
        ∀ row ∈ l, row.existed = true → BackupGood D d row)
  | [], _ => ⟨rfl, ⟨nofun, fun _ => rfl⟩⟩
  | row :: l, hv => by
    have hw := restoreCheck_writes D row d
    have hrow := restoreCheck_ok (D := D) (hv row List.mem_cons_self) hd
    obtain ⟨hws, hok⟩ := eachRow_check hd fun r hr => hv r (List.mem_cons_of_mem row hr)
    have hfinal : (restoreCheck D row).final d = d := Act.final_of_nil hw
    rw [eachRow]
    cases hres : (restoreCheck D row).result d with
    | error e =>
      rw [Act.writes_bind_error hres, Act.result_bind_error hres, hw]
      refine ⟨rfl, nofun, fun hall => ?_⟩
      rw [hrow.2 (hall row List.mem_cons_self)] at hres
      cases hres
    | ok _ =>
      rw [Act.writes_bind hres, Act.result_bind hres, hw, hfinal, hws, hok]
      refine ⟨rfl, fun hall r hr => ?_, fun hall r hr => hall r (List.mem_cons_of_mem row hr)⟩
      rcases List.mem_cons.1 hr with rfl | hr
      · exact hrow.1 hres
      · exact hall r hr

/-- **The second pass** restores every file; stopped anywhere it leaves a transaction that can be
undone. -/
theorem eachRow_apply (hu : Undoable D rows d₀) : ∀ {l : List CompactRow} {d : Disk}, l ⊆ rows →
    Undo rows d₀ d → Free rows uuids d →
    ∃ ws, eachRow (restoreApply D uuids) l d = ⟨ws, .ok ()⟩ ∧
      Steps (fun _ _ => False) d ws (Undo rows d₀) fun d' => Undo rows d₀ d' ∧ StaysRestored rows d₀ d d' ∧
        ∀ row ∈ l, d' row.target = savedNode d₀ row
  | [], d, _, h, _ => ⟨[], rfl, .nil h ⟨h, fun _ _ hs => hs, nofun⟩⟩
  | row :: l, d, hl, h, hfree => by
    have hr : row ∈ rows := hl List.mem_cons_self
    obtain ⟨ws, hrun, hs⟩ := restoreApply_steps hu h hfree hr
    obtain ⟨vs, hrest, hs'⟩ :=
      eachRow_apply hu (fun x hx => hl (List.mem_cons_of_mem row hx)) hs.final.undo hs.final.free
    refine ⟨ws ++ vs, Act.bind_run_run hrun hrest, hs.append (hs'.weaken (fun _ h => h) ?_)⟩
    rintro d' ⟨hd', hstay, hall⟩
    refine ⟨hd', fun r hr' he => hstay r hr' (hs.final.stays r hr' he), fun r hr' => ?_⟩
    rcases List.mem_cons.1 hr' with rfl | hr'
    · exact hstay r hr hs.final.restored
    · exact hall r hr'

theorem compactCleanup_run (row : CompactRow) (d : Disk) : ∃ ws,
    compactCleanup row d = ⟨ws, .ok ()⟩ ∧ (ws = [] ∨ ws = [.remove row.backup]) := by
  have hremove : ∃ ws r, osRemoveFile row.backup d = ⟨ws, r⟩ ∧
      (ws = [] ∨ ws = [.remove row.backup]) := by
    cases hf : d.find row.backup with
    | absent =>
      refine ⟨[], .error .notFound, ?_, .inl rfl⟩
      rw [osRemoveFile, Act.bind_run (w := []) (a := .absent) (by rw [Act.look, hf])]
      rfl
    | blocked =>
      refine ⟨[], .error .io, ?_, .inl rfl⟩
      rw [osRemoveFile, Act.bind_run (w := []) (a := .blocked) (by rw [Act.look, hf])]
      rfl
    | found x =>
      cases x with
      | dir =>
        refine ⟨[], .error .io, ?_, .inl rfl⟩
        rw [osRemoveFile, Act.bind_run (w := []) (a := .found .dir) (by rw [Act.look, hf])]
        rfl
      | file b => exact ⟨_, _, osRemoveFile_file hf, .inr rfl⟩
  obtain ⟨ws, r, hrun, hws⟩ := hremove
  exact ⟨ws, ignore_run hrun, hws⟩

/-- What is undone stays so when a backup goes. -/
theorem Undone.cleanup (h : Undone rows d₀ d) (hm : MarkerRows rows) (hr : row ∈ rows) :
    Undone rows d₀ ((Write.remove row.backup).apply d) where
  marker := by
    have hne := path_ne lastByte_marker (lastByte_backup (hm.valid row hr)) (by decide)
    rw [Write.apply, Disk.set_ne _ _ hne, h.marker]
  target r hr' := by
    have hne := path_ne (lastByte_target (hm.valid r hr')) (lastByte_backup (hm.valid row hr))
      (by decide)
    rw [Write.apply, Disk.set_ne _ _ hne, h.target r hr']

theorem eachRow_cleanup (hm : MarkerRows rows) : ∀ {l : List CompactRow} {d : Disk}, l ⊆ rows →
    Undone rows d₀ d → ∃ ws, eachRow compactCleanup l d = ⟨ws, .ok ()⟩ ∧
      Steps (fun _ _ => False) d ws (Undone rows d₀) (Undone rows d₀)
  | [], _, _, h => ⟨[], rfl, .nil h h⟩
  | row :: l, d, hl, h => by
    obtain ⟨ws, hrun, hws⟩ := compactCleanup_run row d
    have hnext := h.cleanup hm (hl List.mem_cons_self)
    have hs : Steps (fun _ _ => False) d ws (Undone rows d₀) (Undone rows d₀) := by
      rcases hws with rfl | rfl
      · exact .nil h h
      · exact .whole (fun _ => rfl) h hnext hnext
    obtain ⟨vs, hrest, hs'⟩ :=
      eachRow_cleanup hm (fun x hx => hl (List.mem_cons_of_mem row hx)) hs.final
    exact ⟨ws ++ vs, Act.bind_run_run hrun hrest, hs.append hs'⟩

/-! ## One call -/

theorem storeFileReadChecked_run (D : Digest) (p : Path) (limit : Nat) (d : Disk) :
    storeFileReadChecked D p limit d = ⟨[], (blob d p).bind (checkedText D limit)⟩ := by
  rw [storeFileReadChecked, osBlobOpen]
  cases hb : blob d p with
  | error e => exact Act.bind_run_error (by rw [Act.read, hb])
  | ok b => exact Act.bind_run_run (w := []) (a := b) (by rw [Act.read, hb]) rfl

/-- A checked file is read as the text it was written with. -/
theorem checkedText_frameBytes {id text : Bytes} {limit : Nat}
    (h : (⟨1, 0, .diagnostic, false, id, [], text⟩ : Event).Ok) (hlen : text.length ≤ limit) :
    checkedText D limit (frameBytes D ⟨1, 0, .diagnostic, false, id, [], text⟩) = .ok text := by
  have hread := frameRead_frameBytes D h []
  have hsize := length_frameBytes_le D h
  dsimp only at hsize
  rw [List.append_nil] at hread
  rw [checkedText, if_neg (by omega), hread]
  exact if_pos ⟨rfl, rfl, rfl, rfl, rfl, rfl, hlen⟩

theorem checkedText_found {limit : Nat} {s : Bytes} : checkedText D limit s ≠ .error .notFound := by
  unfold checkedText
  split_ifs
  · nofun
  · split
    · nofun
    · next e he hne => exact fun h => he (Except.error.inj h)
    · split_ifs <;> nofun

theorem blob_marker (d : Disk) : blob d compactMarker = match d compactMarker with
    | none => .error .notFound
    | some .dir => .error .invalid
    | some (.file b) => .ok b := blob_child (q := []) (ascii "compact.pending") rfl

/-- **No marker**: there is nothing to undo. -/
theorem compactRecover_none (uuids : Bytes → Uuid) (h : d compactMarker = none) :
    compactRecover D uuids d = ⟨[], .ok ()⟩ := by
  have hblob := blob_marker d
  rw [h] at hblob
  have hread := storeFileReadChecked_run D compactMarker markerMax d
  rw [hblob] at hread
  rw [compactRecover]
  exact Act.bind_run_run (Act.attempt_run hread) rfl

theorem markerRows_result (D : Digest) (d : Disk) : (markerRows D).result d =
    ((blob d compactMarker).bind (checkedText D markerMax)).bind compactParse := by
  have hread := storeFileReadChecked_run D compactMarker markerMax d
  rw [markerRows, Act.result]
  cases hx : (blob d compactMarker).bind (checkedText D markerMax) with
  | error e =>
    rw [hx] at hread
    rw [Act.bind_run_error hread]
    rfl
  | ok text =>
    rw [hx] at hread
    rw [Act.bind_run hread]
    rfl

/-- A call that finds the rows `rows` in the marker. -/
theorem compactRecover_rows (uuids : Bytes → Uuid) (h : (markerRows D).result d = .ok rows) :
    compactRecover D uuids d = compactRestore D uuids rows d := by
  rw [markerRows_result] at h
  have hread := storeFileReadChecked_run D compactMarker markerMax d
  cases hx : (blob d compactMarker).bind (checkedText D markerMax) with
  | error e =>
    rw [hx] at h
    cases h
  | ok text =>
    rw [hx] at h hread
    have hparse : compactParse text = .ok rows := h
    rw [compactRecover, Act.bind_run (Act.attempt_run hread)]
    dsimp only
    rw [hparse]
    rfl

/-- A marker that is there and cannot be read stays, and so does everything else. -/
theorem compactRecover_malformed (uuids : Bytes → Uuid) (h : d compactMarker ≠ none) {e : Err}
    (hrows : (markerRows D).result d = .error e) :
    ∃ e, compactRecover D uuids d = ⟨[], .error e⟩ := by
  rw [markerRows_result] at hrows
  have hread := storeFileReadChecked_run D compactMarker markerMax d
  have hblob := blob_marker d
  cases hx : (blob d compactMarker).bind (checkedText D markerMax) with
  | ok text =>
    rw [hx] at hrows hread
    have hparse : compactParse text = .error e := hrows
    refine ⟨e, ?_⟩
    rw [compactRecover, Act.bind_run (Act.attempt_run hread)]
    dsimp only
    rw [hparse]
    rfl
  | error e' =>
    have hne : e' ≠ .notFound := by
      rintro rfl
      cases hd : d compactMarker with
      | none => exact h hd
      | some x =>
        cases x with
        | dir =>
          rw [hblob, hd] at hx
          cases hx
        | file b =>
          rw [hblob, hd] at hx
          exact checkedText_found hx
    rw [hx] at hread
    refine ⟨e', ?_⟩
    rw [compactRecover, Act.bind_run (Act.attempt_run hread)]
    cases e' <;> first | exact absurd rfl hne | rfl

theorem markerRows_listed (h : (markerRows D).result d = .ok rows) : MarkerRows rows := by
  rw [markerRows_result] at h
  cases hx : (blob d compactMarker).bind (checkedText D markerMax) with
  | error e =>
    rw [hx] at h
    cases h
  | ok text =>
    rw [hx] at h
    exact compactParse_ok h

/-- **A backup is missing or damaged**: nothing is written. -/
theorem compactRecover_damaged (uuids : Bytes → Uuid) (hd : d projectsDir = some .dir)
    (h : (markerRows D).result d = .ok rows)
    (hbad : ¬ ∀ row ∈ rows, row.existed = true → BackupGood D d row) :
    ∃ e, compactRecover D uuids d = ⟨[], .error e⟩ := by
  obtain ⟨hw, hok⟩ := eachRow_check (D := D) hd (markerRows_listed h).valid
  rw [compactRecover_rows uuids h]
  cases hres : (eachRow (restoreCheck D) rows).result d with
  | ok u => exact absurd (hok.1 hres) hbad
  | error e =>
    refine ⟨e, ?_⟩
    have hrun : eachRow (restoreCheck D) rows d = ⟨[], .error e⟩ := by rw [← hw, ← hres]; rfl
    rw [compactRestore, Act.bind_run_error hrun]

/-- **A transaction that can be undone is undone**; a call that stops leaves it so or is done. -/
theorem compactRecover_steps (hu : Undoable D rows d₀) (hrows : (markerRows D).result d₀ = .ok rows)
    (h : Undo rows d₀ d) (hfree : Free rows uuids d) :
    ∃ ws, compactRecover D uuids d = ⟨ws, .ok ()⟩ ∧
      Steps (fun _ _ => False) d ws (fun d' => Undo rows d₀ d' ∨ Undone rows d₀ d')
        (Undone rows d₀) := by
  have hdir : d projectsDir = some .dir := h.dir.trans hu.dir
  have hrows' : (markerRows D).result d = .ok rows := by
    rw [markerRows_result, blob_marker, h.marker, ← blob_marker, ← markerRows_result, hrows]
  have hgood : ∀ row ∈ rows, row.existed = true → BackupGood D d row := by
    intro row hr hex
    obtain ⟨b, hb, hrest⟩ := hu.good row hr hex
    exact ⟨b, (h.backup row hr).trans hb, hrest⟩
  obtain ⟨hw, hok⟩ := eachRow_check (D := D) hdir hu.listed.valid
  have hcheck : eachRow (restoreCheck D) rows d = ⟨[], .ok ()⟩ := by
    rw [← hw, ← hok.2 hgood]
    rfl
  obtain ⟨ws, happly, hs⟩ := eachRow_apply hu (fun _ hx => hx) h hfree
  obtain ⟨hundo, -, hall⟩ := hs.final
  generalize hd₁ : applyAll ws d = d₁ at hundo hall
  have hfile : ∃ b, d₀ compactMarker = some (.file b) := by
    rw [markerRows_result, blob_marker] at hrows
    cases hx : d₀ compactMarker with
    | none => rw [hx] at hrows; cases hrows
    | some x =>
      cases x with
      | dir => rw [hx] at hrows; cases hrows
      | file b => exact ⟨b, rfl⟩
  obtain ⟨b, hb⟩ := hfile
  have hfind : d₁.find compactMarker = .found (.file b) :=
    Disk.find_top_some (hundo.marker.trans hb)
  have hremove := osRemoveFile_file hfind
  have hdone : Undone rows d₀ ((Write.remove compactMarker).apply d₁) := by
    refine ⟨by rw [Write.apply, Disk.set_self], fun row hr => ?_⟩
    have hne := path_ne (lastByte_target (hu.listed.valid row hr)) lastByte_marker (by decide)
    rw [Write.apply, Disk.set_ne _ _ hne, hall row hr]
  have hs₁ : Steps (fun _ _ => False) d₁ [.remove compactMarker]
      (fun d' => Undo rows d₀ d' ∨ Undone rows d₀ d') (Undone rows d₀) :=
    .whole (fun _ => rfl) (.inl hundo) (.inr hdone) hdone
  obtain ⟨vs, hclean, hs₂⟩ := eachRow_cleanup hu.listed (fun _ hx => hx) hdone
  refine ⟨[] ++ (ws ++ ([.remove compactMarker] ++ vs)), ?_, ?_⟩
  · rw [compactRecover_rows uuids hrows']
    exact Act.bind_run_run hcheck
      (Act.bind_run_run happly (hd₁ ▸ Act.bind_run_run hremove hclean))
  · rw [List.nil_append]
    exact (hs.weaken (fun _ h => Or.inl h) fun _ h => h).append
      (hd₁ ▸ hs₁.append (hs₂.weaken (fun _ h => Or.inr h) fun _ h => h))

/-! ## Any number of calls -/

/-- A call with free temporary names runs on `d` and stops, or ends, at `d'`. -/
def RecoverStep (D : Digest) (rows : List CompactRow) (d : Disk) (uuids : Bytes → Uuid)
    (d' : Disk) : Prop :=
  Free rows uuids d ∧ ∃ t, Crash ((compactRecover D uuids).writes d) d t d'

/-- **Whatever has been stopped before**, the transaction can be undone or is. -/
theorem recoverRuns (hu : Undoable D rows d₀) (hrows : (markerRows D).result d₀ = .ok rows)
    {ls : List (Bytes → Uuid)} (h : Runs (RecoverStep D rows) d₀ ls d) :
    Undo rows d₀ d ∨ Undone rows d₀ d := by
  refine h.inv (I := fun _ d => Undo rows d₀ d ∨ Undone rows d₀ d) (.inl (Undo.start rows d₀)) ?_
  rintro - d u d' hd ⟨hfree, t, hc⟩
  rcases hd with hd | hd
  · obtain ⟨ws, hrun, hs⟩ := compactRecover_steps hu hrows hd hfree
    rw [Act.writes, hrun] at hc
    exact hs.crash hc fun _ _ _ hf => hf
  · rw [Act.writes, compactRecover_none u hd.marker] at hc
    exact .inr (hc.nil ▸ hd)

end

/-- **Recovery is all or nothing, and can be repeated.** Without a marker nothing is done. With one
that is malformed, or that lists a backup that is missing or damaged, the call fails and writes
nothing. Otherwise, whatever number of calls have run before and wherever they were stopped, a call
succeeds and leaves every file as the marker says and no marker. -/
theorem compactRecover_atomic (D : Digest) (d : Disk) (hdir : d projectsDir = some .dir) :
    (d compactMarker = none → ∀ uuids, compactRecover D uuids d = ⟨[], .ok ()⟩) ∧
    (d compactMarker ≠ none → (¬ ∃ rows, (markerRows D).result d = .ok rows ∧
      ∀ row ∈ rows, row.existed = true → BackupGood D d row) →
      ∀ uuids, ∃ e, compactRecover D uuids d = ⟨[], .error e⟩) ∧
    (∀ rows, (markerRows D).result d = .ok rows →
      (∀ row ∈ rows, row.existed = true → BackupGood D d row) →
      (∀ row ∈ rows, d row.target ≠ some .dir) →
      ∀ ls d', Runs (RecoverStep D rows) d ls d' → ∀ uuids, Free rows uuids d' →
        (compactRecover D uuids).result d' = .ok () ∧
        (compactRecover D uuids).final d' compactMarker = none ∧
        ∀ row ∈ rows, (compactRecover D uuids).final d' row.target =
          if row.existed then d row.backup else none) := by
  refine ⟨fun h uuids => compactRecover_none uuids h, fun h hbad uuids => ?_, ?_⟩
  · cases hrows : (markerRows D).result d with
    | error e => exact compactRecover_malformed uuids h hrows
    | ok rows => exact compactRecover_damaged uuids hdir hrows fun hall => hbad ⟨rows, hrows, hall⟩
  · intro rows hrows hgood hfile ls d' hruns uuids hfree
    have hu : Undoable D rows d := ⟨markerRows_listed hrows, hdir, hgood, hfile⟩
    rcases recoverRuns hu hrows hruns with h | h
    · obtain ⟨ws, hrun, hs⟩ := compactRecover_steps hu hrows h hfree
      have hfinal : (compactRecover D uuids).final d' = applyAll ws d' := by
        rw [Act.final, Act.writes, hrun]
      rw [hfinal, Act.result, hrun]
      exact ⟨rfl, hs.final.marker, hs.final.target⟩
    · have hrun := compactRecover_none (D := D) uuids h.marker
      have hfinal : (compactRecover D uuids).final d' = d' := by
        rw [Act.final, Act.writes, hrun, applyAll_nil]
      rw [hfinal, Act.result, hrun]
      exact ⟨rfl, h.marker, h.target⟩

/-- A marker of one file that was there and one that was not. -/
def pairText : Bytes :=
  ascii "E " ++ hexDigest padDigest (ascii "old") ++ ascii " context.xcdn" ++ [10] ++
    ascii "M - journal.xcdn" ++ [10]

def pairMarker : Event := ⟨1, 0, .diagnostic, false, (uuidV4 fun _ => 0).val, [], pairText⟩

def pairDisk : Disk := fun p =>
  if p = compactMarker then some (.file (frameBytes padDigest pairMarker))
  else if p = projectsDir then some .dir
  else if p = [ascii "context.xcdn.compact.bak"] then some (.file (ascii "old"))
  else if p = [ascii "context.xcdn"] then some (.file (ascii "new"))
  else if p = [ascii "journal.xcdn"] then some (.file (ascii "new"))
  else none

def pairRows : List CompactRow :=
  [⟨ascii "context.xcdn", hexDigest padDigest (ascii "old"), true⟩, ⟨ascii "journal.xcdn", [], false⟩]

theorem pairMarker_ok : pairMarker.Ok where
  at_ge := by decide
  at_lt := by decide
  id_valid := (uuidV4 fun _ => 0).valid
  object := .inl rfl
  no_nul := by decide +kernel
  utf8 := utf8Valid_ascii (by decide +kernel)
  size := by decide +kernel
  seq_pos := by decide
  seq_lt := by decide

theorem pairDisk_rows : (markerRows padDigest).result pairDisk = .ok pairRows := by
  have htext : checkedText padDigest markerMax (frameBytes padDigest pairMarker) = .ok pairText :=
    checkedText_frameBytes pairMarker_ok (by decide +kernel)
  have hmarker : pairDisk compactMarker = some (.file (frameBytes padDigest pairMarker)) :=
    if_pos rfl
  have hparse : compactParse pairText = .ok pairRows := by decide +kernel
  rw [markerRows_result, blob_marker, hmarker]
  dsimp only [Except.bind]
  rw [htext]
  exact hparse

/-- The one file comes back and the other goes. -/
theorem compactRecover_atomic_pair :
    (compactRecover padDigest fun _ => uuidV4 fun _ => 0).final pairDisk [ascii "context.xcdn"] =
      some (.file (ascii "old")) ∧
    (compactRecover padDigest fun _ => uuidV4 fun _ => 0).final pairDisk [ascii "journal.xcdn"] =
      none := by
  obtain ⟨-, -, hall⟩ := (compactRecover_atomic padDigest pairDisk (by decide)).2.2 pairRows
    pairDisk_rows (by
      intro row hr hex
      simp only [pairRows, List.mem_cons, List.not_mem_nil, or_false] at hr
      rcases hr with rfl | rfl
      · exact ⟨ascii "old", by decide, by decide, rfl⟩
      · cases hex) (by
      intro row hr
      simp only [pairRows, List.mem_cons, List.not_mem_nil, or_false] at hr
      rcases hr with rfl | rfl <;> decide) [] pairDisk .nil (fun _ => uuidV4 fun _ => 0) (by
      intro row hr _
      simp only [pairRows, List.mem_cons, List.not_mem_nil, or_false] at hr
      rcases hr with rfl | rfl <;> decide)
  have hold := hall _ List.mem_cons_self
  have hnew := hall _ (List.mem_cons_of_mem _ List.mem_cons_self)
  have hcontext : CompactRow.target ⟨ascii "context.xcdn", hexDigest padDigest (ascii "old"), true⟩ =
      [ascii "context.xcdn"] := by decide
  have hjournal : CompactRow.target ⟨ascii "journal.xcdn", [], false⟩ = [ascii "journal.xcdn"] := by
    decide
  rw [hcontext] at hold
  rw [hjournal] at hnew
  have hbackup : pairDisk (CompactRow.backup
      ⟨ascii "context.xcdn", hexDigest padDigest (ascii "old"), true⟩) =
        some (.file (ascii "old")) := by decide
  exact ⟨hold.trans hbackup, hnew⟩

end Asper
