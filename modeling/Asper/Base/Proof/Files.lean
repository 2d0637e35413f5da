import Asper.Base.Files
import Asper.Base.Proof.Os

/-! # Replacing a file

`storeFileWrite` either puts the new file in the place of the old or changes nothing but its temporary
file (`storeFileWrite_cases`). -/

namespace Asper

open Durable

theorem temporaryFile_ne (p : Path) (uuid : Uuid) : temporaryFile p uuid ≠ p := by
  intro h
  have hlen := congrArg (fun q : Path => (q.getLastD []).length) h
  simp only [temporaryFile, ext, List.getLastD_concat, List.length_append] at hlen
  have : (ascii ".tmp-").length = 5 := rfl
  omega

section
variable {d : Disk} {p : Path}

theorem withWritable_true {w : Write} (h : writable d p = true) :
    withWritable p w d = ⟨[w], .ok ()⟩ :=
  Act.bind_run_run (w := []) (a := true) (by rw [Act.look, h]) rfl

theorem withWritable_false {w : Write} (h : writable d p = false) :
    withWritable p w d = ⟨[], .error .io⟩ :=
  Act.bind_run_run (w := []) (a := false) (by rw [Act.look, h]) rfl

theorem osFileReplace_file {s : Path} {b : Bytes} (h : d.find s = .found (.file b)) :
    osFileReplace s p d = withWritable p (.rename s p) d := by
  rw [osFileReplace, Act.bind_run (w := []) (a := .found (.file b)) (by rw [Act.look, h])]
  rfl

theorem osRemoveFile_file {b : Bytes} (h : d.find p = .found (.file b)) :
    osRemoveFile p d = ⟨[.remove p], .ok ()⟩ := by
  rw [osRemoveFile, Act.bind_run (w := []) (a := .found (.file b)) (by rw [Act.look, h])]
  rfl

/-- A file is written in a directory. -/
theorem writable_parent {q : Path} {n : Bytes} (h : writable d (q ++ [n]) = true) :
    d.find q = .found .dir := by
  unfold writable at h
  split at h
  · next hf => exact d.findFrom_parent n [] q hf
  · rw [List.dropLast_concat] at h
    exact of_decide_eq_true h
  · cases h

theorem writable_concat {p : Path} (h : writable d p = true) : ∃ q n, p = q ++ [n] := by
  rcases List.eq_nil_or_concat p with rfl | ⟨q, n, rfl⟩
  · cases h
  · exact ⟨q, n, List.concat_eq_append ..⟩

/-- **A file written under another name and then moved** is found where it was moved to. -/
theorem writeReplace_ok {t data : Bytes} {q : Path} {n : Bytes} (hne : q ++ [t] ≠ q ++ [n])
    (h : (writeReplace (q ++ [t]) (q ++ [n]) data).result d = .ok ()) :
    ((writeReplace (q ++ [t]) (q ++ [n]) data).final d).find (q ++ [n]) = .found (.file data) := by
  cases hw : writable d (q ++ [t]) with
  | false =>
    have hwrite : osWriteFile (q ++ [t]) data d = ⟨[], .error .io⟩ := withWritable_false hw
    rw [writeReplace, Act.result, Act.bind_run_error hwrite] at h
    cases h
  | true =>
    have hwrite : osWriteFile (q ++ [t]) data d = ⟨[.create (q ++ [t]) data], .ok ()⟩ :=
      withWritable_true hw
    have hdir := writable_parent hw
    generalize hd' : (Write.create (q ++ [t]) data).apply d = d'
    have hself : d' (q ++ [t]) = some (.file data) := by rw [← hd', Write.apply, Disk.set_self]
    have hdir' : d'.find q = .found .dir := by rw [← hd', Write.apply, Disk.find_set_child, hdir]
    have hmove : osFileReplace (q ++ [t]) (q ++ [n]) d' = _ :=
      osFileReplace_file (Disk.find_child_some hdir' hself)
    cases hw' : writable d' (q ++ [n]) with
    | false =>
      rw [withWritable_false hw'] at hmove
      rw [writeReplace, Act.result, Act.bind_run_run hwrite (hd'.symm ▸ hmove)] at h
      cases h
    | true =>
      rw [withWritable_true hw'] at hmove
      rw [Act.final, Act.writes, writeReplace, Act.bind_run_run hwrite (hd'.symm ▸ hmove),
        List.singleton_append, applyAll_cons, hd', applyAll_cons, applyAll_nil, Write.apply, hself]
      refine Disk.find_child_some (by rw [Disk.find_set_child, Disk.find_set_child, hdir']) ?_
      rw [Disk.set_ne _ _ hne.symm, Disk.set_self]

end

section
variable (p : Path) (data : Bytes) (uuid : Uuid) (d : Disk)

theorem osBlobCreate_run {t : Path} (h : creatable d t = true) :
    osBlobCreate t data d = ⟨[.create t data], .ok ()⟩ :=
  Act.bind_run_run (w := []) (a := true) (by rw [Act.look, h]) rfl

theorem find_created (h : creatable d (temporaryFile p uuid) = true) :
    ((Write.create (temporaryFile p uuid) data).apply d).find (temporaryFile p uuid) =
      .found (.file data) := by
  have hdir : d.find p.dropLast = .found .dir := by
    have := (of_decide_eq_true h).2
    rwa [temporaryFile, ext, List.dropLast_concat] at this
  rw [temporaryFile, ext, Write.apply]
  exact Disk.find_child_some (by rw [Disk.find_set_child, hdir]) (Disk.set_self _ _ _)

/-- A call that meets no refusal. -/
theorem storeFileWrite_run (hlen : data.length ≤ storeFileMax)
    (hc : creatable d (temporaryFile p uuid) = true)
    (hw : writable ((Write.create (temporaryFile p uuid) data).apply d) p = true) :
    storeFileWrite p data uuid d =
      ⟨[.create (temporaryFile p uuid) data, .rename (temporaryFile p uuid) p], .ok ()⟩ := by
  have hreplace := (osFileReplace_file (find_created p data uuid d hc)).trans
    (withWritable_true (w := .rename (temporaryFile p uuid) p) hw)
  rw [storeFileWrite, require_bind hlen]
  exact Act.bind_run_run (osBlobCreate_run data d hc)
    (Act.bind_run_run (Act.attempt_run hreplace) rfl)

/-- **The ways a call can end**: with the new file in place, or with nothing changed but the temporary
file. -/
theorem storeFileWrite_cases :
    (∃ e ws, storeFileWrite p data uuid d = ⟨ws, .error e⟩ ∧
      ∀ w ∈ ws, w.paths = [temporaryFile p uuid]) ∨
    storeFileWrite p data uuid d =
      ⟨[.create (temporaryFile p uuid) data, .rename (temporaryFile p uuid) p], .ok ()⟩ := by
  by_cases hlen : data.length ≤ storeFileMax
  swap
  · exact .inl ⟨.limit, [], by rw [storeFileWrite, require_bind_fail hlen], nofun⟩
  cases hc : creatable d (temporaryFile p uuid) with
  | false =>
    have hcreate : osBlobCreate (temporaryFile p uuid) data d = ⟨[], .error .io⟩ :=
      Act.bind_run_run (w := []) (a := false) (by rw [Act.look, hc]) rfl
    refine .inl ⟨.io, [], ?_, nofun⟩
    rw [storeFileWrite, require_bind hlen, Act.bind_run_error hcreate]
  | true =>
    cases hw : writable ((Write.create (temporaryFile p uuid) data).apply d) p with
    | true => exact .inr (storeFileWrite_run p data uuid d hlen hc hw)
    | false =>
      have hfind := find_created p data uuid d hc
      have hreplace := (osFileReplace_file hfind).trans
        (withWritable_false (w := .rename (temporaryFile p uuid) p) hw)
      have hremove := ignore_run (osRemoveFile_file hfind)
      refine .inl ⟨.io, [.create (temporaryFile p uuid) data] ++
        ([] ++ ([.remove (temporaryFile p uuid)] ++ [])), ?_, ?_⟩
      · rw [storeFileWrite, require_bind hlen]
        exact Act.bind_run_run (osBlobCreate_run data d hc)
          (Act.bind_run_run (Act.attempt_run hreplace) (Act.bind_run_run hremove rfl))
      · intro w hm
        simp only [List.nil_append, List.append_nil, List.cons_append, List.mem_cons,
          List.not_mem_nil, or_false] at hm
        rcases hm with rfl | rfl <;> rfl

/-- A call on a file of the root, when nothing stands in the way. -/
theorem storeFileWrite_top {n : Bytes} (hlen : data.length ≤ storeFileMax)
    (hn : d [n] ≠ some .dir) (ht : d (temporaryFile [n] uuid) = none) :
    storeFileWrite [n] data uuid d =
      ⟨[.create (temporaryFile [n] uuid) data, .rename (temporaryFile [n] uuid) [n]], .ok ()⟩ := by
  refine storeFileWrite_run [n] data uuid d hlen
    (decide_eq_true ⟨Disk.find_top_none ht, rfl⟩) (writable_child (q := []) n rfl ?_)
  show (d.set (temporaryFile [n] uuid) (some (.file data))) [n] ≠ some .dir
  rwa [Disk.set_ne _ _ (temporaryFile_ne [n] uuid).symm]

/-- After a success the file holds the data. -/
theorem storeFileWrite_ok (h : (storeFileWrite p data uuid).result d = .ok ()) :
    (storeFileWrite p data uuid).final d p = some (.file data) := by
  rcases storeFileWrite_cases p data uuid d with ⟨e, ws, hrun, -⟩ | hrun
  · rw [Act.result, hrun] at h
    cases h
  · have hne := (temporaryFile_ne p uuid).symm
    rw [Act.final, Act.writes, hrun]
    simp only [applyAll_cons, applyAll_nil, Write.apply]
    rw [Disk.set_ne _ _ hne, Disk.set_self, Disk.set_self]

/-- A call changes the file and its temporary file only. -/
theorem storeFileWrite_other {q : Path} (hp : q ≠ p) (ht : q ≠ temporaryFile p uuid) :
    (storeFileWrite p data uuid).final d q = d q := by
  rw [Act.final, Act.writes]
  refine applyAll_frame d fun w hw hm => ?_
  rcases storeFileWrite_cases p data uuid d with ⟨e, ws, hrun, hws⟩ | hrun
  · rw [hrun] at hw
    rw [hws w hw] at hm
    exact ht (List.mem_singleton.1 hm)
  · rw [hrun] at hw
    simp only [List.mem_cons, List.not_mem_nil, or_false] at hw
    rcases hw with rfl | rfl
    · exact ht (List.mem_singleton.1 hm)
    · simp only [Write.paths, List.mem_cons, List.not_mem_nil, or_false] at hm
      exact hm.elim ht hp

/-- A call that fails leaves the file as it was. -/
theorem storeFileWrite_error {e : Err} (h : (storeFileWrite p data uuid).result d = .error e) :
    (storeFileWrite p data uuid).final d p = d p := by
  rcases storeFileWrite_cases p data uuid d with ⟨e, ws, hrun, hws⟩ | hrun
  · rw [Act.final, Act.writes, hrun]
    refine applyAll_frame d fun w hw hm => ?_
    rw [hws w hw] at hm
    exact temporaryFile_ne p uuid (List.mem_singleton.1 hm).symm
  · rw [Act.result, hrun] at h
    cases h

end

end Asper
