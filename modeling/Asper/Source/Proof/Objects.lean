import Asper.Base.Proof.Files
import Asper.Event.Proof.Damage
import Asper.Source.Objects
import Asper.Source.Proof.Store

/-! # What is put is read back

`readSlice_eq`: the loop over the chunks gives the range of the file when the hash of the whole file is
the one expected, and nothing otherwise. `objectPut_file` says what a put leaves, `objectReadRange_file`
and `objectReadRange_ok` what a read makes of a file. -/

namespace Asper

open Durable

/-! ## The loop -/

section
variable {content junk : Bytes} {offset take : Nat}

/-- What the loop has done when it comes to a position. -/
structure ReadTo (content junk : Bytes) (offset take : Nat) (s : SliceRead) : Prop where
  le : s.position ≤ content.length
  hashed : s.hashed = content.take s.position
  copied : Copied content junk offset take s.position s.copy

theorem ReadTo.chunk {s : SliceRead} (h : ReadTo content junk offset take s)
    (hlen : content.length < 2 ^ 64) (hrange : offset + take ≤ content.length) {chunk : Bytes}
    (hchunk : chunk = (content.drop s.position).take readBuffer) :
    ReadTo content junk offset take (sliceChunk offset take s chunk) ∧
      (sliceChunk offset take s chunk).position = s.position + chunk.length := by
  have hcl : chunk.length ≤ content.length - s.position := by
    rw [hchunk, List.length_take, List.length_drop]
    omega
  have hle := h.le
  have hpos : sizeAdd s.position chunk.length = s.position + chunk.length := sizeAdd_eq (by omega)
  have hend : sizeAdd offset take = offset + take := sizeAdd_eq (by omega)
  have hfirst : (if s.position < offset then offset else s.position) = max offset s.position := by
    split <;> omega
  have hlast : (if s.position + chunk.length < offset + take then s.position + chunk.length
      else offset + take) = min (s.position + chunk.length) (offset + take) := by
    split <;> omega
  have helem : ∀ i, i < chunk.length → chunk[i]? = content[s.position + i]? := fun i hi => by
    have hi' : i < readBuffer := by
      rw [hchunk, List.length_take] at hi
      omega
    rw [hchunk, List.getElem?_take_of_lt hi', List.getElem?_drop]
  have hhash : s.hashed ++ chunk = content.take (s.position + chunk.length) := by
    have hprefix : chunk = (content.drop s.position).take chunk.length := by
      conv_lhs => rw [hchunk]
      refine List.ext_getElem? fun i => ?_
      by_cases hi : i < chunk.length
      · rw [List.getElem?_take_of_lt hi, ← hchunk, helem i hi, List.getElem?_drop]
      · rw [← hchunk, List.getElem?_eq_none (by omega), List.getElem?_eq_none
          (by rw [List.length_take]; omega)]
    rw [h.hashed, List.take_add, ← hprefix]
  refine ⟨⟨?_, ?_, ?_⟩, hpos⟩
  · show sizeAdd s.position chunk.length ≤ content.length
    omega
  · show s.hashed ++ chunk = content.take (sizeAdd s.position chunk.length)
    rw [hpos, hhash]
  · rw [sliceChunk]
    dsimp only
    rw [hpos, hend, hfirst, hlast]
    split
    · next hmeet => exact h.copied.chunk helem hmeet
    · next hmiss => exact h.copied.skip (by omega)

theorem readSliceFrom_spec (hlen : content.length < 2 ^ 64) (hrange : offset + take ≤ content.length) :
    ∀ (fuel : Nat) {s : SliceRead}, ReadTo content junk offset take s →
      (content.length - s.position) / readBuffer < fuel →
      ∃ s', readSliceFrom content.length offset take fuel (content.drop s.position) s = .ok s' ∧
        ReadTo content junk offset take s' ∧ s'.position = content.length
  | 0, _, _, hf => absurd hf (Nat.not_lt_zero _)
  | fuel + 1, s, h, hf => by
    have hle := h.le
    rw [readSliceFrom]
    dsimp only
    generalize hc : (content.drop s.position).take readBuffer = chunk
    have hcl : chunk.length = min readBuffer (content.length - s.position) := by
      rw [← hc, List.length_take, List.length_drop]
    obtain ⟨hnext, hpos⟩ := h.chunk hlen hrange hc.symm
    rw [if_neg (by rw [sizeSub_eq hle hlen]; omega)]
    have hbuf : readBuffer = 8192 := rfl
    by_cases hlast : chunk.length < readBuffer
    · rw [if_pos hlast]
      by_cases hnil : chunk = []
      · rw [if_pos hnil]
        rw [hnil, List.length_nil] at hcl
        exact ⟨s, rfl, h, by omega⟩
      · rw [if_neg hnil]
        exact ⟨_, rfl, hnext, by omega⟩
    · have hnil : chunk ≠ [] := fun hn => by
        rw [hn, List.length_nil] at hlast
        omega
      have hfuel : (content.length - (sliceChunk offset take s chunk).position) / readBuffer < fuel := by
        rw [hbuf] at hf hcl hlast ⊢
        omega
      rw [if_neg hlast, if_neg hnil, List.drop_drop, show s.position + readBuffer =
        (sliceChunk offset take s chunk).position by omega]
      exact readSliceFrom_spec hlen hrange fuel hnext hfuel

/-- **Reading a range of a file** checks the whole file and gives the range. -/
theorem readSlice_eq (D : Digest) (expected : Bytes) (hlen : content.length < 2 ^ 64)
    (hrange : offset + take ≤ content.length) (hjunk : junk.length = take) :
    readSlice D content content.length expected offset take junk =
      if hexDigest D content = expected then .ok ((content.drop offset).take take)
      else .error .parse := by
  have hstart : ReadTo content junk offset take ⟨0, [], junk⟩ :=
    ⟨Nat.zero_le _, rfl, .start hjunk⟩
  obtain ⟨s, hrun, hs, hpos⟩ := readSliceFrom_spec hlen hrange
    (content.length / readBuffer + 1) hstart (Nat.lt_succ_self _)
  have hhash : s.hashed = content := by rw [hs.hashed, hpos, List.take_length]
  have hcopy : s.copy = (content.drop offset).take take := hs.copied.done (by omega) hrange
  have hrun' : readSliceFrom content.length offset take (content.length / readBuffer + 1) content
      ⟨0, [], junk⟩ = .ok s := hrun
  rw [readSlice, hrun']
  show (if s.position = content.length ∧ hexDigest D s.hashed = expected then Except.ok s.copy
    else Except.error Err.parse) = _
  rw [hpos, hhash, hcopy]
  simp only [true_and]

/-- The check of an object that is there is a read that keeps nothing. -/
theorem objectCheck_eq (D : Digest) (ref data : Bytes) : objectCheck D ref data =
    if objectBytes < data.length then .error .limit
    else (readSlice D data data.length (ref.drop 7) 0 0 []).map fun _ => () := by
  rw [objectCheck]
  split
  · rfl
  · next hle =>
    have hmax : objectBytes = 67108864 := rfl
    have hnone : 0 + 0 ≤ data.length := Nat.zero_le _
    rw [readSlice_eq D (ref.drop 7) (by omega) hnone rfl]
    split <;> rfl

end

/-! ## On a disk -/

section
variable {D : Digest} {d : Disk} {ref : Bytes}

/-- The path of an object could be named: its directory is there from then on. -/
theorem objectPath_ok {e : Err} {p : Path} (h : (sourceObjectPath ref e).result d = .ok p) :
    DirOk d objectsDir ∧ p = objectFile ref ∧ (sourceObjectPath ref e).final d = madeObjects d := by
  obtain ⟨_, hreq, h⟩ := Act.bind_eq_ok h
  have hv := require_ok hreq
  rw [Act.final, Act.writes, require_run e d hv, applyAll_nil] at h
  obtain ⟨_, hmk, h⟩ := Act.bind_eq_ok h
  obtain ⟨_, hstep, -⟩ := Act.bind_eq_ok (orFail_ok hmk)
  have hdir : DirOk d objectsDir := mkdirStep_ok hstep
  refine ⟨hdir, (Except.ok.inj h).symm, ?_⟩
  have hrun := Act.bind_run_run (f := fun _ => (pure (objectFile ref) : Io Path))
    (orFail_run e (osMkdirP_objectsDir hdir)) rfl
  rw [List.append_nil] at hrun
  rw [Act.final, Act.writes, sourceObjectPath, require_bind hv, hrun]
  exact applyAll_mkdirWrites hdir

theorem madeObjects_file (ref : Bytes) : madeObjects d (objectFile ref) = d (objectFile ref) :=
  Disk.set_ne _ _ (objectFile_ne ref)

/-- What opening an object's file finds, once the directory is there. -/
theorem blob_object (hd : d objectsDir = some .dir) (ref : Bytes) :
    osBlobOpen (objectFile ref) d = ⟨[], match d (objectFile ref) with
      | none => .error .notFound
      | some .dir => .error .invalid
      | some (.file b) => .ok b⟩ := by
  rw [osBlobOpen, Act.read]
  exact congrArg _ (blob_child (ref.drop 7 ++ ascii ".bin") (find_objectsDir hd))

theorem blob_object_ok (hd : d objectsDir = some .dir) {c : Bytes}
    (h : (osBlobOpen (objectFile ref)).result d = .ok c) : d (objectFile ref) = some (.file c) := by
  rw [Act.result, blob_object hd] at h
  split at h
  · cases h
  · cases h
  · next b hb => rw [hb, Except.ok.inj h]

/-- The range that a read is asked for. -/
def rangeOf (data : Bytes) (offset maxBytes : Nat) : ObjectRange :=
  let range := (data.drop offset).take (if maxBytes = 0 then data.length else maxBytes)
  ⟨range, range.length⟩

theorem readSlice_range {malloc : Malloc} {content expected : Bytes} {offset maxBytes take : Nat}
    (hlen : content.length < 2 ^ 64) (hoff : offset ≤ content.length)
    (htake : (if maxBytes ≠ 0 ∧ maxBytes < content.length - offset then maxBytes
      else content.length - offset) = take) :
    (do let copy ← readSlice D content content.length expected offset take (malloc take)
        pure ⟨copy, take⟩ : Except Err ObjectRange) =
      if hexDigest D content = expected then .ok (rangeOf content offset maxBytes)
      else .error .parse := by
  have hle : offset + take ≤ content.length := by
    rw [← htake]
    split <;> omega
  have hrange : (content.drop offset).take take =
      (content.drop offset).take (if maxBytes = 0 then content.length else maxBytes) := by
    rw [← htake]
    by_cases hz : maxBytes = 0
    · rw [if_neg (fun hc => hc.1 hz), if_pos hz, List.take_of_length_le (by rw [List.length_drop]),
        List.take_of_length_le (by rw [List.length_drop]; omega)]
    · by_cases hlt : maxBytes < content.length - offset
      · rw [if_pos ⟨hz, hlt⟩, if_neg hz]
      · rw [if_neg (fun hc => hlt hc.2), if_neg hz, List.take_of_length_le (by rw [List.length_drop]),
          List.take_of_length_le (by rw [List.length_drop]; omega)]
  have hsize : ((content.drop offset).take take).length = take := by
    rw [List.length_take, List.length_drop]
    omega
  rw [readSlice_eq D expected hlen hle (malloc take).2]
  split
  · show Except.ok (ObjectRange.mk _ take) = _
    rw [rangeOf, ← hrange, hsize]
  · rfl

/-- A read of an object's file: all of it is checked. -/
theorem objectReadRange_file (malloc : Malloc) (hv : sourceObjectValid ref = true)
    (hdir : DirOk d objectsDir) {content : Bytes} (hfile : d (objectFile ref) = some (.file content))
    (hlen : content.length ≤ objectBytes) (offset maxBytes : Nat) :
    (objectReadRange D malloc ref offset maxBytes).result d =
      if content.length < offset then .error .invalid
      else if hexDigest D content = ref.drop 7 then .ok (rangeOf content offset maxBytes)
      else .error .parse := by
  have hmax : objectBytes = 67108864 := rfl
  have hpath := sourceObjectPath_run hdir hv
  have hmk : applyAll (mkdirWrites d objectsDir) d = madeObjects d := applyAll_mkdirWrites hdir
  have hblob := blob_object (d := madeObjects d) (Disk.set_self ..) ref
  rw [madeObjects_file, hfile] at hblob
  rw [Act.result, objectReadRange, require_bind hv, Act.bind_run hpath, hmk]
  dsimp only
  rw [Act.result, Act.bind_run hblob]
  dsimp only
  rw [applyAll_nil, Act.result, require_bind hlen]
  by_cases hoff : offset ≤ content.length
  · have hlift : ∀ (x : Except Err Bytes) (n : Nat),
        ((Act.lift x >>= fun copy => pure ⟨copy, n⟩ : Io ObjectRange) (madeObjects d)).result =
          (do let copy ← x; pure ⟨copy, n⟩) := fun x n => by cases x <;> rfl
    rw [require_bind hoff, hlift, if_neg (show ¬ content.length < offset by omega)]
    exact readSlice_range (by omega) hoff rfl
  · rw [require_bind_fail hoff, if_pos (by omega)]

/-- A read that succeeds found a file with the digest the reference names. -/
theorem objectReadRange_ok {malloc : Malloc} {offset maxBytes : Nat} {r : ObjectRange}
    (h : (objectReadRange D malloc ref offset maxBytes).result d = .ok r) :
    ∃ content, d (objectFile ref) = some (.file content) ∧ hexDigest D content = ref.drop 7 := by
  obtain ⟨_, hreq, h1⟩ := Act.bind_eq_ok h
  have hv := require_ok hreq
  rw [Act.final, Act.writes, require_run .invalid d hv, applyAll_nil] at h1
  obtain ⟨path, hp, h1⟩ := Act.bind_eq_ok h1
  obtain ⟨hdir, rfl, hfinal⟩ := objectPath_ok hp
  rw [hfinal] at h1
  obtain ⟨content, hblob, h1⟩ := Act.bind_eq_ok h1
  have hfile := blob_object_ok (show madeObjects d objectsDir = some .dir from Disk.set_self ..) hblob
  rw [madeObjects_file] at hfile
  have hsilent : (osBlobOpen (objectFile ref)).final (madeObjects d) = madeObjects d :=
    Act.final_of_nil rfl
  rw [hsilent] at h1
  obtain ⟨_, hlen, -⟩ := Act.bind_eq_ok h1
  rw [objectReadRange_file malloc hv hdir hfile (require_ok hlen)] at h
  split at h
  · cases h
  · split at h
    · next hdigest => exact ⟨content, hfile, hdigest⟩
    · cases h

/-! ## Putting -/

variable {data : Bytes} {uuid : Uuid}

/-- A new object that could be written is in its file. -/
theorem objectWrite_file (hd : d objectsDir = some .dir)
    (h : (objectWrite D ref data uuid false).result d = .ok ()) :
    (objectWrite D ref data uuid false).final d objectsDir = some .dir ∧
      (objectWrite D ref data uuid false).final d (objectFile ref) = some (.file data) := by
  generalize ht : objectTmp ref uuid = t
  have htdir : t ≠ objectsDir := ht ▸ objectTmp_ne_dir ref uuid
  have htfile : objectFile ref ≠ t := ht ▸ (objectTmp_ne ref ref uuid).symm
  -- the two steps, of which the first makes the temporary file
  have hcreated : ((Write.create t data).apply d).find t = .found (.file data) := by
    have hdir : (d.set t (some (.file data))) objectsDir = some .dir := by
      rw [Disk.set_ne _ _ htdir.symm, hd]
    rw [Write.apply, ← ht, objectTmp]
    rw [← ht, objectTmp] at hdir
    exact Disk.find_child_some (find_objectsDir hdir) (Disk.set_self _ _ _)
  rw [objectWrite, if_neg Bool.false_ne_true, ht] at h ⊢
  cases hw : writable d t with
  | false =>
    have hwrite : osWriteFile t data d = ⟨[], .error .io⟩ := withWritable_false hw
    rw [Act.result_attempt_of (by rw [Act.result, Act.bind_run_error hwrite])] at h
    obtain ⟨_, -, hf⟩ := Act.bind_eq_ok h
    cases hf
  | true =>
    have hwrite : osWriteFile t data d = ⟨[.create t data], .ok ()⟩ := withWritable_true hw
    cases hw2 : writable ((Write.create t data).apply d) (objectFile ref) with
    | false =>
      have hreplace := (osFileReplace_file hcreated).trans
        (withWritable_false (w := .rename t (objectFile ref)) hw2)
      rw [Act.result_attempt_of (by rw [Act.result, Act.bind_run_run hwrite hreplace])] at h
      obtain ⟨_, -, hf⟩ := Act.bind_eq_ok h
      cases hf
    | true =>
      have hreplace := (osFileReplace_file hcreated).trans
        (withWritable_true (w := .rename t (objectFile ref)) hw2)
      have hrun : (do osWriteFile t data
                      osFileReplace t (objectFile ref) : Io Unit) d =
          ⟨[.create t data, .rename t (objectFile ref)], .ok ()⟩ := Act.bind_run_run hwrite hreplace
      rw [Act.final, Act.writes, Act.bind_run (Act.attempt_run hrun)]
      simp only [Act.writes_pure, List.append_nil, applyAll_cons, applyAll_nil, Write.apply,
        Disk.set_self]
      refine ⟨?_, ?_⟩
      · rw [Disk.set_ne _ _ htdir.symm, Disk.set_ne _ _ (objectFile_ne ref).symm,
          Disk.set_ne _ _ htdir.symm, hd]
      · rw [Disk.set_ne _ _ htfile, Disk.set_self]

/-- What a put that succeeds leaves, when no other text has the digest. -/
theorem objectPut_file (hD : ∀ b, D.sha b = D.sha data → b = data) {r : Bytes}
    (h : (objectPut D data uuid).result d = .ok r) :
    r = objectRef D data ∧ data.length ≤ objectBytes ∧
      (objectPut D data uuid).final d objectsDir = some .dir ∧
      (objectPut D data uuid).final d (objectFile (objectRef D data)) = some (.file data) := by
  obtain ⟨_, hreq, h1⟩ := Act.bind_eq_ok h
  have hlen := require_ok hreq
  rw [Act.final, Act.writes, require_run .limit d hlen, applyAll_nil] at h1
  have hput : (objectPut D data uuid).final d = (do
      let path ← sourceObjectPath (objectRef D data) .io
      let there ← osFileExists path
      objectWrite D (objectRef D data) data uuid there
      pure (objectRef D data) : Io Bytes).final d := by
    rw [Act.final, Act.final, Act.writes, Act.writes, objectPut, require_bind hlen]
  rw [hput]
  obtain ⟨path, hp, h2⟩ := Act.bind_eq_ok h1
  obtain ⟨hdir, rfl, hfinal⟩ := objectPath_ok hp
  rw [Act.final_bind hp, hfinal]
  rw [hfinal] at h2
  have hmade : madeObjects d objectsDir = some .dir := Disk.set_self ..
  generalize madeObjects d = d1 at h2 hmade ⊢
  have hexists := osFileExists_object hmade (objectRef D data)
  obtain ⟨there, he, h3⟩ := Act.bind_eq_ok h2
  have hthere : there = (d1 (objectFile (objectRef D data))).isSome := by
    rw [Act.result, hexists] at he
    exact (Except.ok.inj he).symm
  have hsame : (osFileExists (objectFile (objectRef D data))).final d1 = d1 := by
    rw [Act.final, Act.writes, hexists]
    rfl
  rw [Act.final_bind he, hsame]
  rw [hsame] at h3
  obtain ⟨_, hw, h4⟩ := Act.bind_eq_ok h3
  rw [Act.final_bind hw, Act.final_pure]
  refine ⟨(Except.ok.inj h4).symm, hlen, ?_⟩
  cases there with
  | true =>
    rw [objectWrite, if_pos rfl] at hw ⊢
    obtain ⟨old, hopen, hcheck⟩ := Act.bind_eq_ok hw
    have hfile := blob_object_ok hmade hopen
    rw [Act.result_lift, objectCheck] at hcheck
    split at hcheck
    · cases hcheck
    · split at hcheck
      · next hdigest =>
        obtain rfl : old = data := hD old (hexDigest_inj hdigest)
        rw [Act.final_bind hopen, Act.final_lift, Act.final_of_nil rfl]
        exact ⟨hmade, hfile⟩
      · cases hcheck
  | false =>
    exact objectWrite_file hmade hw

/-- Putting an object that is there writes nothing. -/
theorem objectPut_again (hdir : d objectsDir = some .dir) (hlen : data.length ≤ objectBytes)
    (hfile : d (objectFile (objectRef D data)) = some (.file data)) :
    objectPut D data uuid d = ⟨[], .ok (objectRef D data)⟩ := by
  have hpath := sourceObjectPath_run (d := d) (.inr hdir) (sourceObjectValid_objectRef D data)
  rw [mkdirWrites, if_neg (by rw [hdir]; simp)] at hpath
  have hexists := osFileExists_object hdir (objectRef D data)
  have hblob := blob_object hdir (objectRef D data)
  rw [hfile] at hexists hblob
  have hcheck : (Act.lift (objectCheck D (objectRef D data) data) : Io Unit) d = ⟨[], .ok ()⟩ := by
    rw [Act.lift, objectCheck, if_neg (by omega), if_pos (objectRef_drop D data).symm]
  have hwrite : objectWrite D (objectRef D data) data uuid true d = ⟨[], .ok ()⟩ := by
    rw [objectWrite, if_pos rfl]
    exact Act.bind_run_run hblob hcheck
  refine (require_bind hlen).trans (Act.bind_run_run hpath (Act.bind_run_run hexists ?_))
  exact Act.bind_run_run hwrite rfl

end

/-- **Objects are read back, and only as they were put.** After a put that succeeds every range of the
object is the range of the data, empty at its end and refused beyond it; to put the data again gives the
same reference and writes nothing; and no read of a file with other content under the reference gives
anything but an error. -/
theorem object_round_trip {D : Digest} {data : Bytes} (hD : ∀ b, D.sha b = D.sha data → b = data)
    {uuid : Uuid} {d : Disk} {ref : Bytes} (h : (objectPut D data uuid).result d = .ok ref) :
    (∀ (malloc : Malloc) (offset maxBytes : Nat),
      (objectReadRange D malloc ref offset maxBytes).result ((objectPut D data uuid).final d) =
        if data.length < offset then .error .invalid else .ok (rangeOf data offset maxBytes)) ∧
    (∀ uuid', objectPut D data uuid' ((objectPut D data uuid).final d) = ⟨[], .ok ref⟩) ∧
    ∀ (d' : Disk) (stored : Bytes), d' (objectFile ref) = some (.file stored) → stored ≠ data →
      ∀ (malloc : Malloc) (offset maxBytes : Nat),
        ∃ e, (objectReadRange D malloc ref offset maxBytes).result d' = .error e := by
  obtain ⟨rfl, hlen, hdir, hfile⟩ := objectPut_file hD h
  refine ⟨fun malloc offset maxBytes => ?_, fun uuid' => objectPut_again hdir hlen hfile,
    fun d' stored hstored hne malloc offset maxBytes => ?_⟩
  · rw [objectReadRange_file malloc (sourceObjectValid_objectRef D data) (.inr hdir) hfile hlen,
      if_pos (objectRef_drop D data).symm]
  · cases hr : (objectReadRange D malloc (objectRef D data) offset maxBytes).result d' with
    | error e => exact ⟨e, rfl⟩
    | ok r =>
      obtain ⟨content, hcontent, hdigest⟩ := objectReadRange_ok hr
      obtain rfl : stored = content := Node.file.inj (Option.some.inj (hstored.symm.trans hcontent))
      exact absurd (hD stored (hexDigest_inj hdigest)) hne

/-- A digest that tells one text from every other. -/
def oneDigest (data : Bytes) : Digest where
  sha b := if b = data then List.replicate 32 0 else List.replicate 32 1
  length_sha b := by split <;> rfl

/-- The middle of an object of three bytes, put into a fresh store. -/
theorem object_round_trip_three :
    (objectReadRange (oneDigest [7, 8, 9]) (fun n => ⟨List.replicate n 0, List.length_replicate⟩)
      (objectRef (oneDigest [7, 8, 9]) [7, 8, 9]) 1 1).result
        ((objectPut (oneDigest [7, 8, 9]) [7, 8, 9] (uuidV4 fun _ => 0)).final fun _ => none) =
      .ok ⟨[8], 1⟩ := by
  have hobjects : ObjectsAt (oneDigest [7, 8, 9]) (fun _ => True) fun _ => none :=
    ⟨.inl rfl, fun _ => .inl rfl, fun _ _ => nofun⟩
  have hlen : ([7, 8, 9] : Bytes).length ≤ objectBytes := by decide
  obtain ⟨ws, hput, -⟩ := objectPut_run hobjects (uuidV4 fun _ => 0) trivial hlen
  have hdigest : ∀ b, (oneDigest [7, 8, 9]).sha b = (oneDigest [7, 8, 9]).sha [7, 8, 9] →
      b = [7, 8, 9] := fun b hb => by
    by_contra hne
    simp [oneDigest, hne] at hb
  exact (object_round_trip hdigest (congrArg Outcome.result hput)).1 _ 1 1

end Asper
