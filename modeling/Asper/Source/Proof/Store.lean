import Asper.Source.Proof.Dirs
import Asper.Event.Proof.Frame

/-! # Registry, pins and objects on disk

* `RegistryAt d ss`: the registry lists the scopes `ss`. `registerScope_new` adds one,
  `registerScope_old` finds it there, `registerScope_full` has no place for it.
* `PinsAt d s ps`: the pin log of `s` has the rows `ps`; `pinsLoad_run` reads them.
* `ObjectsAt D Good d`: every object has the content its name says, and `Good` holds of it.
  `objectPut_run` stores one, `objectRead_run` reads it back.

A crash inside the append of a row leaves a file no reader takes; `RowCut` is that case. -/

namespace Asper

open Durable

def pinsFile (s : Bytes) : Path := scopeFile s (ascii "pins.log")

/-- The files of rows. -/
def RowFile (p : Path) : Prop := p = scopeIndex ∨ ∃ s, p = pinsFile s

/-- The append of a row was cut strictly inside. -/
def RowCut (w w' : Write) : Prop :=
  ∃ p b b', RowFile p ∧ w = .append p b ∧ w' = .append p b' ∧ b' ≠ [] ∧ b' ≠ b

/-- A row that is not cut inside lands whole or not at all. -/
theorem take_of_not_rowCut {p : Path} {b : Bytes} {k : Nat} (hp : RowFile p)
    (h : ¬ RowCut (.append p b) (.append p (b.take k))) : b.take k = [] ∨ b.take k = b := by
  by_contra hne
  rw [not_or] at hne
  exact h ⟨p, b, _, hp, rfl, rfl, hne⟩

/-! ## Registry -/

/-- The registry lists `ss`. -/
structure RegistryAt (d : Disk) (ss : List Bytes) : Prop where
  dir : DirOk d scopesDir
  file : d scopeIndex = none ∧ ss = [] ∨ d scopeIndex = some (.file (joinRows ss))
  valid : ∀ s ∈ ss, sourceScopeValid s = true
  nodup : ss.Nodup
  size : (joinRows ss).length ≤ scopeIndexBytes

theorem scopeChar_ascii {b : UInt8} (h : scopeChar b = true) : 32 < b ∧ b < 0x80 := by
  simp only [scopeChar, decide_eq_true_eq, UInt8.le_iff_toNat_le] at h
  simp only [UInt8.lt_iff_toNat_lt]
  simp only [UInt8.reduceToNat] at h ⊢
  rcases h with h | h | h | rfl | rfl | rfl
  · omega
  · omega
  · omega
  all_goals decide

theorem sourceScopeValid_char {s : Bytes} (h : sourceScopeValid s = true) :
    ∀ b ∈ s, 32 < b ∧ b < 0x80 := fun b hb => by
  simp only [sourceScopeValid, Bool.decide_and, Bool.and_eq_true, decide_eq_true_eq] at h
  exact scopeChar_ascii (List.all_eq_true.1 h.2.2.1 b hb)

theorem sourceScopeValid_no_newline {s : Bytes} (h : sourceScopeValid s = true) : 10 ∉ s :=
  fun hm => absurd (sourceScopeValid_char h 10 hm).1 (by decide)

theorem sourceScopeValid_length {s : Bytes} (h : sourceScopeValid s = true) :
    s ≠ [] ∧ s.length ≤ 64 := by
  simp only [sourceScopeValid, Bool.decide_and, Bool.and_eq_true, decide_eq_true_eq] at h
  exact ⟨h.1, h.2.1⟩

/-- The rows of valid names are a text without NUL. -/
theorem joinRows_text {ss : List Bytes} (h : ∀ s ∈ ss, sourceScopeValid s = true) :
    0 ∉ joinRows ss ∧ utf8Valid (joinRows ss) = true := by
  have key : ∀ b ∈ joinRows ss, b ≠ 0 ∧ b < 0x80 := fun b hb => by
    obtain ⟨s, hs, hb⟩ := List.mem_flatMap.1 hb
    rcases List.mem_append.1 hb with hb | hb
    · obtain ⟨h1, h2⟩ := sourceScopeValid_char (h s hs) b hb
      exact ⟨fun h0 => absurd h1 (by rw [h0]; decide), h2⟩
    · obtain rfl := List.mem_singleton.1 hb
      decide
  exact ⟨fun h0 => (key 0 h0).1 rfl, utf8Valid_ascii fun b hb => (key b hb).2⟩

section
variable {d : Disk} {ss : List Bytes} {s : Bytes}

theorem splitRows_registry (h : ∀ s ∈ ss, sourceScopeValid s = true) :
    splitRows (joinRows ss) = (ss, []) := by
  have := splitRows_joinRows (fun r hr => sourceScopeValid_no_newline (h r hr))
    (List.not_mem_nil : (10 : UInt8) ∉ [])
  rwa [List.append_nil] at this

theorem RegistryAt.data (h : RegistryAt d ss) : d.data scopeIndex = joinRows ss := by
  rcases h.file with ⟨hf, rfl⟩ | hf <;> rw [Disk.data, hf]
  rfl

theorem RegistryAt.ne_dir (h : RegistryAt d ss) : d scopeIndex ≠ some .dir := by
  rcases h.file with ⟨hf, -⟩ | hf <;> simp [hf]

/-- Reading the registry gives its rows. -/
theorem RegistryAt.read (h : RegistryAt d ss) (hd : d scopesDir = some .dir) :
    orElse (sourceTextRead scopeIndex scopeIndexBytes) .notFound [] d =
      ⟨[], .ok (joinRows ss)⟩ := by
  have hb := blob_child (ascii "index.log") (find_scopesDir hd)
  rcases h.file with ⟨hf, rfl⟩ | hf
  · have hf' : d (scopesDir ++ [ascii "index.log"]) = none := hf
    rw [hf'] at hb
    have hopen : osBlobOpen scopeIndex d = ⟨[], .error .notFound⟩ := by
      rw [osBlobOpen, Act.read]
      exact congrArg _ hb
    exact orElse_run _ _ (Act.bind_run_error hopen) (by simp)
  · have hf' : d (scopesDir ++ [ascii "index.log"]) = some (.file (joinRows ss)) := hf
    rw [hf'] at hb
    have hopen : osBlobOpen scopeIndex d = ⟨[], .ok (joinRows ss)⟩ := by
      rw [osBlobOpen, Act.read]
      exact congrArg _ hb
    have htext : sourceTextRead scopeIndex scopeIndexBytes d = ⟨[], .ok (joinRows ss)⟩ :=
      Act.bind_run_run hopen (Act.bind_run_run (require_run _ _ h.size)
        (Act.bind_run_run (require_run _ _ (joinRows_text h.valid)) rfl))
    exact orElse_run _ _ htext (by simp)

theorem joinRows_last (h : ∀ s ∈ ss, sourceScopeValid s = true) :
    joinRows ss = [] ∨ (joinRows ss).getLast? = some 10 := by
  cases ss with
  | nil => exact .inl rfl
  | cons s ss => exact .inr (joinRows_getLast (by simp))

theorem registerScope_eq (h : RegistryAt d ss) (hd : d scopesDir = some .dir) {ws : List Write}
    {r : Except Err Unit} (ha : addScopeRow s (joinRows ss) d = ⟨ws, r⟩) :
    registerScope s d = ⟨ws, r⟩ := by
  have hm : mkdirWrites d scopesDir = [] := by rw [mkdirWrites, if_neg (by simp [hd])]
  have h1 := orFail_run .io (osMkdirP_scopesDir (.inr hd))
  rw [hm] at h1
  exact Act.bind_run_run h1 (Act.bind_run_run (h.read hd)
    (Act.bind_run_run (require_run _ _ (joinRows_last h.valid)) ha))

theorem registerScope_old (h : RegistryAt d ss) (hd : d scopesDir = some .dir) (hs : s ∈ ss) :
    registerScope s d = ⟨[], .ok ()⟩ := by
  refine registerScope_eq h hd ?_
  rw [addScopeRow, splitRows_registry h.valid, if_pos hs]
  rfl

theorem registerScope_full (h : RegistryAt d ss) (hd : d scopesDir = some .dir) (hs : s ∉ ss)
    (hroom : scopeIndexBytes < (joinRows (ss ++ [s])).length) :
    registerScope s d = ⟨[], .error .limit⟩ := by
  refine registerScope_eq h hd ?_
  rw [addScopeRow, splitRows_registry h.valid, if_neg hs]
  rw [joinRows_append, List.length_append, joinRows_cons, joinRows_nil, List.length_append,
    List.length_singleton] at hroom
  exact Act.bind_run_error (require_fail _ _ (by omega))

theorem registerScope_new (h : RegistryAt d ss) (hd : d scopesDir = some .dir) (hs : s ∉ ss)
    (hroom : (joinRows (ss ++ [s])).length ≤ scopeIndexBytes) :
    registerScope s d = ⟨[.append scopeIndex (s ++ [10])], .ok ()⟩ := by
  refine registerScope_eq h hd ?_
  rw [addScopeRow, splitRows_registry h.valid, if_neg hs]
  rw [joinRows_append, List.length_append, joinRows_cons, joinRows_nil, List.length_append,
    List.length_singleton] at hroom
  exact Act.bind_run_run (require_run _ _ (by omega))
    (osAppend_child (ascii "index.log") _ (find_scopesDir hd) h.ne_dir)

/-- The registry with the row of one more scope. -/
theorem RegistryAt.push (h : RegistryAt d ss) (hv : sourceScopeValid s = true) (hs : s ∉ ss)
    (hroom : (joinRows (ss ++ [s])).length ≤ scopeIndexBytes) :
    RegistryAt ((Write.append scopeIndex (s ++ [10])).apply d) (ss ++ [s]) where
  dir := by
    rw [DirOk, Write.apply, Disk.set_ne _ _ (by decide)]
    exact h.dir
  file := .inr (by
    rw [Write.apply, Disk.set_self, h.data, joinRows_append, joinRows_cons, joinRows_nil])
  valid x hx := (List.mem_append.1 hx).elim (h.valid x)
    fun hx => List.mem_singleton.1 hx ▸ hv
  nodup := List.nodup_append.2 ⟨h.nodup, List.pairwise_singleton _ s, fun a ha b hb hab =>
    hs (List.mem_singleton.1 hb ▸ hab ▸ ha)⟩
  size := hroom

theorem RegistryAt.congr (h : RegistryAt d ss) {d' : Disk} (hd : DirOk d' scopesDir)
    (hi : d' scopeIndex = d scopeIndex) : RegistryAt d' ss :=
  ⟨hd, by rw [hi]; exact h.file, h.valid, h.nodup, h.size⟩

/-- Appending the row ends with the scope listed; stopped between whole writes the registry is as
it was or has the row. -/
theorem RegistryAt.push_steps (h : RegistryAt d ss) (hv : sourceScopeValid s = true) (hs : s ∉ ss)
    (hroom : (joinRows (ss ++ [s])).length ≤ scopeIndexBytes) :
    Steps RowCut d [.append scopeIndex (s ++ [10])]
      (fun d' => RegistryAt d' ss ∨ RegistryAt d' (ss ++ [s]))
      fun d' => RegistryAt d' (ss ++ [s]) := by
  have hp := h.push hv hs hroom
  refine .single (.inl h) (fun k w' hk hb => ?_) (.inr hp) hp
  cases hk
  rcases take_of_not_rowCut (.inl rfl) hb with he | he
  · rw [he]
    refine .inl ⟨?_, .inr ?_, h.valid, h.nodup, h.size⟩
    · rw [DirOk, Write.apply, Disk.set_ne _ _ (by decide)]
      exact h.dir
    · rw [Write.apply, Disk.set_self, h.data, List.append_nil]
  · rw [he]
    exact .inr hp

end

/-! ## Pins -/

/-- The text of a pin log. -/
def pinsBytes (ps : List Pin) : Bytes := ps.flatMap pinLine

/-- The pin log of `s` has the rows `ps`. -/
structure PinsAt (d : Disk) (s : Bytes) (ps : List Pin) : Prop where
  file : d (pinsFile s) = none ∧ ps = [] ∨ d (pinsFile s) = some (.file (pinsBytes ps))
  valid : ∀ p ∈ ps, uuidValid p.id = true
  size : (pinsBytes ps).length ≤ pinBytes

theorem length_pinLine {p : Pin} (h : uuidValid p.id = true) : (pinLine p).length = pinRow := by
  have := uuidShape_length h
  rw [pinLine, List.length_append, this]
  rfl

theorem parsePin_pinLine {p : Pin} (h : uuidValid p.id = true) : parsePin (pinLine p) = some p := by
  obtain ⟨id, pinned⟩ := p
  have hl : id.length = 36 := uuidShape_length h
  have hlen := length_pinLine h
  have h36 : (pinLine ⟨id, pinned⟩)[36]? = some 32 := by
    rw [pinLine, List.getElem?_append_right (by rw [hl]), hl]
    rfl
  have h37 : (pinLine ⟨id, pinned⟩)[37]? = some (if pinned then 49 else 48) := by
    rw [pinLine, List.getElem?_append_right (by rw [hl]; decide), hl]
    rfl
  have h38 : (pinLine ⟨id, pinned⟩)[38]? = some 10 := by
    rw [pinLine, List.getElem?_append_right (by rw [hl]; decide), hl]
    rfl
  have ht : (pinLine ⟨id, pinned⟩).take 36 = id := by rw [pinLine, ← hl, List.take_left]
  rw [parsePin, hlen, h36, h37, h38, ht, if_neg (by simp), if_neg (by rw [h]; simp)]
  cases pinned <;> rfl

theorem parsePins_pinsBytes : ∀ {ps : List Pin}, (∀ p ∈ ps, uuidValid p.id = true) →
    (pinsBytes ps).length = ps.length * pinRow ∧ parsePins ps.length (pinsBytes ps) = some ps
  | [], _ => ⟨rfl, rfl⟩
  | p :: ps, h => by
    have hp := h p (.head _)
    have hlen := length_pinLine hp
    obtain ⟨h1, h2⟩ := parsePins_pinsBytes fun q hq => h q (.tail _ hq)
    have hc : pinsBytes (p :: ps) = pinLine p ++ pinsBytes ps := List.flatMap_cons ..
    refine ⟨?_, ?_⟩
    · rw [hc, List.length_append, hlen, h1, List.length_cons, Nat.succ_mul, Nat.add_comm]
    · rw [List.length_cons, parsePins, hc, ← hlen, List.take_left, List.drop_left,
        parsePin_pinLine hp, h2]
      rfl

theorem pinsText_pinsBytes {ps : List Pin} (h : ∀ p ∈ ps, uuidValid p.id = true)
    (hs : (pinsBytes ps).length ≤ pinBytes) : pinsText (pinsBytes ps) = .ok ps := by
  obtain ⟨h1, h2⟩ := parsePins_pinsBytes h
  have hmod : ps.length * pinRow % pinRow = 0 := Nat.mul_mod_left ..
  have hdiv : ps.length * pinRow / pinRow = ps.length := Nat.mul_div_cancel _ (by decide)
  rw [pinsText, if_neg (by omega), h1, if_neg (by rw [hmod]; simp), hdiv, h2]

section
variable {d : Disk} {s : Bytes} {ps : List Pin}

theorem PinsAt.data (h : PinsAt d s ps) : d.data (pinsFile s) = pinsBytes ps := by
  rcases h.file with ⟨hf, rfl⟩ | hf <;> rw [Disk.data, hf]
  rfl

theorem PinsAt.ne_dir (h : PinsAt d s ps) : d (pinsFile s) ≠ some .dir := by
  rcases h.file with ⟨hf, -⟩ | hf <;> simp [hf]

theorem PinsAt.congr (h : PinsAt d s ps) {d' : Disk} (hd : d' (pinsFile s) = d (pinsFile s)) :
    PinsAt d' s ps := ⟨by rw [hd]; exact h.file, h.valid, h.size⟩

theorem PinsAt.made (h : PinsAt d s ps) : PinsAt (made d s) s ps := h.congr (made_file _)

/-- Loading the pins makes the directories and gives the rows. -/
theorem pinsLoad_run (hd : DirsOk d s) (h : PinsAt d s ps) :
    pinsLoad s d = ⟨dirWrites d s, .ok ps⟩ := by
  have h' : PinsAt (applyAll (dirWrites d s) d) s ps := by
    rw [applyAll_dirWrites hd]
    exact h.made
  have hdir : (applyAll (dirWrites d s) d).find (scopeDir s) = .found .dir := by
    rw [applyAll_dirWrites hd]
    exact find_scopeDir made_scopes made_dir
  have hb := blob_child (ascii "pins.log") hdir
  have hread : orElse (osBlobOpen (pinsFile s)) .notFound [] (applyAll (dirWrites d s) d) =
      ⟨[], .ok (pinsBytes ps)⟩ := by
    rcases h'.file with ⟨hf, rfl⟩ | hf
    · have hf' : (applyAll (dirWrites d s) d) (scopeDir s ++ [ascii "pins.log"]) = none := hf
      rw [hf'] at hb
      refine orElse_run (r := .error .notFound) _ _ ?_ (by simp)
      rw [osBlobOpen, Act.read]
      exact congrArg _ hb
    · have hf' : (applyAll (dirWrites d s) d) (scopeDir s ++ [ascii "pins.log"]) =
        some (.file (pinsBytes ps)) := hf
      rw [hf'] at hb
      refine orElse_run (r := .ok (pinsBytes ps)) _ _ ?_ (by simp)
      rw [osBlobOpen, Act.read]
      exact congrArg _ hb
  have hlift : (Act.lift (pinsText (pinsBytes ps)) : Io (List Pin))
      (applyAll [] (applyAll (dirWrites d s) d)) = ⟨[], .ok ps⟩ := by
    rw [Act.lift, pinsText_pinsBytes h.valid h.size]
  have := Act.bind_run_run (sourceScopePath_run hd (ascii "pins.log") .nomem)
    (f := fun path => do
      let data ← orElse (osBlobOpen path) .notFound []
      Act.lift (pinsText data)) (Act.bind_run_run hread hlift)
  rw [List.append_nil, List.append_nil] at this
  exact this

/-- The pin log with one more row. -/
theorem PinsAt.push (h : PinsAt d s ps) {p : Pin} (hp : uuidValid p.id = true)
    (hroom : (pinsBytes ps).length ≤ pinBytes - pinRow) :
    PinsAt ((Write.append (pinsFile s) (pinLine p)).apply d) s (ps ++ [p]) where
  file := .inr (by
    rw [Write.apply, Disk.set_self, h.data]
    simp [pinsBytes])
  valid x hx := (List.mem_append.1 hx).elim (h.valid x) fun hx => List.mem_singleton.1 hx ▸ hp
  size := by
    have := length_pinLine hp
    have hr : pinRow ≤ pinBytes := by decide
    simp only [pinsBytes, List.flatMap_append, List.flatMap_cons, List.flatMap_nil,
      List.append_nil, List.length_append] at hroom ⊢
    omega

theorem PinsAt.push_steps (h : PinsAt d s ps) {p : Pin} (hp : uuidValid p.id = true)
    (hroom : (pinsBytes ps).length ≤ pinBytes - pinRow) :
    Steps RowCut d [.append (pinsFile s) (pinLine p)]
      (fun d' => PinsAt d' s ps ∨ PinsAt d' s (ps ++ [p]))
      fun d' => PinsAt d' s (ps ++ [p]) := by
  have hq := h.push hp hroom
  refine .single (.inl h) (fun k w' hk hb => ?_) (.inr hq) hq
  cases hk
  rcases take_of_not_rowCut (.inr ⟨s, rfl⟩) hb with he | he
  · rw [he]
    refine .inl ⟨.inr ?_, h.valid, h.size⟩
    rw [Write.apply, Disk.set_self, h.data, List.append_nil]
  · rw [he]
    exact .inr hq

end

/-! ## Objects -/

theorem objectRef_drop (D : Digest) (data : Bytes) : (objectRef D data).drop 7 = hexDigest D data :=
  rfl

theorem isLowerHex_hexDigest (D : Digest) (data : Bytes) :
    (hexDigest D data).all isLowerHex = true := List.all_eq_true.2 fun b hb => by
  obtain ⟨x, -, hx⟩ := List.mem_flatMap.1 hb
  simp only [hexByte, List.mem_cons, List.not_mem_nil, or_false] at hx
  rcases hx with rfl | rfl
  · exact isLowerHex_hexDigit (shiftRight_lt x)
  · exact isLowerHex_hexDigit (and_lt x)

theorem sourceObjectValid_objectRef (D : Digest) (data : Bytes) :
    sourceObjectValid (objectRef D data) = true := by
  have hl : (objectRef D data).length = 71 := by
    rw [objectRef, List.length_append, length_hexDigest]
    rfl
  have ht : (objectRef D data).take 7 = ascii "sha256:" := rfl
  simp only [sourceObjectValid, hl, ht, objectRef_drop, isLowerHex_hexDigest, and_self,
    decide_true]

/-- Every object has the content its name says, and `Good` holds of it. -/
structure ObjectsAt (D : Digest) (Good : Bytes → Prop) (d : Disk) : Prop where
  dir : DirOk d objectsDir
  file : ∀ ref, d (objectFile ref) = none ∨ ∃ c, d (objectFile ref) = some (.file c) ∧ Good c ∧
    hexDigest D c = ref.drop 7 ∧ c.length ≤ objectBytes
  tmp : ∀ ref uuid, d (objectTmp ref uuid) ≠ some .dir

/-- A temporary name ends in a hex digit, an object's name does not. -/
theorem objectTmp_ne (ref ref' : Bytes) (uuid : Uuid) : objectTmp ref uuid ≠ objectFile ref' := by
  intro he
  have hn := congrArg List.getLast? (List.singleton_inj.1 (List.append_cancel_left he))
  have hl := uuidShape_length uuid.2
  have hne : uuid.val ≠ [] := fun h => by rw [h] at hl; cases hl
  rw [List.getLast?_append_of_ne_nil _ hne, List.getLast?_append_of_ne_nil _ (by decide),
    List.getLast?_eq_some_getLast hne] at hn
  have hb := Option.some.inj (hn.trans (show (ascii ".bin").getLast? = some 110 by decide))
  rcases shapeAux_mem uuid.2 (List.getLast_mem hne) with h | h
  · rw [hb] at h
    exact absurd h (by decide)
  · rw [hb] at h
    exact absurd h (by decide)

section
variable {D : Digest} {Good : Bytes → Prop} {d : Disk}

theorem find_objectsDir (h : d objectsDir = some .dir) : d.find objectsDir = .found .dir :=
  Disk.find_top_some h

theorem osMkdirP_objectsDir (h : DirOk d objectsDir) :
    osMkdirP objectsDir d = ⟨mkdirWrites d objectsDir, .ok ()⟩ := by
  have := Act.bind_run_run (f := fun _ => mkdirFrom objectsDir []) (mkdirStep_run h) rfl
  rw [List.append_nil] at this
  exact this

/-- `d` with the directory of objects. -/
def madeObjects (d : Disk) : Disk := d.set objectsDir (some .dir)

theorem objectFile_ne (ref : Bytes) : objectFile ref ≠ objectsDir := by
  simp [objectFile, objectsDir]

theorem objectTmp_ne_dir (ref : Bytes) (uuid : Uuid) : objectTmp ref uuid ≠ objectsDir := by
  simp [objectTmp, objectsDir]

theorem ObjectsAt.made (h : ObjectsAt D Good d) : ObjectsAt D Good (madeObjects d) where
  dir := .inr (Disk.set_self ..)
  file ref := by
    rw [madeObjects, Disk.set_ne _ _ (objectFile_ne ref)]
    exact h.file ref
  tmp ref uuid := by
    rw [madeObjects, Disk.set_ne _ _ (objectTmp_ne_dir ref uuid)]
    exact h.tmp ref uuid

theorem ObjectsAt.set_tmp (h : ObjectsAt D Good d) (ref : Bytes) (uuid : Uuid) {x : Option Node}
    (hx : x ≠ some .dir) : ObjectsAt D Good (d.set (objectTmp ref uuid) x) where
  dir := by
    rw [DirOk, Disk.set_ne _ _ (objectTmp_ne_dir ref uuid).symm]
    exact h.dir
  file ref' := by
    rw [Disk.set_ne _ _ (objectTmp_ne ref ref' uuid).symm]
    exact h.file ref'
  tmp ref' uuid' := by
    by_cases he : objectTmp ref' uuid' = objectTmp ref uuid
    · rw [he, Disk.set_self]
      exact hx
    · rw [Disk.set_ne _ _ he]
      exact h.tmp ref' uuid'

/-- The objects of `d` are all there in `d'`. -/
def Keeps (d d' : Disk) : Prop :=
  ∀ ref, d (objectFile ref) ≠ none → d' (objectFile ref) = d (objectFile ref)

theorem ObjectsAt.set_file (h : ObjectsAt D Good d) {ref c : Bytes} (hg : Good c)
    (hc : hexDigest D c = ref.drop 7) (hl : c.length ≤ objectBytes) :
    ObjectsAt D Good (d.set (objectFile ref) (some (.file c))) where
  dir := by
    rw [DirOk, Disk.set_ne _ _ (objectFile_ne ref).symm]
    exact h.dir
  file ref' := by
    by_cases he : objectFile ref' = objectFile ref
    · rw [he, Disk.set_self]
      have hn := List.append_cancel_right (List.singleton_inj.1 (List.append_cancel_left he))
      exact .inr ⟨c, rfl, hg, by rw [hc, hn], hl⟩
    · rw [Disk.set_ne _ _ he]
      exact h.file ref'
  tmp ref' uuid := by
    rw [Disk.set_ne _ _ (objectTmp_ne ref' ref uuid)]
    exact h.tmp ref' uuid

/-- The write of a new object, by way of its temporary file. -/
theorem objectWrite_new (h : ObjectsAt D Good d) (hd : d objectsDir = some .dir) {ref data : Bytes}
    (uuid : Uuid) (hr : d (objectFile ref) = none) (hg : Good data)
    (hc : hexDigest D data = ref.drop 7) (hl : data.length ≤ objectBytes) :
    ∃ ws, objectWrite D ref data uuid false d = ⟨ws, .ok ()⟩ ∧
      ∀ Bad, Steps Bad d ws (fun d' => ObjectsAt D Good d' ∧ Keeps d d')
        fun d' => ObjectsAt D Good d' ∧ Keeps d d' ∧ d' (objectFile ref) ≠ none := by
  have h1 := h.set_tmp ref uuid (x := some (.file data)) (by simp)
  have h1f : (d.set (objectTmp ref uuid) (some (.file data))) (objectFile ref) = none := by
    rw [Disk.set_ne _ _ (objectTmp_ne ref ref uuid).symm, hr]
  have h2 := (h1.set_file hg hc hl).set_tmp ref uuid (x := none) (by simp)
  have hk {x y : Option Node} : Keeps d (((d.set (objectTmp ref uuid) x).set (objectFile ref)
      (some (.file data))).set (objectTmp ref uuid) y) := fun ref' hf => by
    have hne : objectFile ref' ≠ objectFile ref := fun he => hf (he ▸ hr)
    rw [Disk.set_ne _ _ (objectTmp_ne ref ref' uuid).symm, Disk.set_ne _ _ hne,
      Disk.set_ne _ _ (objectTmp_ne ref ref' uuid).symm]
  have hk' {x : Option Node} : Keeps d (d.set (objectTmp ref uuid) x) := fun ref' _ => by
    rw [Disk.set_ne _ _ (objectTmp_ne ref ref' uuid).symm]
  have hw : osWriteFile (objectTmp ref uuid) data d =
      ⟨[.create (objectTmp ref uuid) data], .ok ()⟩ :=
    osWriteFile_child _ _ (find_objectsDir hd) (h.tmp ref uuid)
  have hr1 : osFileReplace (objectTmp ref uuid) (objectFile ref)
      (applyAll [.create (objectTmp ref uuid) data] d) =
      ⟨[.rename (objectTmp ref uuid) (objectFile ref)], .ok ()⟩ := by
    have hdir : (d.set (objectTmp ref uuid) (some (.file data))) objectsDir = some .dir := by
      rw [Disk.set_ne _ _ (objectTmp_ne_dir ref uuid).symm, hd]
    have hdst : (d.set (objectTmp ref uuid) (some (.file data))) (objectFile ref) ≠ some .dir := by
      rw [h1f]
      simp
    exact osFileReplace_child _ _ (find_objectsDir hdir)
      (Disk.set_self d (objectTmp ref uuid) (some (.file data))) hdst
  have happ : (Write.rename (objectTmp ref uuid) (objectFile ref)).apply
      (applyAll [.create (objectTmp ref uuid) data] d) =
      ((d.set (objectTmp ref uuid) (some (.file data))).set (objectFile ref)
        (some (.file data))).set (objectTmp ref uuid) none := by
    show ((d.set (objectTmp ref uuid) (some (.file data))).set (objectFile ref)
      ((d.set (objectTmp ref uuid) (some (.file data))) (objectTmp ref uuid))).set
        (objectTmp ref uuid) none = _
    rw [Disk.set_self]
  have hcreate : ∀ Bad, Steps Bad d [.create (objectTmp ref uuid) data]
      (fun d' => ObjectsAt D Good d' ∧ Keeps d d') fun _ => True := fun Bad =>
    .single ⟨h, fun _ _ => rfl⟩ (fun k w' hcut _ => by cases hcut; exact ⟨h.set_tmp ref uuid (by simp), hk'⟩)
      ⟨h1, hk'⟩ trivial
  refine ⟨[.create (objectTmp ref uuid) data] ++ [.rename (objectTmp ref uuid) (objectFile ref)],
    ?_, fun Bad => (hcreate Bad).append (.whole (fun _ => rfl) ⟨h1, hk'⟩ ?_ ?_)⟩
  · have hseq := Act.bind_run_run
      (f := fun _ => osFileReplace (objectTmp ref uuid) (objectFile ref)) hw hr1
    have ha := Act.attempt_run hseq
    rw [objectWrite, if_neg (by simp), Act.bind_run ha, Act.writes_pure, Act.result_pure,
      List.append_nil]
  · rw [happ]
    exact ⟨h2, hk⟩
  · rw [happ]
    refine ⟨h2, hk, ?_⟩
    rw [Disk.set_ne _ _ (objectTmp_ne ref ref uuid).symm, Disk.set_self]
    simp

/-- An object that is there is checked. -/
theorem objectWrite_old (h : ObjectsAt D Good d) (hd : d objectsDir = some .dir) {ref data : Bytes}
    (uuid : Uuid) (hr : d (objectFile ref) ≠ none) :
    objectWrite D ref data uuid true d = ⟨[], .ok ()⟩ := by
  obtain ⟨c, hc, -, hdig, hl⟩ := (h.file ref).resolve_left hr
  have hb := blob_child (ref.drop 7 ++ ascii ".bin") (find_objectsDir hd)
  have hc' : d (objectsDir ++ [ref.drop 7 ++ ascii ".bin"]) = some (.file c) := hc
  rw [hc'] at hb
  have hopen : osBlobOpen (objectFile ref) d = ⟨[], .ok c⟩ := by
    rw [osBlobOpen, Act.read]
    exact congrArg _ hb
  have hcheck : objectCheck D ref c = .ok () := by
    rw [objectCheck, if_neg (by omega), if_pos hdig]
  rw [objectWrite, if_pos rfl]
  exact Act.bind_run_run hopen (by rw [Act.lift, hcheck])

theorem osFileExists_object (hd : d objectsDir = some .dir) (ref : Bytes) :
    osFileExists (objectFile ref) d = ⟨[], .ok (d (objectFile ref)).isSome⟩ := by
  rw [osFileExists, Act.look, objectFile, Disk.find_child _ (find_objectsDir hd)]
  cases d (objectsDir ++ [ref.drop 7 ++ ascii ".bin"]) <;> rfl

/-- The path of an object, whose directory is made on the way. -/
theorem sourceObjectPath_run (h : DirOk d objectsDir) {ref : Bytes}
    (hv : sourceObjectValid ref = true) : sourceObjectPath ref .io d =
      ⟨mkdirWrites d objectsDir, .ok (objectFile ref)⟩ := by
  have hrun := Act.bind_run_run (f := fun _ => (pure (objectFile ref) : Io Path))
    (orFail_run .io (osMkdirP_objectsDir h)) rfl
  rw [List.append_nil] at hrun
  exact (require_bind hv).trans hrun

/-- **Storing an object** succeeds, keeps the others and, stopped anywhere, leaves whole objects
only. -/
theorem objectPut_run (h : ObjectsAt D Good d) {data : Bytes} (uuid : Uuid) (hg : Good data)
    (hl : data.length ≤ objectBytes) :
    ∃ ws, objectPut D data uuid d = ⟨ws, .ok (objectRef D data)⟩ ∧
      ∀ Bad, Steps Bad d ws (fun d' => ObjectsAt D Good d' ∧ Keeps d d') fun d' =>
        ObjectsAt D Good d' ∧ Keeps d d' ∧ d' (objectFile (objectRef D data)) ≠ none := by
  have hm := h.made
  have hk : Keeps d (madeObjects d) := fun ref _ => Disk.set_ne _ _ (objectFile_ne ref)
  have hmk : applyAll (mkdirWrites d objectsDir) d = madeObjects d := applyAll_mkdirWrites h.dir
  have hdir : madeObjects d objectsDir = some .dir := Disk.set_self ..
  obtain ⟨ws, hw, hsteps⟩ : ∃ ws, objectWrite D (objectRef D data) data uuid
      ((madeObjects d) (objectFile (objectRef D data))).isSome (madeObjects d) = ⟨ws, .ok ()⟩ ∧
      ∀ Bad, Steps Bad (madeObjects d) ws (fun d' => ObjectsAt D Good d' ∧ Keeps (madeObjects d) d')
        fun d' => ObjectsAt D Good d' ∧ Keeps (madeObjects d) d' ∧
          d' (objectFile (objectRef D data)) ≠ none := by
    cases hf : (madeObjects d) (objectFile (objectRef D data)) with
    | none => exact objectWrite_new hm hdir uuid hf hg rfl hl
    | some x =>
      have hne : (madeObjects d) (objectFile (objectRef D data)) ≠ none := by simp [hf]
      exact ⟨[], objectWrite_old hm hdir uuid hne,
        fun Bad => .nil ⟨hm, fun _ _ => rfl⟩ ⟨hm, fun _ _ => rfl, hne⟩⟩
  have hkk {d' : Disk} (hd' : Keeps (madeObjects d) d') : Keeps d d' := fun ref hr => by
    rw [← hk ref hr]
    exact hd' ref (by rw [hk ref hr]; exact hr)
  refine ⟨mkdirWrites d objectsDir ++ ws, ?_, fun Bad => Steps.append
    (Q := fun d' => d' = madeObjects d)
    (mkdirWrites_steps h.dir ⟨h, fun _ _ => rfl⟩ ⟨hm, hk⟩) (by
      rw [hmk]
      exact (hsteps Bad).weaken (fun d' h => ⟨h.1, hkk h.2⟩) fun d' h => ⟨h.1, hkk h.2.1, h.2.2⟩)⟩
  have hpath := sourceObjectPath_run h.dir (sourceObjectValid_objectRef D data)
  have hex := osFileExists_object hdir (objectRef D data)
  have htail := Act.bind_run_run (f := fun there => do
    objectWrite D (objectRef D data) data uuid there
    pure (objectRef D data)) hex (Act.bind_run_run hw rfl)
  rw [← hmk] at htail
  rw [List.append_nil] at htail
  exact (require_bind hl).trans (Act.bind_run_run hpath htail)

/-- Reading an object whose file holds `c`. -/
theorem objectRead_file (h : ObjectsAt D Good d) {ref c : Bytes} (hv : sourceObjectValid ref = true)
    (hc : d (objectFile ref) = some (.file c)) :
    objectRead D ref d = ⟨mkdirWrites d objectsDir, .ok c⟩ := by
  obtain ⟨c', hc', -, hdig, hl⟩ := (h.file ref).resolve_left (by rw [hc]; exact Option.some_ne_none _)
  obtain rfl : c = c' := Node.file.inj (Option.some.inj (hc.symm.trans hc'))
  have hmk : applyAll (mkdirWrites d objectsDir) d = madeObjects d := applyAll_mkdirWrites h.dir
  have hdir : madeObjects d objectsDir = some .dir := Disk.set_self ..
  have hb := blob_child (ref.drop 7 ++ ascii ".bin") (find_objectsDir hdir)
  have hfile : madeObjects d (objectsDir ++ [ref.drop 7 ++ ascii ".bin"]) = some (.file c) :=
    (Disk.set_ne _ _ (objectFile_ne ref)).trans hc
  rw [hfile] at hb
  have hopen : osBlobOpen (objectFile ref) (madeObjects d) = ⟨[], .ok c⟩ := by
    rw [osBlobOpen, Act.read]
    exact congrArg _ hb
  have hcheck : (Act.lift (objectCheck D ref c) : Io Unit) (madeObjects d) = ⟨[], .ok ()⟩ := by
    rw [Act.lift, objectCheck, if_neg (by omega), if_pos hdig]
  have hpath := sourceObjectPath_run h.dir hv
  have htail := Act.bind_run_run (f := fun data => do
    Act.lift (objectCheck D ref data)
    pure data) hopen (Act.bind_run_run hcheck rfl)
  rw [← hmk] at htail
  have hrun := Act.bind_run_run (f := fun path => do
    let data ← osBlobOpen path
    Act.lift (objectCheck D ref data)
    pure data) hpath htail
  simp only [List.append_nil] at hrun
  exact (require_bind hv).trans hrun

/-- Reading an object that is there. -/
theorem objectRead_run (h : ObjectsAt D Good d) {ref : Bytes} (hv : sourceObjectValid ref = true)
    (hr : d (objectFile ref) ≠ none) :
    ∃ c, Good c ∧ objectRead D ref d = ⟨mkdirWrites d objectsDir, .ok c⟩ := by
  obtain ⟨c, hc, hg, -⟩ := (h.file ref).resolve_left hr
  exact ⟨c, hg, objectRead_file h hv hc⟩

/-- An object that can be read is in its file. -/
theorem objectRead_ok (h : ObjectsAt D Good d) {ref c : Bytes}
    (hr : (objectRead D ref).result d = .ok c) :
    sourceObjectValid ref = true ∧ d (objectFile ref) = some (.file c) := by
  obtain ⟨_, hreq, hrest⟩ := Act.bind_eq_ok hr
  have hv : sourceObjectValid ref = true := require_ok hreq
  refine ⟨hv, ?_⟩
  cases hd : d (objectFile ref) with
  | none =>
    exfalso
    have hdir : madeObjects d objectsDir = some .dir := Disk.set_self ..
    have hb := blob_child (ref.drop 7 ++ ascii ".bin") (find_objectsDir hdir)
    have hfile : madeObjects d (objectsDir ++ [ref.drop 7 ++ ascii ".bin"]) = none :=
      (Disk.set_ne _ _ (objectFile_ne ref)).trans hd
    rw [hfile] at hb
    have hmk : applyAll (mkdirWrites d objectsDir) d = madeObjects d := applyAll_mkdirWrites h.dir
    have hopen : osBlobOpen (objectFile ref) (madeObjects d) = ⟨[], .error .notFound⟩ := by
      rw [osBlobOpen, Act.read]
      exact congrArg _ hb
    rw [← hmk] at hopen
    have hrun : objectRead D ref d = ⟨mkdirWrites d objectsDir ++ [], .error .notFound⟩ :=
      (require_bind hv).trans
        (Act.bind_run_run (sourceObjectPath_run h.dir hv) (Act.bind_run_error hopen))
    rw [Act.result, hrun] at hr
    cases hr
  | some x =>
    obtain ⟨c', hc', -⟩ := (h.file ref).resolve_left (by rw [hd]; exact Option.some_ne_none _)
    have hr' := congrArg Outcome.result (objectRead_file h hv hc')
    obtain rfl : c = c' := Except.ok.inj (hr.symm.trans hr')
    exact hd ▸ hc'

end

end Asper
