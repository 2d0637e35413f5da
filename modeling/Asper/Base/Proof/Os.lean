import Asper.Base.Os

/-! # File operations below a directory

What each operation of the shim does to a name in a directory that is there: its writes and its
result, in the form in which a run is put together (`Act.bind_run`). -/

namespace Asper

open Durable

section
variable {d : Disk} {q : Path} (n : Bytes)

theorem blob_child (h : d.find q = .found .dir) :
    blob d (q ++ [n]) = match d (q ++ [n]) with
      | none => .error .notFound
      | some .dir => .error .invalid
      | some (.file b) => .ok b := by
  rw [blob, Disk.find_child n h]
  cases d (q ++ [n]) with
  | none => rfl
  | some x => cases x <;> rfl

theorem writable_child (h : d.find q = .found .dir) (hn : d (q ++ [n]) ≠ some .dir) :
    writable d (q ++ [n]) = true := by
  rw [writable, Disk.find_child n h, List.dropLast_concat]
  cases hd : d (q ++ [n]) with
  | none => exact decide_eq_true h
  | some x =>
    cases x with
    | file b => rfl
    | dir => exact absurd hd hn

theorem withWritable_child {w : Write} (h : d.find q = .found .dir)
    (hn : d (q ++ [n]) ≠ some .dir) : withWritable (q ++ [n]) w d = ⟨[w], .ok ()⟩ := by
  rw [withWritable, Act.bind_run (w := []) (a := true)
    (by rw [Act.look, writable_child n h hn])]
  rfl

theorem osAppend_child (b : Bytes) (h : d.find q = .found .dir) (hn : d (q ++ [n]) ≠ some .dir) :
    osAppend (q ++ [n]) b d = ⟨[.append (q ++ [n]) b], .ok ()⟩ := withWritable_child n h hn

theorem osWriteFile_child (b : Bytes) (h : d.find q = .found .dir)
    (hn : d (q ++ [n]) ≠ some .dir) :
    osWriteFile (q ++ [n]) b d = ⟨[.create (q ++ [n]) b], .ok ()⟩ := withWritable_child n h hn

theorem osTruncate_child {b : Bytes} (size : Nat) (h : d.find q = .found .dir)
    (hn : d (q ++ [n]) = some (.file b)) :
    osTruncate (q ++ [n]) size d = ⟨[.truncate (q ++ [n]) size], .ok ()⟩ := by
  have hf : d.find (q ++ [n]) = .found (.file b) := by rw [Disk.find_child n h, hn]
  rw [osTruncate, Act.bind_run (w := []) (a := .found (.file b)) (by rw [Act.look, hf])]
  rfl

theorem osFileReplace_child {b : Bytes} (m : Bytes) (h : d.find q = .found .dir)
    (hn : d (q ++ [n]) = some (.file b)) (hm : d (q ++ [m]) ≠ some .dir) :
    osFileReplace (q ++ [n]) (q ++ [m]) d = ⟨[.rename (q ++ [n]) (q ++ [m])], .ok ()⟩ := by
  have hf : d.find (q ++ [n]) = .found (.file b) := by rw [Disk.find_child n h, hn]
  rw [osFileReplace, Act.bind_run (w := []) (a := .found (.file b)) (by rw [Act.look, hf])]
  have hw := withWritable_child (w := .rename (q ++ [n]) (q ++ [m])) m h hm
  dsimp only [applyAll_nil, List.nil_append]
  rw [Act.writes, Act.result, hw]

theorem fileSize_child (h : d.find q = .found .dir) :
    fileSize d (q ++ [n]) = match d (q ++ [n]) with
      | none => .error .notFound
      | some .dir => .ok 0
      | some (.file b) => .ok b.length := by
  rw [fileSize, Disk.find_child n h]
  cases d (q ++ [n]) with
  | none => rfl
  | some x => cases x <;> rfl

end

/-- A tolerated error is replaced by the default. -/
theorem orElse_run {α : Type} {m : Io α} {d : Disk} {ws : List Write} {r : Except Err α} (e : Err)
    (a : α) (h : m d = ⟨ws, r⟩) (hr : ∀ e', r = .error e' → e' = e) :
    orElse m e a d = ⟨ws, .ok (match r with | .ok x => x | .error _ => a)⟩ := by
  have ha : m.attempt d = ⟨ws, .ok r⟩ := by rw [Act.attempt, Act.writes, Act.result, h]
  rw [orElse, Act.bind_run ha]
  cases r with
  | ok x =>
    dsimp only [Act.writes_pure, Act.result_pure]
    rw [List.append_nil]
  | error e' =>
    dsimp only
    rw [if_pos (hr e' rfl), Act.writes_pure, Act.result_pure, List.append_nil]

theorem ignore_run {m : Io Unit} {d : Disk} {ws : List Write} {r : Except Err Unit}
    (h : m d = ⟨ws, r⟩) : ignore m d = ⟨ws, .ok ()⟩ := by
  have ha : m.attempt d = ⟨ws, .ok r⟩ := by rw [Act.attempt, Act.writes, Act.result, h]
  rw [ignore, Act.bind_run ha, Act.writes_pure, Act.result_pure, List.append_nil]

theorem require_run {c : Prop} [Decidable c] (e : Err) (d : Disk) (h : c) :
    require c e d = ⟨[], .ok ()⟩ := by
  rw [require, if_pos h]
  rfl

/-- A check that passes is left out. -/
theorem require_bind {β : Type} {c : Prop} [Decidable c] {f : Unit → Io β} {e : Err} {d : Disk}
    (h : c) : (require c e >>= f) d = f () d := by
  rw [Act.bind_run (require_run e d h)]
  rfl

theorem require_bind_fail {β : Type} {c : Prop} [Decidable c] {f : Unit → Io β} {e : Err}
    {d : Disk} (h : ¬ c) : (require c e >>= f) d = ⟨[], .error e⟩ := by
  rw [require, if_neg h]
  rfl

theorem require_fail {c : Prop} [Decidable c] (e : Err) (d : Disk) (h : ¬ c) :
    require c e d = ⟨[], .error e⟩ := by
  rw [require, if_neg h]
  rfl

theorem require_ok {c : Prop} [Decidable c] {e : Err} {d : Disk}
    (h : (require c e).result d = .ok ()) : c := by
  by_contra hc
  rw [Act.result, require_fail e d hc] at h
  cases h

/-! ## What the operations touch -/

section
variable {G : Path → Prop}

/-- The walk to a path stays in `G` when `G` holds every node on the way. -/
def Covers (G : Path → Prop) (p : Path) : Prop := ∀ r, r ≠ [] → r <+: p → G r

theorem Covers.find {p : Path} (h : Covers G p) {d d' : Disk} (hd : ∀ p, G p → d p = d' p) :
    d.find p = d'.find p := Disk.find_congr fun r hr hp => hd r (h r hr hp)

theorem Covers.self {p : Path} (h : Covers G p) (hp : p ≠ []) : G p := h p hp (List.prefix_refl p)

theorem Covers.dropLast {p : Path} (h : Covers G p) : Covers G p.dropLast := fun r hr hp =>
  h r hr (hp.trans p.dropLast_prefix)

theorem writable_congr {p : Path} (h : Covers G p) {d d' : Disk} (hd : ∀ p, G p → d p = d' p) :
    writable d p = writable d' p := by
  rw [writable, writable, h.find hd, h.dropLast.find hd]

theorem confined_osBlobOpen {p : Path} (h : Covers G p) : Act.Confined G (osBlobOpen p) :=
  .read fun d d' hd => by rw [blob, blob, h.find hd]

theorem confined_osFileSize {p : Path} (h : Covers G p) : Act.Confined G (osFileSize p) :=
  .read fun d d' hd => by rw [fileSize, fileSize, h.find hd]

theorem confined_osFileExists {p : Path} (h : Covers G p) : Act.Confined G (osFileExists p) :=
  .look fun d d' hd => by rw [h.find hd]

theorem confined_withWritable {p : Path} (h : Covers G p) {w : Write} (hw : ∀ r ∈ w.paths, G r) :
    Act.Confined G (withWritable p w) :=
  .bind (.look fun _ _ hd => writable_congr h hd) fun _ => .ite (.emit hw) (.fail _)

theorem confined_osAppend {p : Path} (h : Covers G p) (hp : p ≠ []) (b : Bytes) :
    Act.Confined G (osAppend p b) :=
  confined_withWritable h fun _ hr => List.mem_singleton.1 hr ▸ h.self hp

theorem confined_osWriteFile {p : Path} (h : Covers G p) (hp : p ≠ []) (b : Bytes) :
    Act.Confined G (osWriteFile p b) :=
  confined_withWritable h fun _ hr => List.mem_singleton.1 hr ▸ h.self hp

theorem confined_osFileReplace {s t : Path} (hs : Covers G s) (ht : Covers G t) (hs' : s ≠ [])
    (ht' : t ≠ []) : Act.Confined G (osFileReplace s t) := by
  refine .bind (.look fun _ _ hd => hs.find hd) fun x => ?_
  cases x with
  | absent => exact .fail _
  | blocked => exact .fail _
  | found n =>
    cases n with
    | dir => exact .fail _
    | file b =>
      refine confined_withWritable ht fun r hr => ?_
      simp only [Write.paths, List.mem_cons, List.not_mem_nil, or_false] at hr
      rcases hr with rfl | rfl
      · exact hs.self hs'
      · exact ht.self ht'

theorem confined_osRemoveFile {p : Path} (h : Covers G p) (hp : p ≠ []) :
    Act.Confined G (osRemoveFile p) := by
  refine .bind (.look fun _ _ hd => h.find hd) fun x => ?_
  cases x with
  | absent => exact .fail _
  | blocked => exact .fail _
  | found n =>
    cases n with
    | dir => exact .fail _
    | file b => exact .emit fun r hr => List.mem_singleton.1 hr ▸ h.self hp

theorem confined_osTruncate {p : Path} (h : Covers G p) (hp : p ≠ []) (size : Nat) :
    Act.Confined G (osTruncate p size) := by
  refine .bind (.look fun _ _ hd => h.find hd) fun x => ?_
  cases x with
  | absent => exact .fail _
  | blocked => exact .fail _
  | found n =>
    cases n with
    | dir => exact .fail _
    | file b => exact .emit fun r hr => List.mem_singleton.1 hr ▸ h.self hp

theorem confined_mkdirStep {p : Path} (h : G p) : Act.Confined G (mkdirStep p) := by
  refine .bind (.look fun _ _ hd => hd _ h) fun x => ?_
  cases x with
  | none => exact .emit fun r hr => List.mem_singleton.1 hr ▸ h
  | some n =>
    cases n with
    | dir => exact .pure _
    | file b => exact .fail _

theorem confined_mkdirFrom : ∀ {at_ rest : Path}, (∀ r, r ≠ [] → r <+: rest → G (at_ ++ r)) →
    Act.Confined G (mkdirFrom at_ rest)
  | _, [], _ => .pure _
  | at_, c :: rest, h =>
    .bind (confined_mkdirStep (h [c] (by simp) (by simp))) fun _ =>
      confined_mkdirFrom fun r _ hr => by simpa using h (c :: r) (by simp) (by simpa using hr)

theorem confined_osMkdirP {p : Path} (h : Covers G p) : Act.Confined G (osMkdirP p) :=
  confined_mkdirFrom fun r hr hp => h r hr hp

theorem confined_require {c : Prop} [Decidable c] (e : Err) : Act.Confined G (require c e) :=
  .ite (.pure _) (.fail _)

theorem confined_orElse {α : Type} {m : Io α} (h : Act.Confined G m) (e : Err) (a : α) :
    Act.Confined G (orElse m e a) :=
  .bind h.attempt fun x => by
    cases x with
    | ok a => exact .pure _
    | error e' => exact .ite (.pure _) (.fail _)

theorem confined_ignore {m : Io Unit} (h : Act.Confined G m) : Act.Confined G (ignore m) :=
  .bind h.attempt fun _ => .pure _

end

end Asper
