import Mathlib.Data.List.Basic
import Mathlib.Logic.Function.Basic

/-! # A directory tree, the writes to it and what a crash leaves

* A `Disk` is a tree of named nodes, `Disk.find` walks a path from the top directory.
* A `Write` is one step of the file system; `Write.paths` are the nodes it can change
  (`Write.apply_other`).
* `Crash ws d t d'`: writing `ws` to `d` stopped and left `d'`; `t` is the write that was cut,
  with what landed of it. `Crash.append`, `Crash.frame` and `Crash.inv` take a run of writes
  apart. -/

namespace Durable

abbrev Bytes := List UInt8

instance Bytes.lawfulBEq : LawfulBEq Bytes := inferInstance

/-- The names on the way from the top directory. -/
abbrev Path := List Bytes

inductive Node where
  | file (data : Bytes)
  | dir
  deriving DecidableEq, Repr

abbrev Disk := Path → Option Node

/-- What walking a path meets: nothing, a file where a directory is needed, or a node. -/
inductive Lookup where
  | absent
  | blocked
  | found (n : Node)
  deriving DecidableEq, Repr

/-- Walk `rest` from the directory `at_`. -/
def Disk.findFrom (d : Disk) (at_ : Path) : Path → Lookup
  | [] => .found .dir
  | [c] => match d (at_ ++ [c]) with
    | none => .absent
    | some n => .found n
  | c :: c' :: rest => match d (at_ ++ [c]) with
    | none => .absent
    | some (.file _) => .blocked
    | some .dir => d.findFrom (at_ ++ [c]) (c' :: rest)

def Disk.find (d : Disk) (p : Path) : Lookup := d.findFrom [] p

/-- Below a directory the walk goes on to the node of that name. -/
theorem Disk.findFrom_child (d : Disk) (c : Bytes) : ∀ (at_ q : Path),
    d.findFrom at_ q = .found .dir →
    d.findFrom at_ (q ++ [c]) = match d (at_ ++ q ++ [c]) with
      | none => .absent
      | some n => .found n
  | at_, [], _ => by simp [findFrom]
  | at_, [a], h => by
    simp only [findFrom, List.cons_append, List.nil_append, List.append_assoc] at h ⊢
    split at h
    · cases h
    · next hd => rw [Lookup.found.inj h] at hd; rw [hd]
  | at_, a :: b :: q, h => by
    simp only [findFrom] at h
    split at h
    · cases h
    · cases h
    · next hd =>
      have := Disk.findFrom_child d c (at_ ++ [a]) (b :: q) h
      simp only [List.cons_append, findFrom, hd]
      simpa using this

theorem Disk.find_child {d : Disk} {q : Path} (c : Bytes) (h : d.find q = .found .dir) :
    d.find (q ++ [c]) = match d (q ++ [c]) with
      | none => .absent
      | some n => .found n := by
  simpa [find] using d.findFrom_child c [] q h

theorem Disk.find_child_some {d : Disk} {q : Path} {c : Bytes} {n : Node}
    (h : d.find q = .found .dir) (hn : d (q ++ [c]) = some n) : d.find (q ++ [c]) = .found n := by
  rw [Disk.find_child c h, hn]

/-- What is found lies in a directory. -/
theorem Disk.findFrom_parent (d : Disk) (c : Bytes) {n : Node} : ∀ (at_ q : Path),
    d.findFrom at_ (q ++ [c]) = .found n → d.findFrom at_ q = .found .dir
  | _, [], _ => rfl
  | at_, [a], h => by
    simp only [List.cons_append, List.nil_append, findFrom] at h ⊢
    split at h
    · cases h
    · cases h
    · next hd => rw [hd]
  | at_, a :: b :: q, h => by
    simp only [List.cons_append, findFrom] at h ⊢
    split at h
    · cases h
    · cases h
    · exact Disk.findFrom_parent d c (at_ ++ [a]) (b :: q) h

/-- A name at the top. -/
theorem Disk.find_top_some {d : Disk} {c : Bytes} {n : Node} (h : d [c] = some n) :
    d.find [c] = .found n := by
  simp only [find, findFrom, List.nil_append, h]

theorem Disk.find_top_none {d : Disk} {c : Bytes} (h : d [c] = none) : d.find [c] = .absent := by
  simp only [find, findFrom, List.nil_append, h]

/-- The walk to `q` depends on the nodes on the way only. -/
theorem Disk.findFrom_congr {d d' : Disk} : ∀ (at_ q : Path),
    (∀ r, r ≠ [] → r <+: q → d (at_ ++ r) = d' (at_ ++ r)) → d.findFrom at_ q = d'.findFrom at_ q
  | _, [], _ => rfl
  | _, [a], h => by
    simp only [findFrom, h [a] (by simp) (List.prefix_refl _)]
  | at_, a :: b :: q, h => by
    simp only [findFrom, h [a] (by simp) (by simp)]
    rw [Disk.findFrom_congr (at_ ++ [a]) (b :: q)
      fun r _ hp => by simpa using h (a :: r) (by simp) (by simpa using hp)]

theorem Disk.find_congr {d d' : Disk} {q : Path} (h : ∀ r, r ≠ [] → r <+: q → d r = d' r) :
    d.find q = d'.find q :=
  Disk.findFrom_congr [] q fun r hr hp => by simpa using h r hr hp

/-- The bytes of the file at `p`, none when there is no file. -/
def Disk.data (d : Disk) (p : Path) : Bytes :=
  match d p with
  | some (.file b) => b
  | _ => []

def Disk.set (d : Disk) (p : Path) (n : Option Node) : Disk := Function.update d p n

@[simp] theorem Disk.set_self (d : Disk) (p : Path) (n : Option Node) : d.set p n p = n :=
  Function.update_self ..

theorem Disk.set_ne (d : Disk) {p q : Path} (n : Option Node) (h : q ≠ p) : d.set p n q = d q :=
  Function.update_of_ne h ..

@[simp] theorem Disk.set_set (d : Disk) (p : Path) (n m : Option Node) :
    (d.set p n).set p m = d.set p m := Function.update_idem ..

theorem Disk.set_comm (d : Disk) {p q : Path} (n m : Option Node) (h : p ≠ q) :
    (d.set p n).set q m = (d.set q m).set p n := Function.update_comm h ..

/-- A change below the directory `q` leaves the walk to `q` as it is. -/
theorem Disk.find_set_child (d : Disk) (q : Path) (c : Bytes) (n : Option Node) :
    (d.set (q ++ [c]) n).find q = d.find q :=
  Disk.find_congr fun r _ hr => Disk.set_ne _ _ fun h => by
    have := hr.length_le
    rw [h, List.length_append, List.length_singleton] at this
    omega

inductive Write where
  | mkdir (p : Path)
  /-- Write at the end of the file, which is made when it is missing. -/
  | append (p : Path) (data : Bytes)
  /-- Truncate the file and write it anew. -/
  | create (p : Path) (data : Bytes)
  | rename (src dst : Path)
  | remove (p : Path)
  | truncate (p : Path) (size : Nat)
  deriving DecidableEq, Repr

def Write.apply (d : Disk) : Write → Disk
  | .mkdir p => d.set p (some .dir)
  | .append p b => d.set p (some (.file (d.data p ++ b)))
  | .create p b => d.set p (some (.file b))
  | .rename s t => (d.set t (d s)).set s none
  | .remove p => d.set p none
  | .truncate p n => d.set p (some (.file ((d.data p).take n)))

/-- The nodes a write can change. -/
def Write.paths : Write → List Path
  | .mkdir p | .append p _ | .create p _ | .remove p | .truncate p _ => [p]
  | .rename s t => [s, t]

theorem Write.apply_other {w : Write} {q : Path} (d : Disk) (h : q ∉ w.paths) :
    w.apply d q = d q := by
  cases w with
  | rename s t =>
    simp only [paths, List.mem_cons, List.not_mem_nil, or_false, not_or] at h
    rw [apply, Disk.set_ne _ _ h.1, Disk.set_ne _ _ h.2]
  | _ => exact Disk.set_ne _ _ (by simpa [paths] using h)

/-- A write does the same whatever a node it does not name is. -/
theorem Write.apply_set {w : Write} {q : Path} (d : Disk) (x : Option Node) (h : q ∉ w.paths) :
    w.apply (d.set q x) = (w.apply d).set q x := by
  have hdata : ∀ {p : Path}, p ≠ q → (d.set q x).data p = d.data p := fun hp => by
    rw [Disk.data, Disk.set_ne _ _ hp, Disk.data]
  cases w with
  | rename s t =>
    simp only [paths, List.mem_cons, List.not_mem_nil, or_false, not_or] at h
    rw [apply, apply, Disk.set_ne _ _ (Ne.symm h.1), Disk.set_comm _ _ _ h.2,
      Disk.set_comm _ _ _ h.1]
  | _ =>
    have hp := Ne.symm (fun hn => h (List.mem_singleton.2 hn))
    simp only [apply, hdata hp]
    exact Disk.set_comm _ _ _ hp.symm

def applyAll (ws : List Write) (d : Disk) : Disk := ws.foldl Write.apply d

@[simp] theorem applyAll_nil (d : Disk) : applyAll [] d = d := rfl

@[simp] theorem applyAll_cons (w : Write) (ws : List Write) (d : Disk) :
    applyAll (w :: ws) d = applyAll ws (w.apply d) := rfl

theorem applyAll_append (ws vs : List Write) (d : Disk) :
    applyAll (ws ++ vs) d = applyAll vs (applyAll ws d) := List.foldl_append ..

/-- What a write cut inside leaves behind: a prefix of its bytes. The other steps of the file
system happen whole or not at all. -/
def Write.cut (k : Nat) : Write → Option Write
  | .append p b => some (.append p (b.take k))
  | .create p b => some (.create p (b.take k))
  | _ => none

theorem Write.cut_paths {w w' : Write} {k : Nat} (h : w.cut k = some w') : w'.paths = w.paths := by
  cases w <;> simp only [cut, Option.some.injEq, reduceCtorEq] at h <;> subst h <;> rfl

/-- Writing a list of writes stopped: `t` is the write that was cut and the part of it that
landed, none when the run stopped between two writes. -/
inductive Crash : List Write → Disk → Option (Write × Write) → Disk → Prop where
  | stop (ws : List Write) (d : Disk) : Crash ws d none d
  | cut {w w' : Write} {k : Nat} (ws : List Write) (d : Disk) (h : w.cut k = some w') :
      Crash (w :: ws) d (some (w, w')) (w'.apply d)
  | step {w : Write} {ws : List Write} {d d' : Disk} {t : Option (Write × Write)}
      (h : Crash ws (w.apply d) t d') : Crash (w :: ws) d t d'

/-- A run of writes in two parts stops in the first or in the second. -/
theorem Crash.append {ws vs : List Write} {d d' : Disk} {t : Option (Write × Write)}
    (h : Crash (ws ++ vs) d t d') : Crash ws d t d' ∨ Crash vs (applyAll ws d) t d' := by
  induction ws generalizing d with
  | nil => exact .inr h
  | cons w ws ih =>
    cases h with
    | stop => exact .inl (.stop _ _)
    | cut _ _ h => exact .inl (.cut _ _ h)
    | step h => exact (ih h).imp .step id

theorem Crash.complete : ∀ (ws : List Write) (d : Disk), Crash ws d none (applyAll ws d)
  | [], d => .stop [] d
  | w :: ws, d => .step (Crash.complete ws (w.apply d))

/-- The write a crash cut is one of the writes under way. -/
theorem Crash.mem {ws : List Write} {d d' : Disk} {w w' : Write}
    (h : Crash ws d (some (w, w')) d') : w ∈ ws := by
  generalize ht : some (w, w') = t at h
  induction h with
  | stop => cases ht
  | cut => cases ht; exact List.mem_cons_self
  | step _ ih => exact List.mem_cons_of_mem _ (ih ht)

/-- **The frame**: a node none of the writes names stays as it was. -/
theorem Crash.frame {ws : List Write} {d d' : Disk} {t : Option (Write × Write)} {q : Path}
    (h : Crash ws d t d') (hq : ∀ w ∈ ws, q ∉ w.paths) : d' q = d q := by
  induction h with
  | stop => rfl
  | cut ws d h =>
    exact Write.apply_other d (Write.cut_paths h ▸ hq _ List.mem_cons_self)
  | step _ ih =>
    rw [ih fun w hw => hq w (List.mem_cons_of_mem _ hw),
      Write.apply_other _ (hq _ List.mem_cons_self)]

/-- A run of writes stops as it would whatever a node none of them names is. -/
theorem Crash.set {ws : List Write} {d d' : Disk} {t : Option (Write × Write)} {q : Path}
    (h : Crash ws d t d') (x : Option Node) (hq : ∀ w ∈ ws, q ∉ w.paths) :
    Crash ws (d.set q x) t (d'.set q x) := by
  induction h with
  | stop => exact .stop _ _
  | cut ws d h =>
    rw [← Write.apply_set d x (Write.cut_paths h ▸ hq _ List.mem_cons_self)]
    exact .cut _ _ h
  | step _ ih =>
    have ih' := ih fun w hw => hq w (List.mem_cons_of_mem _ hw)
    rw [← Write.apply_set _ x (hq _ List.mem_cons_self)] at ih'
    exact .step ih'

/-- A run of writes that starts with `w` stops before it, inside it or after it. -/
theorem Crash.cons {w : Write} {ws : List Write} {d d' : Disk} {t : Option (Write × Write)}
    (h : Crash (w :: ws) d t d') :
    d' = d ∨ (∃ k w', w.cut k = some w' ∧ t = some (w, w') ∧ d' = w'.apply d) ∨
      Crash ws (w.apply d) t d' := by
  cases h with
  | stop => exact .inl rfl
  | cut _ _ h => exact .inr (.inl ⟨_, _, h, rfl, rfl⟩)
  | step h => exact .inr (.inr h)

theorem Crash.nil {d d' : Disk} {t : Option (Write × Write)} (h : Crash [] d t d') : d' = d := by
  cases h
  rfl

/-- Writes below the directory `q` leave it a directory. -/
theorem Crash.find_dir {ws : List Write} {d d' : Disk} {t : Option (Write × Write)} {q : Path}
    (h : Crash ws d t d') (hq : ∀ w ∈ ws, ∀ p ∈ w.paths, q.length < p.length) :
    d'.find q = d.find q :=
  Disk.find_congr fun r _ hr => h.frame fun w hw hm =>
    absurd (hq w hw r hm) (Nat.not_lt.2 hr.length_le)

theorem applyAll_frame {ws : List Write} (d : Disk) {q : Path} (hq : ∀ w ∈ ws, q ∉ w.paths) :
    applyAll ws d q = d q :=
  (Crash.complete ws d).frame hq

/-- A property that every write keeps, whole or cut, holds wherever the run stops. -/
theorem Crash.inv {I : Disk → Prop} {ws : List Write} {d d' : Disk} {t : Option (Write × Write)}
    (h : Crash ws d t d')
    (hw : ∀ w ∈ ws, ∀ d, I d → I (w.apply d) ∧ ∀ k w', w.cut k = some w' → I (w'.apply d))
    (hd : I d) : I d' := by
  induction h with
  | stop => exact hd
  | cut ws d h => exact (hw _ List.mem_cons_self d hd).2 _ _ h
  | step _ ih =>
    exact ih (fun w h => hw w (List.mem_cons_of_mem _ h)) (hw _ List.mem_cons_self _ hd).1

/-! ## Runs of writes -/

/-- What a run of writes makes of a disk: `P` holds wherever it stops, unless the write that was
cut and what landed of it are `Bad`, and `Q` holds at the end. -/
structure Steps (Bad : Write → Write → Prop) (d : Disk) (ws : List Write) (P Q : Disk → Prop) :
    Prop where
  crash : ∀ {t d'}, Crash ws d t d' → (∀ w w', t = some (w, w') → ¬ Bad w w') → P d'
  final : Q (applyAll ws d)

section
variable {Bad : Write → Write → Prop} {P P' Q Q' R : Disk → Prop} {d : Disk} {ws vs : List Write}

theorem Steps.nil (hP : P d) (hQ : Q d) : Steps Bad d [] P Q :=
  ⟨fun h _ => h.nil ▸ hP, hQ⟩

theorem Steps.single {w : Write} (h : P d)
    (hcut : ∀ k w', w.cut k = some w' → ¬ Bad w w' → P (w'.apply d)) (hP : P (w.apply d))
    (hQ : Q (w.apply d)) : Steps Bad d [w] P Q where
  crash hc hb := by
    rcases hc.cons with rfl | ⟨k, w', hk, ht, rfl⟩ | hc
    · exact h
    · exact hcut k w' hk (hb _ _ ht)
    · exact hc.nil ▸ hP
  final := hQ

/-- A write that is never cut. -/
theorem Steps.whole {w : Write} (hw : ∀ k, w.cut k = none) (h : P d) (hP : P (w.apply d))
    (hQ : Q (w.apply d)) : Steps Bad d [w] P Q :=
  .single h (fun k w' hk => by rw [hw] at hk; cases hk) hP hQ

theorem Steps.append (h : Steps Bad d ws P Q) (h' : Steps Bad (applyAll ws d) vs P R) :
    Steps Bad d (ws ++ vs) P R where
  crash hc hb := hc.append.elim (h.crash · hb) (h'.crash · hb)
  final := by rw [applyAll_append]; exact h'.final

/-- Writes that name nodes of `G` only leave the others as they are. -/
theorem Steps.framed {G : Path → Prop} (h : Steps Bad d ws P Q)
    (hw : ∀ w ∈ ws, ∀ p ∈ w.paths, G p) :
    Steps Bad d ws (fun d' => P d' ∧ ∀ p, ¬ G p → d' p = d p)
      fun d' => Q d' ∧ ∀ p, ¬ G p → d' p = d p where
  crash hc hb := ⟨h.crash hc hb, fun _ hp => hc.frame fun w hm hpm => hp (hw w hm _ hpm)⟩
  final := ⟨h.final, fun _ hp => applyAll_frame d fun w hm hpm => hp (hw w hm _ hpm)⟩

theorem Steps.weaken (h : Steps Bad d ws P Q) (hP : ∀ d', P d' → P' d') (hQ : ∀ d', Q d' → Q' d') :
    Steps Bad d ws P' Q' :=
  ⟨fun hc hb => hP _ (h.crash hc hb), hQ _ h.final⟩

end

end Durable
