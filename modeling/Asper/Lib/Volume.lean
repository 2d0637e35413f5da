import Mathlib.Data.List.AList
import Mathlib.Logic.Function.Basic

/-! # Directories that reach the medium when they are synced

A `Volume` holds the entries of every directory and those it had since it was synced last.

* `Volume.edit` changes the entries, `Volume.sync` brings them to the medium.
* `Crash lands v v'`: after a crash each name stands for what it stood for at some time since the
  last sync, up to what `lands` leaves of it.
* `Sure v k c P`: `P` holds of what the name `c` stands for in the directory `k`, now and after a
  crash. It is kept by every edit that leaves `c` alone (`Sure.edit`), and a sync makes it of what
  holds now (`sure_sync`). -/

namespace Durable

variable {κ ν ε : Type} [DecidableEq κ] [DecidableEq ν]

abbrev Entries (ν ε : Type) := AList fun _ : ν => ε

structure Dir (ν ε : Type) where
  now : Entries ν ε
  /-- What was there since the last sync. -/
  past : List (Entries ν ε)

abbrev Volume (κ ν ε : Type) := κ → Dir ν ε

namespace Volume

def now (v : Volume κ ν ε) (k : κ) : Entries ν ε := (v k).now

def versions (v : Volume κ ν ε) (k : κ) : List (Entries ν ε) := (v k).now :: (v k).past

def edit (v : Volume κ ν ε) (k : κ) (f : Entries ν ε → Entries ν ε) : Volume κ ν ε :=
  Function.update v k ⟨f (v k).now, (v k).now :: (v k).past⟩

def sync (v : Volume κ ν ε) (k : κ) : Volume κ ν ε := Function.update v k ⟨(v k).now, []⟩

/-- All edits of the directory have reached the medium. -/
def Clean (v : Volume κ ν ε) (k : κ) : Prop := (v k).past = []

def Crash (lands : ε → ε → Prop) (v v' : Volume κ ν ε) : Prop :=
  ∀ k, v'.Clean k ∧ ∀ c, ∃ es ∈ v.versions k, Option.Rel lands (es.lookup c) ((v'.now k).lookup c)

def Sure (v : Volume κ ν ε) (k : κ) (c : ν) (P : Option ε → Prop) : Prop :=
  ∀ es ∈ v.versions k, P (es.lookup c)

/-- `v'` came from `v` by edits and syncs that leave the name `c` of the directory `k` alone. -/
structure Spares (v v' : Volume κ ν ε) (k : κ) (c : ν) : Prop where
  now : (v'.now k).lookup c = (v.now k).lookup c
  versions : ∀ es ∈ v'.versions k, ∃ es' ∈ v.versions k, es.lookup c = es'.lookup c

section
variable {v v' : Volume κ ν ε} {k k' : κ} {c c' : ν} {P : Option ε → Prop}
  {f : Entries ν ε → Entries ν ε} {e : ε}

@[simp] theorem now_edit_self : (v.edit k f).now k = f (v.now k) := by simp [now, edit]

theorem now_edit_ne (h : k' ≠ k) : (v.edit k f).now k' = v.now k' := by simp [now, edit, h]

@[simp] theorem now_sync : (v.sync k).now k' = v.now k' := by
  by_cases h : k' = k
  · subst h
    simp [now, sync]
  · simp [now, sync, h]

@[simp] theorem versions_sync : (v.sync k).versions k = [v.now k] := by simp [versions, sync, now]

theorem versions_sync_ne (h : k' ≠ k) : (v.sync k).versions k' = v.versions k' := by
  simp [versions, sync, h]

@[simp] theorem versions_edit : (v.edit k f).versions k = f (v.now k) :: v.versions k := by
  simp [versions, edit, now]

theorem versions_edit_ne (h : k' ≠ k) : (v.edit k f).versions k' = v.versions k' := by
  simp [versions, edit, h]

theorem now_mem_versions : v.now k ∈ v.versions k := List.mem_cons_self

theorem clean_sync : (v.sync k).Clean k := by simp [Clean, sync]

theorem Clean.sync (h : v.Clean k) (k' : κ) : (v.sync k').Clean k := by
  by_cases hk : k = k'
  · subst hk
    exact clean_sync
  · simpa [Clean, Volume.sync, hk] using h

theorem Clean.edit_ne (h : v.Clean k) (hk : k ≠ k') : (v.edit k' f).Clean k := by
  simpa [Clean, edit, hk] using h

theorem Clean.versions (h : v.Clean k) : v.versions k = [v.now k] := by
  have h' : (v k).past = [] := h
  simp [Volume.versions, now, h']

/-! ## What is sure -/

theorem Sure.now (h : v.Sure k c P) : P ((v.now k).lookup c) := h _ now_mem_versions

/-- **The sync rule**. -/
theorem sure_sync (h : P ((v.now k).lookup c)) : (v.sync k).Sure k c P := by
  intro es hes
  rw [versions_sync, List.mem_singleton] at hes
  rwa [hes]

theorem Sure.sync (h : v.Sure k c P) (k' : κ) : (v.sync k').Sure k c P := by
  by_cases hk : k = k'
  · subst hk
    exact sure_sync h.now
  · intro es hes
    rw [versions_sync_ne hk] at hes
    exact h es hes

/-- **The edit rule**. -/
theorem Sure.edit (h : v.Sure k c P) (hf : k' = k → P ((f (v.now k)).lookup c)) :
    (v.edit k' f).Sure k c P := by
  by_cases hk : k = k'
  · subst hk
    intro es hes
    rw [versions_edit] at hes
    rcases List.mem_cons.1 hes with rfl | hes
    · exact hf rfl
    · exact h es hes
  · intro es hes
    rw [versions_edit_ne hk] at hes
    exact h es hes

theorem Sure.insert (h : v.Sure k c P) (hc : k' = k → c ≠ c') :
    (v.edit k' (AList.insert c' e)).Sure k c P :=
  h.edit fun hk => by rw [AList.lookup_insert_ne (hc hk)]; exact h.now

theorem Sure.erase (h : v.Sure k c P) (hc : k' = k → c ≠ c') :
    (v.edit k' (AList.erase c')).Sure k c P :=
  h.edit fun hk => by rw [AList.lookup_erase_ne (hc hk)]; exact h.now

theorem Sure.spares (h : v.Sure k c P) (hs : v.Spares v' k c) : v'.Sure k c P := by
  intro es hes
  obtain ⟨es', hes', he⟩ := hs.versions es hes
  rw [he]
  exact h es' hes'

/-- **The crash rule**: what is sure stays so when no crash can take it away. -/
theorem Sure.crash {lands : ε → ε → Prop} (h : v.Sure k c P) (hc : v.Crash lands v')
    (hP : ∀ o o', Option.Rel lands o o' → P o → P o') : v'.Sure k c P := by
  obtain ⟨hclean, hnow⟩ := hc k
  intro es hes
  rw [hclean.versions, List.mem_singleton] at hes
  obtain ⟨es', hes', hl⟩ := hnow c
  rw [hes]
  exact hP _ _ hl (h es' hes')

end

end Volume

end Durable
