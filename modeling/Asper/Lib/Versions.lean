import Mathlib.Data.Finset.Card
import Mathlib.Data.List.Nodup

/-! # A log of versions

Each entry of a log is a version of the value with its key.

* `latest key es x`: the last version of `x`.
* `Versioned key rev es`: each entry is numbered one up from the version before it. Then the
  versions of a key count from 1 (`Versioned.revs`), and no two entries are the same version of
  the same key (`Versioned.nodup`). -/

namespace Durable

variable {ε κ : Type} [DecidableEq κ] (key : ε → κ) (rev : ε → Nat)

def latest (es : List ε) (x : κ) : Option ε := es.reverse.find? (key · = x)

/-- The number of the version of `x` that comes next. -/
def nextRev (es : List ε) (x : κ) : Nat := ((latest key es x).map rev).getD 0 + 1

/-- How many keys there are. -/
def keys (es : List ε) : Nat := (es.map key).toFinset.card

/-- The versions of `x` in turn. -/
def revs (es : List ε) (x : κ) : List Nat := (es.filter (key · = x)).map rev

inductive Versioned : List ε → Prop where
  | nil : Versioned []
  | snoc {es : List ε} {e : ε} (h : Versioned es) (he : rev e = nextRev key rev es (key e)) :
      Versioned (es ++ [e])

section
variable {key rev} {es : List ε} {e : ε} {x : κ}

@[simp] theorem latest_nil (x : κ) : latest key ([] : List ε) x = none := rfl

theorem latest_concat (es : List ε) (e : ε) (x : κ) :
    latest key (es ++ [e]) x = if key e = x then some e else latest key es x := by
  rw [latest, List.reverse_append, List.reverse_singleton, List.singleton_append, List.find?_cons]
  by_cases h : key e = x <;> simp [h, latest]

theorem latest_key (h : latest key es x = some e) : key e = x := by
  simpa using List.find?_some h

theorem latest_mem (h : latest key es x = some e) : e ∈ es :=
  List.mem_reverse.1 (List.mem_of_find?_eq_some h)

theorem latest_eq_none : latest key es x = none ↔ x ∉ es.map key := by
  rw [latest, List.find?_eq_none]
  simp only [List.mem_reverse, decide_eq_true_eq, List.mem_map, not_exists, not_and]

theorem keys_concat (es : List ε) (e : ε) :
    keys key (es ++ [e]) = if latest key es (key e) = none then keys key es + 1 else keys key es := by
  have hset : ((es ++ [e]).map key).toFinset = insert (key e) (es.map key).toFinset := by
    ext y
    simp [or_comm]
  unfold keys
  rw [hset]
  split
  · next h => exact Finset.card_insert_of_notMem fun hm => latest_eq_none.1 h (List.mem_toFinset.1 hm)
  · next h =>
    rw [latest_eq_none, not_not] at h
    rw [Finset.insert_eq_of_mem (List.mem_toFinset.2 h)]

theorem revs_concat (es : List ε) (e : ε) (x : κ) :
    revs key rev (es ++ [e]) x = if key e = x then revs key rev es x ++ [rev e]
      else revs key rev es x := by
  unfold revs
  by_cases h : key e = x <;> simp [h]

theorem Versioned.init (h : Versioned key rev (es ++ [e])) : Versioned key rev es := by
  generalize hl : es ++ [e] = l at h
  cases h with
  | nil => simp at hl
  | snoc h _ =>
    obtain ⟨rfl, -⟩ := List.append_inj' hl rfl
    exact h

/-- The last version of a key has the number of its versions. -/
theorem Versioned.last (h : Versioned key rev es) (x : κ) :
    ((latest key es x).map rev).getD 0 = (revs key rev es x).length := by
  induction h with
  | nil => rfl
  | @snoc es e _ he ih =>
    rw [latest_concat, revs_concat]
    split
    · next hx =>
      rw [List.length_append, List.length_singleton, ← ih, ← hx]
      exact he
    · exact ih

/-- **The versions of a key** count from 1. -/
theorem Versioned.revs (h : Versioned key rev es) (x : κ) :
    revs key rev es x = List.range' 1 (revs key rev es x).length := by
  induction h with
  | nil => rfl
  | @snoc es e h he ih =>
    rw [revs_concat]
    split
    · next hx =>
      rw [List.length_append, List.length_singleton, List.range'_concat, ← ih, he, hx, nextRev,
        h.last x, Nat.one_mul, Nat.add_comm]
    · exact ih

/-- **No version is logged twice.** -/
theorem Versioned.nodup (h : Versioned key rev es) : (es.map fun e => (key e, rev e)).Nodup := by
  induction h with
  | nil => exact List.nodup_nil
  | @snoc es e h he ih =>
    rw [List.map_append, List.map_singleton]
    refine List.nodup_append.2 ⟨ih, List.nodup_singleton _, ?_⟩
    rintro p hp q hq rfl
    obtain rfl := List.mem_singleton.1 hq
    obtain ⟨e', he', heq⟩ := List.mem_map.1 hp
    obtain ⟨hk, hr⟩ := Prod.mk.inj heq
    -- the number of the new entry is past all the old ones
    have hmem : rev e' ∈ Durable.revs key rev es (key e) :=
      List.mem_map.2 ⟨e', List.mem_filter.2 ⟨he', by simpa using hk⟩, rfl⟩
    rw [h.revs, List.mem_range'_1, hr, he, nextRev, h.last] at hmem
    omega

end

end Durable
