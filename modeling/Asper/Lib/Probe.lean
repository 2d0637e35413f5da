import Mathlib.Algebra.Group.Nat.Defs
import Mathlib.Data.List.Nodup
import Mathlib.Data.List.Perm.Subperm
import Mathlib.Data.Nat.Find
import Mathlib.Order.Basic

/-! # Open addressing

A table of slots with the number of an entry, one up, in each; 0 is an empty slot. `probe` walks from
a place to the next slot that is empty or holds the entry looked for. `Probed slots home n` says that
the slots hold the entries below `n`, each to be reached from its home without an empty slot on the
way: a walk then ends (`Probed.exists_stop`), finds what is there (`Probed.probe_found`) and nothing
else (`Probed.probe_empty`), and an entry added to the first empty slot can be reached
(`Probed.insert`). -/

namespace Durable

inductive Probe where
  | empty (pos : Nat)
  | found (entry : Nat)
  deriving DecidableEq

/-- Walk at most `fuel` slots; none when no slot stops the walk, or it leaves the table. -/
def probe (slots : List Nat) (hit : Nat → Option Bool) : Nat → Nat → Option Probe
  | 0, _ => none
  | fuel + 1, pos => slots[pos]?.bind fun s =>
    if s = 0 then some (.empty pos)
    else (hit (s - 1)).bind fun h =>
      if h then some (.found (s - 1))
      else probe slots hit fuel ((pos + 1) &&& (slots.length - 1))

section
variable {slots : List Nat} {hit : Nat → Option Bool} {n : Nat}

/-- The slot `d` steps after the home `h`. -/
def slotAt (slots : List Nat) (h d : Nat) : Option Nat := slots[(h + d) % slots.length]?

theorem and_mask {slots : List Nat} (hp : ∃ e, slots.length = 2 ^ e) (x : Nat) :
    x &&& (slots.length - 1) = x % slots.length := by
  obtain ⟨e, he⟩ := hp
  rw [he, Nat.and_two_pow_sub_one_eq_mod]

/-- A walk goes on over slots with other entries. -/
theorem probe_skip (hp : ∃ e, slots.length = 2 ^ e) (h : Nat) {d fuel : Nat}
    (hskip : ∀ e < d, ∃ i, slotAt slots h e = some (i + 1) ∧ hit i = some false) :
    probe slots hit (d + fuel) (h % slots.length) =
      probe slots hit fuel ((h + d) % slots.length) := by
  induction d generalizing h with
  | zero => rw [Nat.zero_add, Nat.add_zero]
  | succ d ih =>
    obtain ⟨i, hi, hf⟩ := hskip 0 (Nat.succ_pos d)
    rw [slotAt, Nat.add_zero] at hi
    have hnext : (h % slots.length + 1) &&& (slots.length - 1) = (h + 1) % slots.length := by
      rw [and_mask hp, Nat.mod_add_mod]
    rw [Nat.succ_add, probe, hi, Option.bind_some, if_neg (Nat.succ_ne_zero i), Nat.add_sub_cancel,
      hf, Option.bind_some, if_neg (by decide), hnext, ih (h + 1) fun e he => ?_]
    · rw [Nat.add_assoc, Nat.add_comm 1 d]
    · obtain ⟨j, hj, hf'⟩ := hskip (e + 1) (by omega)
      refine ⟨j, ?_, hf'⟩
      rw [slotAt, Nat.add_assoc, Nat.add_comm 1 e]
      exact hj

end

/-- The slots hold the entries below `n`, each within reach of its home. -/
structure Probed (slots : List Nat) (home : Nat → Nat) (n : Nat) : Prop where
  pow : ∃ e, slots.length = 2 ^ e
  bound : ∀ p s : Nat, slots[p]? = some s → s ≤ n
  inj : ∀ p q s : Nat, slots[p]? = some s → slots[q]? = some s → s ≠ 0 → p = q
  reach : ∀ i < n, ∃ d < slots.length, slotAt slots (home i) d = some (i + 1) ∧
    ∀ e < d, slotAt slots (home i) e ≠ some 0

namespace Probed

variable {slots : List Nat} {home : Nat → Nat} {n : Nat}

theorem pos (h : Probed slots home n) : 0 < slots.length := by
  obtain ⟨e, he⟩ := h.pow
  rw [he]
  exact Nat.two_pow_pos e

theorem slotAt_isSome (h : Probed slots home n) (b d : Nat) : ∃ s, slotAt slots b d = some s :=
  ⟨_, List.getElem?_eq_getElem (Nat.mod_lt _ h.pos)⟩

/-- With fewer entries than slots one is empty. -/
theorem exists_empty (h : Probed slots home n) (hn : n < slots.length) :
    ∃ p : Nat, slots[p]? = some 0 := by
  by_contra hno
  have hnodup : slots.Nodup := by
    refine List.nodup_iff_injective_getElem.2 fun p q hpq => Fin.ext ?_
    have hp : slots[p.val]? = some slots[p.val] := List.getElem?_eq_getElem p.2
    have hq : slots[q.val]? = some slots[q.val] := List.getElem?_eq_getElem q.2
    refine h.inj _ _ _ hp (hq.trans (congrArg some hpq.symm)) fun h0 => hno ⟨p, ?_⟩
    rw [hp, h0]
  have hsub : slots ⊆ (List.range n).map (· + 1) := by
    intro s hs
    obtain ⟨p, hp, rfl⟩ := List.getElem_of_mem hs
    have hget : slots[p]? = some slots[p] := List.getElem?_eq_getElem hp
    have h0 : slots[p] ≠ 0 := fun h0 => hno ⟨p, by rw [hget, h0]⟩
    have hle := h.bound p _ hget
    exact List.mem_map.2 ⟨slots[p] - 1, List.mem_range.2 (by omega), by omega⟩
  have := (List.subperm_of_subset hnodup hsub).length_le
  rw [List.length_map, List.length_range] at this
  omega

/-- **A walk ends**: some slot after the home is empty. -/
theorem exists_stop (h : Probed slots home n) (hn : n < slots.length) (b : Nat) :
    ∃ d < slots.length, slotAt slots b d = some 0 ∧ ∀ e < d, slotAt slots b e ≠ some 0 := by
  obtain ⟨p, hp⟩ := h.exists_empty hn
  have hpl : p < slots.length := (List.getElem?_eq_some_iff.1 hp).1
  have hex : ∃ d, d < slots.length ∧ slotAt slots b d = some 0 := by
    refine ⟨(p + (slots.length - b % slots.length)) % slots.length, Nat.mod_lt _ h.pos, ?_⟩
    have hb := Nat.mod_lt b h.pos
    rw [slotAt, Nat.add_mod_mod, ← Nat.mod_add_mod,
      show b % slots.length + (p + (slots.length - b % slots.length)) = p + slots.length by omega,
      Nat.add_mod_right, Nat.mod_eq_of_lt hpl, hp]
  obtain ⟨hlt, hspec⟩ := Nat.find_spec hex
  exact ⟨Nat.find hex, hlt, hspec, fun e he h0 => Nat.find_min hex he ⟨by omega, h0⟩⟩

/-- The entries before an empty slot are numbers of entries. -/
theorem entry_of_ne (h : Probed slots home n) {b d : Nat} (h0 : slotAt slots b d ≠ some 0) :
    ∃ i < n, slotAt slots b d = some (i + 1) := by
  obtain ⟨s, hs⟩ := h.slotAt_isSome b d
  have hne : s ≠ 0 := fun h' => h0 (h' ▸ hs)
  have hle := h.bound _ s hs
  exact ⟨s - 1, by omega, by rw [hs, Nat.sub_add_cancel (by omega)]⟩

theorem probe_found (h : Probed slots home n) (hit : Nat → Option Bool) {i : Nat} (hi : i < n)
    (hhit : ∀ j < n, hit j = some (decide (j = i))) {fuel : Nat} (hf : slots.length ≤ fuel) :
    probe slots hit fuel (home i % slots.length) = some (.found i) := by
  obtain ⟨d, hd, hat, hbefore⟩ := h.reach i hi
  -- the first slot that holds the entry
  have hex : ∃ d, d < slots.length ∧ slotAt slots (home i) d = some (i + 1) := ⟨d, hd, hat⟩
  obtain ⟨hlt, hspec⟩ := Nat.find_spec hex
  have hle : Nat.find hex ≤ d := Nat.find_min' hex ⟨hd, hat⟩
  obtain ⟨k, hk⟩ : ∃ k, fuel = Nat.find hex + (k + 1) := ⟨fuel - Nat.find hex - 1, by omega⟩
  rw [hk, probe_skip h.pow (home i) fun e he => ?_]
  · rw [slotAt] at hspec
    rw [probe, hspec, Option.bind_some, if_neg (Nat.succ_ne_zero i), Nat.add_sub_cancel,
      hhit i hi, decide_eq_true rfl, Option.bind_some, if_pos rfl]
  · obtain ⟨j, hj, hjat⟩ := h.entry_of_ne (hbefore e (by omega))
    refine ⟨j, hjat, ?_⟩
    rw [hhit j hj, decide_eq_false]
    rintro rfl
    exact Nat.find_min hex he ⟨by omega, hjat⟩

theorem probe_empty (h : Probed slots home n) (hn : n < slots.length) (hit : Nat → Option Bool)
    (hhit : ∀ j < n, hit j = some false) {fuel : Nat} (hf : slots.length ≤ fuel) (b : Nat) :
    ∃ d < slots.length, slotAt slots b d = some 0 ∧ (∀ e < d, slotAt slots b e ≠ some 0) ∧
      probe slots hit fuel (b % slots.length) = some (.empty ((b + d) % slots.length)) := by
  obtain ⟨d, hd, hat, hbefore⟩ := h.exists_stop hn b
  refine ⟨d, hd, hat, hbefore, ?_⟩
  obtain ⟨k, hk⟩ : ∃ k, fuel = d + (k + 1) := ⟨fuel - d - 1, by omega⟩
  rw [hk, probe_skip h.pow b fun e he => ?_]
  · rw [slotAt] at hat
    rw [probe, hat, Option.bind_some, if_pos rfl]
  · obtain ⟨j, hj, hjat⟩ := h.entry_of_ne (hbefore e he)
    exact ⟨j, hjat, hhit j hj⟩

/-- **An entry in the first empty slot** is within reach, and so are the others. -/
theorem insert (h : Probed slots home n) {d : Nat} (hd : d < slots.length)
    (hat : slotAt slots (home n) d = some 0)
    (hbefore : ∀ e < d, slotAt slots (home n) e ≠ some 0) :
    Probed (slots.set ((home n + d) % slots.length) (n + 1)) home (n + 1) := by
  generalize hp : (home n + d) % slots.length = p at *
  have hpl : p < slots.length := hp ▸ Nat.mod_lt _ h.pos
  have hempty : slots[p]? = some 0 := by
    rw [slotAt, hp] at hat
    exact hat
  have hget : ∀ q, (slots.set p (n + 1))[q]? = if p = q then some (n + 1) else slots[q]? := by
    intro q
    rw [List.getElem?_set, if_pos hpl]
  have hslot : ∀ b e, slotAt (slots.set p (n + 1)) b e =
      if p = (b + e) % slots.length then some (n + 1) else slotAt slots b e := by
    intro b e
    rw [slotAt, slotAt, List.length_set, hget]
  have hne : ∀ b e, slotAt slots b e ≠ some 0 → slotAt (slots.set p (n + 1)) b e ≠ some 0 := by
    intro b e he
    rw [hslot]
    split
    · exact fun h0 => Nat.succ_ne_zero n (Option.some.inj h0)
    · exact he
  refine ⟨?_, fun q s hs => ?_, fun q r s hq hr hs => ?_, fun i hi => ?_⟩
  · rw [List.length_set]
    exact h.pow
  · rw [hget] at hs
    split at hs
    · exact (Option.some.inj hs).symm.le
    · exact (h.bound q s hs).trans (Nat.le_succ n)
  · rw [hget] at hq hr
    by_cases hpq : p = q <;> by_cases hpr : p = r
    · exact hpq.symm.trans hpr
    · rw [if_pos hpq] at hq
      rw [if_neg hpr] at hr
      have := h.bound r s hr
      have := Option.some.inj hq
      omega
    · rw [if_neg hpq] at hq
      rw [if_pos hpr] at hr
      have := h.bound q s hq
      have := Option.some.inj hr
      omega
    · rw [if_neg hpq] at hq
      rw [if_neg hpr] at hr
      exact h.inj q r s hq hr hs
  · rw [List.length_set]
    by_cases hin : i = n
    · subst hin
      refine ⟨d, hd, ?_, fun e he => hne _ e (hbefore e he)⟩
      rw [hslot, if_pos hp.symm]
    · obtain ⟨d', hd', hat', hbefore'⟩ := h.reach i (by omega)
      refine ⟨d', hd', ?_, fun e he => hne _ e (hbefore' e he)⟩
      rw [hslot, if_neg]
      · exact hat'
      · intro hq
        rw [slotAt, ← hq, hempty] at hat'
        exact absurd (Option.some.inj hat') (Nat.succ_ne_zero i).symm

/-- Empty slots hold nothing. -/
theorem replicate (home : Nat → Nat) (e : Nat) : Probed (List.replicate (2 ^ e) 0) home 0 where
  pow := ⟨e, List.length_replicate⟩
  bound _ _ hs := (List.eq_of_mem_replicate (List.mem_of_getElem? hs)).le
  inj _ _ _ hs _ h0 := absurd (List.eq_of_mem_replicate (List.mem_of_getElem? hs)) h0
  reach i hi := absurd hi (Nat.not_lt_zero i)

end Probed

end Durable
