import Mathlib.Data.List.TakeWhile

/-! # Texts in a buffer

A buffer holds texts, each with the terminator `z` behind it; a pointer is the number of a cell.
What would read a cell outside of the buffer is `none`, so a program of these functions stays inside
exactly when it gives a value.

`Stands z mem p t` says that the text `t` stands at `p`. Its rules give what each function reads
there; `find_some` and `find_none` are about what is not yet cut into texts. -/

namespace Buffer

variable {α : Type}

/-- `memcpy` of `n` cells. -/
def copy (mem : List α) (p n : Nat) : Option (List α) :=
  if p + n ≤ mem.length then some ((mem.drop p).take n) else none

/-- The text `t` stands at `p`. -/
structure Stands (z : α) (mem : List α) (p : Nat) (t : List α) : Prop where
  whole : z ∉ t
  there : ∃ rest, mem.drop p = t ++ z :: rest

/-! ## Where a text stands -/

section
variable {z c : α} {mem t : List α} {p n : Nat}

theorem stands_at (done rest : List α) (hz : z ∉ t) :
    Stands z (done ++ (t ++ z :: rest)) done.length t :=
  ⟨hz, rest, by simp⟩

theorem Stands.cell (h : Stands z mem p t) {i : Nat} (hi : i < t.length) : mem[p + i]? = t[i]? := by
  obtain ⟨-, rest, hrest⟩ := h
  rw [← List.getElem?_drop, hrest, List.getElem?_append_left hi]

theorem Stands.fin (h : Stands z mem p t) : mem[p + t.length]? = some z := by
  obtain ⟨-, rest, hrest⟩ := h
  rw [← List.getElem?_drop, hrest]
  simp

theorem Stands.drop (h : Stands z mem p t) (hn : n ≤ t.length) :
    Stands z mem (p + n) (t.drop n) := by
  obtain ⟨hz, rest, hrest⟩ := h
  refine ⟨fun hm => hz (List.mem_of_mem_drop hm), rest, ?_⟩
  rw [← List.drop_drop, hrest, List.drop_append_of_le_length hn]

theorem Stands.copy (h : Stands z mem p t) (hn : n ≤ t.length) : copy mem p n = some (t.take n) := by
  obtain ⟨-, rest, hrest⟩ := h
  have hlen := congrArg List.length hrest
  simp only [List.length_drop, List.length_append, List.length_cons] at hlen
  rw [Buffer.copy, if_pos (by omega), hrest, List.take_append_of_le_length hn]

/-- A text stays where it is when the buffer goes on behind it. -/
theorem Stands.append (h : Stands z mem p t) (more : List α) : Stands z (mem ++ more) p t := by
  obtain ⟨hz, rest, hrest⟩ := h
  have hle : p ≤ mem.length := by
    by_contra hlt
    rw [List.drop_eq_nil_of_le (by omega)] at hrest
    simp at hrest
  refine ⟨hz, rest ++ more, ?_⟩
  rw [List.drop_append_of_le_length hle, hrest]
  simp

/-- Cutting off a text writes the terminator over what is behind it. -/
theorem set_cut (done l rest : List α) :
    (done ++ (l ++ c :: rest)).set (done.length + l.length) z = done ++ (l ++ z :: rest) := by
  simp

end

/-! ## Reading -/

variable [DecidableEq α]

/-- `strncmp` with a whole word, which reads up to the first difference. -/
def beginsWith : List α → List α → Option Bool
  | _, [] => some true
  | [], _ :: _ => none
  | b :: rest, c :: w => if b = c then beginsWith rest w else some false

def begins (mem : List α) (p : Nat) (w : List α) : Option Bool := beginsWith (mem.drop p) w

/-- The text at the pointer, read to its end as `strlen` does. -/
def text (z : α) (mem : List α) (p : Nat) : Option (List α) :=
  if z ∈ mem.drop p then some ((mem.drop p).takeWhile (· ≠ z)) else none

def findFrom (z c : α) : List α → Nat → Option (Option Nat)
  | [], _ => none
  | b :: rest, p =>
    if b = c then some (some p) else if b = z then some none else findFrom z c rest (p + 1)

/-- `strchr`: the pointer to the first `c`, if there is one before the terminator. -/
def find (z : α) (mem : List α) (c : α) (p : Nat) : Option (Option Nat) :=
  findFrom z c (mem.drop p) p

variable {z c : α} {mem t : List α} {p : Nat}

theorem Stands.text (h : Stands z mem p t) : text z mem p = some t := by
  obtain ⟨hz, rest, hrest⟩ := h
  have hne : ∀ b ∈ t, decide (b ≠ z) = true := fun b hb =>
    decide_eq_true fun he => hz (he ▸ hb)
  rw [Buffer.text, hrest, if_pos (by simp), List.takeWhile_append_of_pos hne]
  simp

theorem beginsWith_append {rest w : List α} (hw : z ∉ w) :
    beginsWith (t ++ z :: rest) w = some (w.isPrefixOf t) := by
  induction w generalizing t with
  | nil => cases t <;> rfl
  | cons c w ih =>
    obtain ⟨hc, hw⟩ := not_or.1 (fun h => hw (List.mem_cons.2 h))
    cases t with
    | nil => simp [beginsWith, hc]
    | cons b t =>
      rw [List.cons_append, beginsWith, ih hw, List.isPrefixOf_cons₂]
      by_cases hb : b = c
      · simp [hb]
      · simp [hb, Ne.symm hb]

theorem Stands.begins (h : Stands z mem p t) {w : List α} (hw : z ∉ w) :
    begins mem p w = some (w.isPrefixOf t) := by
  obtain ⟨-, rest, hrest⟩ := h
  rw [Buffer.begins, hrest, beginsWith_append hw]

theorem findFrom_some {l rest : List α} (hz : z ∉ l) (hc : c ∉ l) :
    findFrom z c (l ++ c :: rest) p = some (some (p + l.length)) := by
  induction l generalizing p with
  | nil => simp [findFrom]
  | cons b l ih =>
    obtain ⟨hb, hz⟩ := not_or.1 (fun h => hz (List.mem_cons.2 h))
    obtain ⟨hb', hc⟩ := not_or.1 (fun h => hc (List.mem_cons.2 h))
    rw [List.cons_append, findFrom, if_neg (Ne.symm hb'), if_neg (Ne.symm hb), ih hz hc,
      List.length_cons]
    congr 2
    omega

theorem find_some {l : List α} (done rest : List α) (hz : z ∉ l) (hc : c ∉ l) :
    find z (done ++ (l ++ c :: rest)) c done.length = some (some (done.length + l.length)) := by
  rw [find, List.drop_left, findFrom_some hz hc]

theorem findFrom_none {l rest : List α} (hz : z ∉ l) (hc : c ∉ l) (hne : z ≠ c) :
    findFrom z c (l ++ z :: rest) p = some none := by
  induction l generalizing p with
  | nil => simp [findFrom, hne]
  | cons b l ih =>
    obtain ⟨hb, hz⟩ := not_or.1 (fun h => hz (List.mem_cons.2 h))
    obtain ⟨hb', hc⟩ := not_or.1 (fun h => hc (List.mem_cons.2 h))
    rw [List.cons_append, findFrom, if_neg (Ne.symm hb'), if_neg (Ne.symm hb), ih hz hc]

theorem find_none {l : List α} (done rest : List α) (hz : z ∉ l) (hc : c ∉ l) (hne : z ≠ c) :
    find z (done ++ (l ++ z :: rest)) c done.length = some none := by
  rw [find, List.drop_left, findFrom_none hz hc hne]

end Buffer
