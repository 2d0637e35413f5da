import Mathlib.Data.List.Basic

/-!
# Folding over the blocks of a stream

`absorb f B n s xs` runs `f` over the first `n` blocks of `B` elements. A consumer that is fed the
stream piece by piece keeps the state after the whole blocks and a buffer with the rest:
`Absorbed f B s xs s' buf`.
-/

namespace Blocks

variable {α σ τ : Type} {f : σ → List α → σ} {B n : Nat} {s s' : σ} {xs ys buf : List α}

def absorb (f : σ → List α → σ) (B : Nat) : Nat → σ → List α → σ
  | 0, s, _ => s
  | n + 1, s, xs => absorb f B n (f s (xs.take B)) (xs.drop B)

theorem absorb_concat (hx : xs.length = n * B) (hy : ys.length = B) :
    absorb f B (n + 1) s (xs ++ ys) = f (absorb f B n s xs) ys := by
  induction n generalizing s xs with
  | zero =>
    obtain rfl : xs = [] := List.eq_nil_of_length_eq_zero (by rw [hx, Nat.zero_mul])
    simp only [absorb, List.nil_append, List.take_of_length_le (Nat.le_of_eq hy)]
  | succ n ih =>
    have hB : B ≤ xs.length := by
      rw [hx, Nat.succ_mul]
      exact Nat.le_add_left B _
    rw [absorb, List.take_append_of_le_length hB, List.drop_append_of_le_length hB,
      ih (by rw [List.length_drop, hx, Nat.succ_mul, Nat.add_sub_cancel]), absorb]

/-- Blocks of a translated stream, each of which is the translation of a block. -/
theorem absorb_map {β : Type} {g : τ → List β → τ} {C : Nat} {φ : σ → τ} {ψ : List α → List β}
    (hf : ∀ s b, b.length = B → φ (f s b) = g (φ s) (ψ b))
    (htake : ∀ xs, B ≤ xs.length → (ψ xs).take C = ψ (xs.take B))
    (hdrop : ∀ xs, (ψ xs).drop C = ψ (xs.drop B)) (hx : n * B ≤ xs.length) :
    φ (absorb f B n s xs) = absorb g C n (φ s) (ψ xs) := by
  induction n generalizing s xs with
  | zero => rfl
  | succ n ih =>
    rw [Nat.succ_mul] at hx
    have hB : B ≤ xs.length := by omega
    rw [absorb, absorb, ih (by rw [List.length_drop]; omega), htake xs hB, hdrop xs,
      hf s (xs.take B) (List.length_take_of_le hB)]

/-! ## Piece by piece -/

/-- The whole blocks of `xs` have been absorbed, and `buf` is what follows them. -/
def Absorbed (f : σ → List α → σ) (B : Nat) (s : σ) (xs : List α) (s' : σ) (buf : List α) : Prop :=
  ∃ n whole, xs = whole ++ buf ∧ whole.length = n * B ∧ s' = absorb f B n s whole

theorem Absorbed.nil : Absorbed f B s [] s [] := ⟨0, [], rfl, (Nat.zero_mul B).symm, rfl⟩

theorem Absorbed.add (h : Absorbed f B s xs s' buf) (ys : List α) :
    Absorbed f B s (xs ++ ys) s' (buf ++ ys) := by
  obtain ⟨n, whole, rfl, hlen, hs⟩ := h
  exact ⟨n, whole, List.append_assoc whole buf ys, hlen, hs⟩

/-- A full buffer is a block. -/
theorem Absorbed.block (h : Absorbed f B s xs s' buf) (hbuf : buf.length = B) :
    Absorbed f B s xs (f s' buf) [] := by
  obtain ⟨n, whole, rfl, hlen, rfl⟩ := h
  refine ⟨n + 1, whole ++ buf, (List.append_nil _).symm, ?_, (absorb_concat hlen hbuf).symm⟩
  rw [List.length_append, hlen, hbuf, Nat.succ_mul]

/-- The buffer holds what is left over. -/
theorem Absorbed.length (h : Absorbed f B s xs s' buf) (hbuf : buf.length < B) :
    buf.length = xs.length % B := by
  obtain ⟨n, whole, rfl, hlen, -⟩ := h
  rw [List.length_append, hlen, Nat.add_comm, Nat.add_mul_mod_self_right, Nat.mod_eq_of_lt hbuf]

/-- A stream of whole blocks has been absorbed once the buffer is empty. -/
theorem Absorbed.whole (h : Absorbed f B s xs s' []) (hB : 0 < B) :
    s' = absorb f B (xs.length / B) s xs := by
  obtain ⟨n, whole, rfl, hlen, rfl⟩ := h
  rw [List.append_nil, hlen, Nat.mul_div_cancel n hB]

end Blocks
