import Mathlib.Data.List.TakeDrop

/-! # A range of a stream, copied chunk by chunk

A stream arrives in chunks and a buffer is to hold the range from `offset` on. `Copied` says what the
buffer holds when the stream is read up to a position, the rest being what it was; the part of a chunk
that falls into the range is copied to its place (`Copied.chunk`). -/

namespace Durable

variable {α : Type}

/-- `memcpy` of `bytes` to the place `at_` of `copy`. -/
def blit (copy : List α) (at_ : Nat) (bytes : List α) : List α :=
  copy.take at_ ++ bytes ++ copy.drop (at_ + bytes.length)

theorem length_blit {copy bytes : List α} {at_ : Nat} (h : at_ + bytes.length ≤ copy.length) :
    (blit copy at_ bytes).length = copy.length := by
  simp only [blit, List.length_append, List.length_take, List.length_drop]
  omega

theorem getElem?_blit {copy bytes : List α} {at_ : Nat} (h : at_ + bytes.length ≤ copy.length)
    (i : Nat) : (blit copy at_ bytes)[i]? =
      if at_ ≤ i ∧ i < at_ + bytes.length then bytes[i - at_]? else copy[i]? := by
  have htake : (copy.take at_).length = at_ := by rw [List.length_take]; omega
  have hboth : (copy.take at_ ++ bytes).length = at_ + bytes.length := by
    rw [List.length_append, htake]
  rw [blit]
  by_cases h1 : i < at_
  · rw [if_neg (by omega), List.getElem?_append_left (by omega),
      List.getElem?_append_left (by omega), List.getElem?_take_of_lt h1]
  · by_cases h2 : i < at_ + bytes.length
    · rw [if_pos ⟨by omega, h2⟩, List.getElem?_append_left (by omega),
        List.getElem?_append_right (by omega), htake]
    · rw [if_neg (by omega), List.getElem?_append_right (by omega), hboth, List.getElem?_drop]
      exact congrArg (copy[·]?) (by omega)

/-- The buffer holds the elements of `stream` from `offset` on that stand before `position`. -/
structure Copied (stream junk : List α) (offset take position : Nat) (copy : List α) : Prop where
  length : copy.length = take
  elem : ∀ i, i < take →
    copy[i]? = if offset + i < position then stream[offset + i]? else junk[i]?

variable {stream junk copy : List α} {offset take position : Nat}

theorem Copied.start (h : junk.length = take) : Copied stream junk offset take 0 junk :=
  ⟨h, fun _ _ => by rw [if_neg (by omega)]⟩

/-- A chunk that misses the range. -/
theorem Copied.skip {n : Nat} (h : Copied stream junk offset take position copy)
    (hmiss : min (position + n) (offset + take) ≤ max offset position) :
    Copied stream junk offset take (position + n) copy := by
  refine ⟨h.length, fun i hi => ?_⟩
  rw [h.elem i hi]
  by_cases hlt : offset + i < position
  · rw [if_pos hlt, if_pos (by omega)]
  · rw [if_neg hlt, if_neg (by omega)]

/-- **The part of a chunk in the range** goes to its place. -/
theorem Copied.chunk {chunk : List α} (h : Copied stream junk offset take position copy)
    (hchunk : ∀ i, i < chunk.length → chunk[i]? = stream[position + i]?)
    (hmeet : max offset position < min (position + chunk.length) (offset + take)) :
    Copied stream junk offset take (position + chunk.length)
      (blit copy (max offset position - offset) ((chunk.drop (max offset position - position)).take
        (min (position + chunk.length) (offset + take) - max offset position))) := by
  generalize hb : max offset position = start at hmeet ⊢
  generalize he : min (position + chunk.length) (offset + take) = stop at hmeet ⊢
  have hlen : ((chunk.drop (start - position)).take (stop - start)).length = stop - start := by
    rw [List.length_take, List.length_drop]
    omega
  have hroom : start - offset + ((chunk.drop (start - position)).take (stop - start)).length ≤
      copy.length := by
    rw [hlen, h.length]
    omega
  refine ⟨(length_blit hroom).trans h.length, fun i hi => ?_⟩
  rw [getElem?_blit hroom, hlen]
  by_cases hin : start - offset ≤ i ∧ i < start - offset + (stop - start)
  · rw [if_pos hin, if_pos (by omega), List.getElem?_take_of_lt (by omega), List.getElem?_drop,
      hchunk _ (by omega)]
    exact congrArg (stream[·]?) (by omega)
  · rw [if_neg hin, h.elem i hi]
    by_cases hlt : offset + i < position
    · rw [if_pos hlt, if_pos (by omega)]
    · rw [if_neg hlt, if_neg (by omega)]

/-- The stream is read to the end of the range. -/
theorem Copied.done (h : Copied stream junk offset take position copy) (hend : offset + take ≤ position)
    (hstream : offset + take ≤ stream.length) : copy = (stream.drop offset).take take := by
  refine List.ext_getElem? fun i => ?_
  by_cases hi : i < take
  · rw [h.elem i hi, if_pos (by omega), List.getElem?_take_of_lt hi, List.getElem?_drop]
  · have hlen : ((stream.drop offset).take take).length = take := by
      rw [List.length_take, List.length_drop]
      omega
    rw [List.getElem?_eq_none (by rw [h.length]; omega), List.getElem?_eq_none (by rw [hlen]; omega)]

end Durable
