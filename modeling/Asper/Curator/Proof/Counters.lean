import Asper.Curator.Counters
import Asper.Curator.Proof.Shown

/-! # Queue accounting

`Counted S n m a`: the counters of `a` are exact when `n` turns of `m` bytes are in flight, and
within the limits. Each critical section keeps it (`Counted.enqueue`, `.take`, `.restore`,
`.release`), so none of its subtractions wraps; `queue_accounting` says it of every interleaving.
Under it the counters compute what `QueueSlots` computes from the turns. -/

namespace Asper

open Durable (Bytes)

theorem turnBytes_cons (t : Turn) (ts : List Turn) :
    turnBytes (t :: ts) = t.bytes + turnBytes ts := by
  simp [turnBytes, Turn.bytes]

theorem turnBytes_perm {as bs : List Turn} (h : as.Perm bs) : turnBytes as = turnBytes bs :=
  (h.map _).sum_eq

theorem QueueSettings.limit_le (S : QueueSettings) : S.limit ≤ queueEvents := by
  unfold limit
  split
  · decide
  · exact Nat.min_le_right _ _

theorem queueBytes_lt : queueBytes < 2 ^ 64 := by decide

namespace TurnArray

variable {S : QueueSettings} {n m : Nat} {a : TurnArray}

/-! ## The loops -/

theorem foldl_holdBytes : ∀ (ts : List Turn) (a : TurnArray), turnBytes ts ≤ a.bytes →
    a.bytes + a.inflightBytes < 2 ^ 64 →
    ts.foldl holdBytes a = { a with
      bytes := a.bytes - turnBytes ts, inflightBytes := a.inflightBytes + turnBytes ts }
  | [], a, _, _ => rfl
  | t :: ts, a, h, hlt => by
    rw [turnBytes_cons] at h
    have hstep : holdBytes a t = { a with
        bytes := a.bytes - t.bytes, inflightBytes := a.inflightBytes + t.bytes } := by
      rw [holdBytes, sizeSub_eq (by omega) (by omega), sizeAdd_eq (by omega),
        decide_eq_false (by omega), Bool.or_false]
    rw [List.foldl_cons, hstep, foldl_holdBytes ts _ (by dsimp only; omega) (by dsimp only; omega),
      turnBytes_cons, Nat.sub_sub, Nat.add_assoc]

theorem foldl_restoreBytes : ∀ (ts : List Turn) (a : TurnArray), turnBytes ts ≤ a.inflightBytes →
    a.bytes + a.inflightBytes < 2 ^ 64 →
    ts.foldl restoreBytes a = { a with
      bytes := a.bytes + turnBytes ts, inflightBytes := a.inflightBytes - turnBytes ts }
  | [], a, _, _ => rfl
  | t :: ts, a, h, hlt => by
    rw [turnBytes_cons] at h
    have hstep : restoreBytes a t = { a with
        bytes := a.bytes + t.bytes, inflightBytes := a.inflightBytes - t.bytes } := by
      rw [restoreBytes, sizeSub_eq (by omega) (by omega), sizeAdd_eq (by omega),
        decide_eq_false (by omega), Bool.or_false]
    rw [List.foldl_cons, hstep, foldl_restoreBytes ts _ (by dsimp only; omega)
      (by dsimp only; omega), turnBytes_cons, Nat.sub_sub, Nat.add_assoc]

theorem release_eq : ∀ (ts : List Turn) (a : TurnArray), ts.length ≤ a.inflight →
    turnBytes ts ≤ a.inflightBytes → a.inflight < 2 ^ 64 → a.inflightBytes < 2 ^ 64 →
    a.release ts = { a with
      inflight := a.inflight - ts.length, inflightBytes := a.inflightBytes - turnBytes ts }
  | [], a, _, _, _, _ => rfl
  | t :: ts, a, hn, h, hi, hb => by
    rw [turnBytes_cons] at h
    rw [List.length_cons] at hn
    have hstep : releaseTurn a t = { a with
        inflight := a.inflight - 1, inflightBytes := a.inflightBytes - t.bytes } := by
      rw [releaseTurn, sizeSub_eq (by omega) hi, sizeSub_eq (by omega) hb,
        decide_eq_false (by omega), decide_eq_false (by omega), Bool.or_false, Bool.or_false]
    have ih := release_eq ts { a with
      inflight := a.inflight - 1, inflightBytes := a.inflightBytes - t.bytes }
      (by dsimp only; omega) (by dsimp only; omega) (by dsimp only; omega) (by dsimp only; omega)
    rw [release] at ih ⊢
    rw [List.foldl_cons, hstep, ih, turnBytes_cons, List.length_cons, Nat.sub_sub, Nat.sub_sub,
      Nat.add_comm 1]

/-! ## The sections -/

/-- The counters are exact, with `n` turns of `m` bytes in flight. -/
structure Counted (S : QueueSettings) (n m : Nat) (a : TurnArray) : Prop where
  inflight : a.inflight = n
  inflightBytes : a.inflightBytes = m
  bytes : a.bytes = turnBytes a.turns
  limit : a.turns.length + n ≤ S.limit
  slots : a.turns.length + n ≤ a.cap
  total : turnBytes a.turns + m ≤ queueBytes
  wrapped : a.wrapped = false

theorem Counted.inflight_lt (h : Counted S n m a) : a.inflight < 2 ^ 64 := by
  have h1 := h.limit
  have h2 := S.limit_le
  rw [h.inflight]
  unfold queueEvents at h2
  omega

theorem Counted.spare_eq (h : Counted S n m a) :
    a.spare = queueBytes - turnBytes a.turns - m := by
  have h1 := h.total
  have h2 := queueBytes_lt
  rw [spare, h.bytes, h.inflightBytes, sizeSub_eq (by omega) h2, sizeSub_eq (by omega) (by omega)]

theorem Counted.spareRead_eq (h : Counted S n m a) : a.spareRead = a := by
  have h1 := h.total
  have h2 := queueBytes_lt
  have hw : (a.wrapped || decide (queueBytes < a.bytes) ||
      decide (sizeSub queueBytes a.bytes < a.inflightBytes)) = false := by
    rw [h.bytes, h.inflightBytes, sizeSub_eq (by omega) h2, h.wrapped]
    simp only [Bool.false_or, Bool.or_eq_false_iff, decide_eq_false_iff_not]
    omega
  rw [spareRead, hw, ← h.wrapped]

theorem Counted.roomFor_eq (h : Counted S n m a) (bytes : Nat) :
    a.roomFor S bytes =
      (decide (a.turns.length + n < S.limit ∧ bytes ≤ queueBytes - turnBytes a.turns - m), a) := by
  unfold roomFor
  rw [h.spareRead_eq, h.spare_eq, used, h.inflight]
  split
  · next hu => simp [hu]
  · next hu => simp [hu]

theorem Counted.enqueue (h : Counted S n m a) (grows : Bool) (t : Turn) :
    Counted S n m (a.enqueue S grows t).2 := by
  unfold TurnArray.enqueue
  rw [h.roomFor_eq]
  dsimp only
  split
  · exact h
  next hroom =>
  split
  · exact h
  simp only [decide_eq_false_iff_not, not_not] at hroom
  obtain ⟨hn, hb⟩ := hroom
  have h1 := h.total
  have h2 := queueBytes_lt
  have h3 := length_le_growSlots h.slots (Nat.lt_of_lt_of_le hn S.limit_le)
  have hsum : turnBytes (a.turns ++ [t]) = turnBytes a.turns + t.bytes := by
    rw [turnBytes_append, turnBytes_cons]
    rfl
  refine ⟨h.inflight, h.inflightBytes, ?_, ?_, ?_, ?_, h.wrapped⟩
  · show sizeAdd a.bytes t.bytes = turnBytes (a.turns ++ [t])
    rw [hsum, h.bytes, sizeAdd_eq (by omega)]
  · show (a.turns ++ [t]).length + n ≤ S.limit
    rw [List.length_append, List.length_singleton]
    omega
  · show (a.turns ++ [t]).length + n ≤ growSlots a.cap a.used
    rw [List.length_append, List.length_singleton, used, h.inflight]
    omega
  · show turnBytes (a.turns ++ [t]) + m ≤ queueBytes
    omega

theorem Counted.take (h : Counted S n m a) (force alloc : Bool) :
    (a.take S force alloc).1 ++ (a.take S force alloc).2.turns = a.turns ∧
    Counted S (n + (a.take S force alloc).1.length) (m + turnBytes (a.take S force alloc).1)
      (a.take S force alloc).2 := by
  unfold TurnArray.take
  dsimp only
  split
  · exact ⟨rfl, h⟩
  obtain ⟨rest, hrest⟩ := nextBatch_within force S.turnBatch a.turns
  generalize nextBatch force S.turnBatch a.turns = batch at *
  have h1 := h.total
  have h2 := queueBytes_lt
  have h3 := h.limit
  have h4 := h.slots
  have h5 := S.limit_le
  unfold queueEvents at h5
  rw [← hrest, turnBytes_append] at h1
  rw [← hrest, List.length_append] at h3 h4
  have hb : a.bytes = turnBytes batch + turnBytes rest := by
    rw [h.bytes, ← hrest, turnBytes_append]
  rw [foldl_holdBytes batch a (by omega) (by rw [h.inflightBytes]; omega)]
  dsimp only
  rw [← hrest, List.drop_left, h.inflight, h.inflightBytes, sizeAdd_eq (by omega)]
  refine ⟨rfl, rfl, rfl, ?_, ?_, ?_, ?_, h.wrapped⟩
  · show a.bytes - turnBytes batch = turnBytes rest
    omega
  · show rest.length + (n + batch.length) ≤ S.limit
    omega
  · show rest.length + (n + batch.length) ≤ a.cap
    omega
  · show turnBytes rest + (m + turnBytes batch) ≤ queueBytes
    omega

/-- **Turns in flight can always go back**, to the front, into the array as it is. -/
theorem Counted.restore (h : Counted S n m a) (ts : List Turn) (hn : ts.length ≤ n)
    (hm : turnBytes ts ≤ m) :
    ∃ a', a.restore ts = some a' ∧ a'.turns = ts ++ a.turns ∧ a'.cap = a.cap ∧
      Counted S (n - ts.length) (m - turnBytes ts) a' := by
  have h1 := h.total
  have h2 := queueBytes_lt
  have h3 := h.limit
  have h4 := h.slots
  have h5 := h.inflight
  have h6 := h.inflight_lt
  unfold TurnArray.restore
  split
  · next hts =>
    subst hts
    exact ⟨a, rfl, rfl, rfl, h⟩
  rw [if_neg (by omega), foldl_restoreBytes ts _ (by rw [h.inflightBytes]; exact hm)
    (by rw [h.inflightBytes, h.bytes]; omega), sizeSub_eq (by omega) h6,
    decide_eq_false (by omega), Bool.or_false]
  refine ⟨_, rfl, rfl, rfl, ?_, ?_, ?_, ?_, ?_, ?_, h.wrapped⟩
  · show a.inflight - ts.length = n - ts.length
    rw [h5]
  · show a.inflightBytes - turnBytes ts = m - turnBytes ts
    rw [h.inflightBytes]
  · show a.bytes + turnBytes ts = turnBytes (ts ++ a.turns)
    rw [turnBytes_append, h.bytes, Nat.add_comm]
  · show (ts ++ a.turns).length + (n - ts.length) ≤ S.limit
    rw [List.length_append]
    omega
  · show (ts ++ a.turns).length + (n - ts.length) ≤ a.cap
    rw [List.length_append]
    omega
  · show turnBytes (ts ++ a.turns) + (m - turnBytes ts) ≤ queueBytes
    rw [turnBytes_append]
    omega

theorem Counted.release (h : Counted S n m a) (ts : List Turn) (hn : ts.length ≤ n)
    (hm : turnBytes ts ≤ m) :
    Counted S (n - ts.length) (m - turnBytes ts) (a.release ts) := by
  have h1 := h.total
  have h2 := queueBytes_lt
  have h3 := h.limit
  have h4 := h.slots
  rw [release_eq ts a (by rw [h.inflight]; exact hn) (by rw [h.inflightBytes]; exact hm)
    h.inflight_lt (by rw [h.inflightBytes]; omega)]
  refine ⟨congrArg (· - _) h.inflight, congrArg (· - _) h.inflightBytes, h.bytes, ?_, ?_, ?_,
    h.wrapped⟩
  · show a.turns.length + (n - ts.length) ≤ S.limit
    omega
  · show a.turns.length + (n - ts.length) ≤ a.cap
    omega
  · show turnBytes a.turns + (m - turnBytes ts) ≤ queueBytes
    omega

theorem Counted.giveBack (h : Counted S n m a) (ts : List Turn) (hn : ts.length ≤ n)
    (hm : turnBytes ts ≤ m) :
    Counted S (n - ts.length) (m - turnBytes ts) (a.giveBack ts) := by
  obtain ⟨a', ha, -, -, h'⟩ := h.restore ts hn hm
  rw [TurnArray.giveBack, ha]
  exact h'

/-! ## The queue it counts -/

/-- The turns of the array, without its counters. -/
def queueSlots (S : QueueSettings) (a : TurnArray) : QueueSlots :=
  ⟨⟨S.eventQueueMax, a.turns, a.inflight, a.inflightBytes⟩, a.cap⟩

theorem Counted.roomFor_slots (h : Counted S n m a) (bytes : Nat) :
    (a.roomFor S bytes).1 = Asper.roomFor (a.queueSlots S).queue bytes := by
  rw [h.roomFor_eq, Asper.roomFor, queueSlots]
  dsimp only
  rw [h.inflight, h.inflightBytes]
  rfl

theorem Counted.take_slots (h : Counted S n m a) (force : Bool) :
    (a.take S force true).1 = (takeTurns force S.turnBatch (a.queueSlots S).queue).1 ∧
    ((a.take S force true).2.queueSlots S).queue = (takeTurns force S.turnBatch (a.queueSlots S).queue).2 := by
  have h1 := h.total
  have h2 := queueBytes_lt
  have h3 := h.limit
  have h5 := S.limit_le
  unfold queueEvents at h5
  obtain ⟨rest, hrest⟩ := nextBatch_within force S.turnBatch a.turns
  unfold TurnArray.take takeTurns queueSlots
  dsimp only
  generalize nextBatch force S.turnBatch a.turns = batch at *
  rw [← hrest, turnBytes_append] at h1
  rw [← hrest, List.length_append] at h3
  split
  · next hb =>
    obtain rfl : batch = [] := by simpa using hb
    exact ⟨rfl, rfl⟩
  · rw [foldl_holdBytes batch a (by rw [h.bytes, ← hrest, turnBytes_append]; omega)
      (by rw [h.bytes, h.inflightBytes, ← hrest, turnBytes_append]; omega)]
    dsimp only
    rw [sizeAdd_eq (by rw [h.inflight]; omega)]
    exact ⟨rfl, rfl⟩

theorem Counted.restore_slots (h : Counted S n m a) {ts : List Turn} (hn : ts.length ≤ n)
    (hm : turnBytes ts ≤ m) :
    (a.restore ts).map (queueSlots S) = restoreTurns ts (a.queueSlots S) := by
  have h4 := h.slots
  obtain ⟨a', ha, ht, hc, h'⟩ := h.restore ts hn hm
  rw [ha, restoreTurns_some (by rw [← h.inflight] at hn; exact hn)
    (Nat.le_trans (Nat.add_le_add_left hn _) h4), Option.map_some, Option.some.injEq]
  simp only [queueSlots, ht, hc, h'.inflight, h'.inflightBytes, h.inflight, h.inflightBytes]

end TurnArray

/-! ## Every interleaving -/

namespace Owners

/-- What the counters say of the turns that wait and of those in flight. -/
structure Accounted (S : QueueSettings) (σ : Owners) : Prop where
  limit : σ.array.turns.length + σ.held.flatten.length ≤ S.limit
  limit_le : S.limit ≤ 4096
  slots : σ.array.turns.length + σ.held.flatten.length ≤ σ.array.cap
  inflight : σ.array.inflight = σ.held.flatten.length
  bytes : σ.array.bytes = turnBytes σ.array.turns
  inflightBytes : σ.array.inflightBytes = turnBytes σ.held.flatten
  total : σ.array.bytes + σ.array.inflightBytes ≤ queueBytes
  wrapped : σ.array.wrapped = false

variable {S : QueueSettings} {σ : Owners}

def Ok (S : QueueSettings) (σ : Owners) : Prop :=
  σ.array.Counted S σ.held.flatten.length (turnBytes σ.held.flatten)

theorem Ok.accounted (h : σ.Ok S) : σ.Accounted S :=
  ⟨h.limit, S.limit_le, h.slots, h.inflight, h.bytes, h.inflightBytes,
    by rw [h.bytes, h.inflightBytes]; exact h.total, h.wrapped⟩

theorem held_perm {held : List (List Turn)} {i : Nat} {ts : List Turn} (h : held[i]? = some ts) :
    held.flatten.Perm (ts ++ (held.eraseIdx i).flatten) := by
  obtain ⟨hi, rfl⟩ := List.getElem?_eq_some_iff.1 h
  exact (List.getElem_cons_eraseIdx_perm hi).symm.flatten

theorem set_perm {held : List (List Turn)} {i : Nat} {ts : List Turn} (us : List Turn)
    (h : held[i]? = some ts) : (held.set i us).flatten.Perm (us ++ (held.eraseIdx i).flatten) := by
  obtain ⟨hi, -⟩ := List.getElem?_eq_some_iff.1 h
  exact (List.set_perm_cons_eraseIdx hi us).flatten

/-- What a batch weighs in the whole. -/
theorem held_sum {held : List (List Turn)} {i : Nat} {ts : List Turn} (h : held[i]? = some ts) :
    held.flatten.length = ts.length + (held.eraseIdx i).flatten.length ∧
    turnBytes held.flatten = turnBytes ts + turnBytes (held.eraseIdx i).flatten := by
  rw [(held_perm h).length_eq, turnBytes_perm (held_perm h), List.length_append, turnBytes_append]
  exact ⟨rfl, rfl⟩

theorem Ok.finish (h : σ.Ok S) (ok : Bool) (i : Nat) : (σ.finish ok i).Ok S := by
  unfold Owners.finish
  cases hi : σ.held[i]? with
  | none => exact h
  | some ts =>
    obtain ⟨hl, hb⟩ := held_sum hi
    have hr := TurnArray.Counted.release h ts (by omega) (by omega)
    have hg := TurnArray.Counted.giveBack h ts (by omega) (by omega)
    rw [hl, hb, Nat.add_sub_cancel_left, Nat.add_sub_cancel_left] at hr hg
    cases ok with
    | true => exact hr
    | false => exact hg

theorem Ok.shortenBatch (h : σ.Ok S) (i included : Nat) : (σ.shortenBatch i included).Ok S := by
  unfold Owners.shortenBatch
  cases hi : σ.held[i]? with
  | none => exact h
  | some ts =>
    obtain ⟨hl, hb⟩ := held_sum hi
    have hsplit := List.take_append_drop included ts
    have hlen := congrArg List.length hsplit
    have hbytes := congrArg turnBytes hsplit
    rw [List.length_append] at hlen
    rw [turnBytes_append] at hbytes
    obtain ⟨a, ha, -, -, h'⟩ := TurnArray.Counted.restore h (ts.drop included) (by omega)
      (by omega)
    dsimp only
    rw [ha]
    have hp := set_perm (ts.take included) hi
    have hl' := hp.length_eq
    have hb' := turnBytes_perm hp
    rw [List.length_append] at hl'
    rw [turnBytes_append] at hb'
    unfold Ok
    convert h' using 1
    · dsimp only
      omega
    · dsimp only
      omega

theorem Ok.act (h : σ.Ok S) (x : QueueAct) : (σ.act S x).Ok S := by
  cases x with
  | room bytes =>
    show TurnArray.Counted S _ _ (σ.array.roomFor S bytes).2
    rw [TurnArray.Counted.roomFor_eq h]
    exact h
  | enqueue t grows =>
    show (σ.enqueueTurn S t grows).Ok S
    unfold enqueueTurn
    split
    · exact h
    · exact TurnArray.Counted.enqueue h grows t
  | take force alloc =>
    obtain ⟨-, h'⟩ := TurnArray.Counted.take h force alloc
    show (σ.takeTurns S force alloc).Ok S
    unfold takeTurns
    dsimp only
    split
    · next hn =>
      rw [hn] at h'
      exact h'
    · unfold Ok
      dsimp only
      rw [List.flatten_append, List.flatten_singleton, List.length_append, turnBytes_append]
      exact h'
  | shorten i included => exact h.shortenBatch i included
  | succeed i => exact h.finish true i
  | fail i => exact h.finish false i

theorem start_ok : start.Ok S :=
  ⟨rfl, rfl, rfl, Nat.zero_le _, Nat.le_refl _, Nat.zero_le _, rfl⟩

/-- **Queue accounting.** Whatever the enqueuers and the cycles do, in any order: the limits are
kept, the counters are the sums of what they count, no subtraction has wrapped, and any part of a
batch goes back when its cycle wants it to, to the front and into the array as it is. -/
theorem queue_accounting (S : QueueSettings) (acts : List QueueAct) :
    (acts.foldl (act S) start).Accounted S ∧
    ∀ ts ∈ (acts.foldl (act S) start).held, ∀ k, ∃ a,
      (acts.foldl (act S) start).array.restore (ts.drop k) = some a ∧
      a.turns = ts.drop k ++ (acts.foldl (act S) start).array.turns ∧
      a.cap = (acts.foldl (act S) start).array.cap := by
  have hok : (acts.foldl (act S) start).Ok S :=
    List.foldlRecOn acts (act S) start_ok fun _ h x _ => h.act x
  refine ⟨hok.accounted, fun ts hts k => ?_⟩
  obtain ⟨i, hi⟩ := List.mem_iff_getElem?.1 hts
  obtain ⟨hl, hb⟩ := held_sum hi
  have hsplit := List.take_append_drop k ts
  have hlen := congrArg List.length hsplit
  have hbytes := congrArg turnBytes hsplit
  rw [List.length_append] at hlen
  rw [turnBytes_append] at hbytes
  obtain ⟨a, ha, ht, hc, -⟩ := TurnArray.Counted.restore hok (ts.drop k) (by omega) (by omega)
  exact ⟨a, ha, ht, hc⟩

end Owners

end Asper
