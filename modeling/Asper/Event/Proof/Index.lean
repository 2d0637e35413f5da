import Asper.Event.Index
import Asper.Event.Proof.Frame

/-! # What an event log and its index hold

`logBytes D es` and `fullIndex D es` are the two files of the events `es`. A log with a cut frame
at its end scans to its whole frames (`scanLog_logBytes`), the rows of the index give the extents
of the frames (`indexRead_fullIndex`), and an index that is a prefix of the full one is used only
when it is the full one and nothing is cut (`indexUsable_sound`). -/

namespace Asper

open Durable

/-- The events of a log from sequence number `n + 1` on. -/
def LogOk : Nat → List Event → Prop
  | _, [] => True
  | n, e :: es => e.Ok ∧ e.sequence = n + 1 ∧ LogOk (n + 1) es

theorem LogOk.append : ∀ {n : Nat} {es fs : List Event},
    LogOk n (es ++ fs) ↔ LogOk n es ∧ LogOk (n + es.length) fs
  | _, [], _ => by simp [LogOk]
  | n, e :: es, fs => by
    simp only [List.cons_append, LogOk, @LogOk.append _ es, List.length_cons, and_assoc]
    rw [show n + (es.length + 1) = n + 1 + es.length by omega]

theorem LogOk.get : ∀ {n : Nat} {es : List Event}, LogOk n es → ∀ {i : Nat} (h : i < es.length),
    es[i].Ok ∧ es[i].sequence = n + i + 1
  | _, [], _, i, h => absurd h (Nat.not_lt_zero i)
  | n, e :: es, ⟨h1, h2, h3⟩, i, h => by
    cases i with
    | zero => exact ⟨h1, by simpa using h2⟩
    | succ i =>
      have := h3.get (i := i) (by simpa using h)
      simp only [List.getElem_cons_succ]
      exact ⟨this.1, by rw [this.2]; omega⟩

def logBytes (D : Digest) (es : List Event) : Bytes := es.flatMap (frameBytes D)

@[simp] theorem logBytes_nil (D : Digest) : logBytes D [] = [] := rfl

@[simp] theorem logBytes_cons (D : Digest) (e : Event) (es : List Event) :
    logBytes D (e :: es) = frameBytes D e ++ logBytes D es := rfl

@[simp] theorem logBytes_append (D : Digest) (es fs : List Event) :
    logBytes D (es ++ fs) = logBytes D es ++ logBytes D fs := List.flatMap_append ..

theorem length_le_logBytes (D : Digest) : ∀ es : List Event, es.length ≤ (logBytes D es).length
  | [] => Nat.le_refl _
  | e :: es => by
    have := length_le_logBytes D es
    have := length_frameBytes_pos D e
    simp only [logBytes_cons, List.length_append, List.length_cons]
    omega

/-- The rows of `es`, whose first frame is at `start`. -/
def rowsFrom (D : Digest) : Nat → List Event → Bytes
  | _, [] => []
  | start, e :: es =>
    indexRow D start (start + (frameBytes D e).length) ++
      rowsFrom D (start + (frameBytes D e).length) es

def fullIndex (D : Digest) (es : List Event) : Bytes := indexMagic ++ rowsFrom D 0 es

theorem rowsFrom_append (D : Digest) : ∀ (es fs : List Event) (start : Nat),
    rowsFrom D start (es ++ fs) =
      rowsFrom D start es ++ rowsFrom D (start + (logBytes D es).length) fs
  | [], fs, start => by simp [rowsFrom]
  | e :: es, fs, start => by
    simp only [List.cons_append, rowsFrom, rowsFrom_append D es, logBytes_cons, List.length_append,
      List.append_assoc, Nat.add_assoc]

theorem fullIndex_concat (D : Digest) (es : List Event) (e : Event) :
    fullIndex D (es ++ [e]) = fullIndex D es ++
      indexRow D (logBytes D es).length ((logBytes D es).length + (frameBytes D e).length) := by
  simp [fullIndex, rowsFrom_append, rowsFrom]

theorem length_put64 (n : Nat) : (put64 n).length = 8 := by simp [put64]

theorem get64_put64 {n : Nat} (h : n < 2 ^ 64) : get64 (put64 n) = n := by
  have hb : ∀ i, (UInt8.ofNat (n / 256 ^ i % 256)).toNat = n / 256 ^ i % 256 := by
    intro i
    rw [UInt8.toNat_ofNat']
    omega
  simp only [put64, get64, List.range_succ, List.range_zero, List.nil_append,
    List.map_cons, List.map_nil, List.cons_append, List.foldr_cons, List.foldr_nil, hb]
  omega

theorem length_indexRow (D : Digest) (a b : Nat) : (indexRow D a b).length = indexRecord := by
  simp only [indexRow, List.length_append, length_put64, D.length_sha]
  rfl

theorem length_rowsFrom (D : Digest) : ∀ (es : List Event) (start : Nat),
    (rowsFrom D start es).length = indexRecord * es.length
  | [], _ => rfl
  | e :: es, start => by
    rw [rowsFrom, List.length_append, length_indexRow, length_rowsFrom D es, List.length_cons,
      Nat.mul_succ]
    omega

theorem length_indexMagic : indexMagic.length = 8 := by decide

/-- Row `i` of the index. -/
theorem rowsFrom_row (D : Digest) : ∀ (es : List Event) (start : Nat) {i : Nat} (_ : i < es.length),
    ((rowsFrom D start es).drop (i * indexRecord)).take indexRecord =
      indexRow D (start + (logBytes D (es.take i)).length)
        (start + (logBytes D (es.take (i + 1))).length)
  | [], _, i, h => absurd h (Nat.not_lt_zero i)
  | e :: es, start, 0, _ => by
    rw [Nat.zero_mul, List.drop_zero, rowsFrom,
      List.take_append_of_le_length (Nat.le_of_eq (length_indexRow ..).symm),
      List.take_of_length_le (Nat.le_of_eq (length_indexRow ..))]
    simp
  | e :: es, start, i + 1, h => by
    rw [rowsFrom, show (i + 1) * indexRecord = indexRecord + i * indexRecord by
        rw [Nat.succ_mul]; omega,
      ← List.drop_drop, ← length_indexRow D start (start + (frameBytes D e).length),
      List.drop_left, length_indexRow, rowsFrom_row D es _ (by simpa using h)]
    simp only [List.take_succ_cons, logBytes_cons, List.length_append, Nat.add_assoc]

/-- A row reads back as the extent it was written for. -/
theorem row_fields (D : Digest) {a b : Nat} (ha : a < 2 ^ 64) (hb : b < 2 ^ 64) :
    get64 ((indexRow D a b).take 8) = a ∧ get64 (((indexRow D a b).drop 8).take 8) = b ∧
      D.sha ((indexRow D a b).take 16) = (indexRow D a b).drop 16 := by
  have h1 : (indexRow D a b).take 8 = put64 a := by
    rw [indexRow, List.append_assoc,
      List.take_append_of_le_length (Nat.le_of_eq (length_put64 a).symm),
      List.take_of_length_le (Nat.le_of_eq (length_put64 a))]
  have h2 : ((indexRow D a b).drop 8).take 8 = put64 b := by
    rw [indexRow, List.append_assoc, ← length_put64 a, List.drop_left, length_put64 a,
      List.take_append_of_le_length (Nat.le_of_eq (length_put64 b).symm),
      List.take_of_length_le (Nat.le_of_eq (length_put64 b))]
  have hl : (put64 a ++ put64 b).length = 16 := by
    rw [List.length_append, length_put64, length_put64]
  refine ⟨by rw [h1, get64_put64 ha], by rw [h2, get64_put64 hb], ?_⟩
  rw [indexRow, ← hl, List.take_left, List.drop_left]

theorem length_logBytes_take_le (D : Digest) (es : List Event) (i : Nat) :
    (logBytes D (es.take i)).length ≤ (logBytes D es).length := by
  have h := congrArg (fun l => (logBytes D l).length) (List.take_append_drop i es)
  simp only [logBytes_append, List.length_append] at h
  omega

theorem length_logBytes_take_lt (D : Digest) {es : List Event} {i : Nat} (h : i < es.length) :
    (logBytes D (es.take i)).length < (logBytes D (es.take (i + 1))).length := by
  have := length_frameBytes_pos D es[i]
  rw [List.take_succ_eq_append_getElem h, logBytes_append, List.length_append]
  simp only [logBytes_cons, logBytes_nil, List.append_nil]
  omega

/-- **The rows of the index are the extents of the frames**, also when rows at its end are
missing, as long as the log reaches the end of the frame. -/
theorem indexRead_rows (D : Digest) (log : Bytes) (count : Nat) {es : List Event} {i k : Nat}
    (hi : i < es.length) (hk : 8 + (i + 1) * indexRecord ≤ k) (hc : i < count)
    (hsize : (logBytes D es).length < 2 ^ 64) :
    indexRead D ⟨log, (fullIndex D es).take k, count⟩ (i + 1) =
      if (logBytes D (es.take (i + 1))).length ≤ log.length then
        some ((logBytes D (es.take i)).length, (logBytes D (es.take (i + 1))).length)
      else none := by
  have hle := length_logBytes_take_le D es (i + 1)
  have hlt := length_logBytes_take_lt D hi
  have hrow : (((fullIndex D es).take k).drop (8 + i * indexRecord)).take indexRecord =
      indexRow D (logBytes D (es.take i)).length (logBytes D (es.take (i + 1))).length := by
    rw [List.drop_take, List.take_take, Nat.min_eq_left
        (by rw [Nat.succ_mul] at hk; omega),
      fullIndex, ← List.drop_drop, ← length_indexMagic, List.drop_left, rowsFrom_row D es 0 hi]
    simp
  obtain ⟨h1, h2, h3⟩ := row_fields D
    (a := (logBytes D (es.take i)).length) (b := (logBytes D (es.take (i + 1))).length)
    (by omega) (by omega)
  simp only [indexRead, Nat.add_sub_cancel, hrow, length_indexRow, h1, h2, h3]
  rw [if_neg (by omega)]
  simp only [hlt, true_and]

theorem indexRead_fullIndex (D : Digest) (count : Nat) {es : List Event} {t : Bytes} {i k : Nat}
    (hi : i < es.length) (hk : 8 + (i + 1) * indexRecord ≤ k) (hc : i < count)
    (hsize : (logBytes D es ++ t).length < 2 ^ 64) :
    indexRead D ⟨logBytes D es ++ t, (fullIndex D es).take k, count⟩ (i + 1) =
      some ((logBytes D (es.take i)).length, (logBytes D (es.take (i + 1))).length) := by
  have hle := length_logBytes_take_le D es (i + 1)
  rw [List.length_append] at hsize
  rw [indexRead_rows D _ _ hi hk hc (by omega), if_pos (by rw [List.length_append]; omega)]

/-- **A log scans to its whole frames**; what follows them is cut or nothing. -/
theorem scanLog_logBytes (D : Digest) {t : Bytes} (ht : frameRead D t = .error .notFound) :
    ∀ {es : List Event} {fuel : Nat} {rows : Bytes} {good n : Nat}, LogOk n es →
    (logBytes D es ++ t).length ≤ fuel →
    scanLog D fuel ⟨rows, good, n, false⟩ (logBytes D es ++ t) =
      .ok ⟨rows ++ rowsFrom D good es, good + (logBytes D es).length, n + es.length, t ≠ []⟩
  | [], fuel, rows, good, n, _, hf => by
    cases fuel with
    | zero =>
      obtain rfl : t = [] := List.length_eq_zero_iff.1 (by simpa using hf)
      simp [scanLog, rowsFrom]
    | succ fuel =>
      show scanLog D (fuel + 1) _ t = _
      rw [scanLog]
      by_cases h : t = []
      · subst h
        simp [rowsFrom]
      · rw [if_neg (by simp [h]), ht]
        simp [rowsFrom, h]
  | e :: es, fuel, rows, good, n, ⟨h1, h2, h3⟩, hf => by
    have hpos := length_frameBytes_pos D e
    simp only [logBytes_cons, List.append_assoc, List.length_append] at hf
    cases fuel with
    | zero => omega
    | succ fuel =>
      have hne : ¬ (frameBytes D e ++ (logBytes D es ++ t)).isEmpty = true := by
        intro h
        rw [(List.append_eq_nil_iff.1 (List.isEmpty_iff.1 h)).1] at hpos
        exact Nat.lt_irrefl _ hpos
      simp only [logBytes_cons, List.append_assoc, scanLog]
      rw [if_neg hne, frameRead_frameBytes D h1]
      dsimp only
      have hstop : good + ((frameBytes D e ++ (logBytes D es ++ t)).length -
          (logBytes D es ++ t).length) = good + (frameBytes D e).length := by
        rw [List.length_append, Nat.add_sub_cancel]
      rw [if_neg (by simp [h2]), hstop,
        scanLog_logBytes D ht h3 (by simp only [List.length_append]; omega)]
      simp only [rowsFrom, List.append_assoc, List.length_append, List.length_cons, Nat.add_assoc,
        Nat.add_comm 1]

/-- **An index in use ends where the log ends**: it is the full one of the frames up to there. -/
theorem indexUsable_rows (D : Digest) {log : Bytes} {es : List Event} {k count : Nat}
    (hsize : (logBytes D es).length < 2 ^ 64)
    (h : indexUsable D log ((fullIndex D es).take k) = some count) :
    count ≤ es.length ∧ log.length = (logBytes D (es.take count)).length ∧
      (fullIndex D es).take k = fullIndex D (es.take count) := by
  have hfull : (fullIndex D es).length = 8 + indexRecord * es.length := by
    rw [fullIndex, List.length_append, length_rowsFrom, length_indexMagic]
  rw [indexUsable] at h
  split at h
  · cases h
  · next hlen =>
    simp only [not_or, Nat.not_lt, not_not, List.length_take, hfull] at hlen
    obtain ⟨h8, -, hmod⟩ := hlen
    -- the number of rows the index has
    obtain ⟨j, hj⟩ : ∃ j, min k (8 + indexRecord * es.length) - 8 = indexRecord * j :=
      Nat.dvd_of_mod_eq_zero hmod
    have hjl : j ≤ es.length := by
      have : indexRecord * j ≤ indexRecord * es.length := by omega
      exact Nat.le_of_mul_le_mul_left this (by decide)
    have hcount : ((List.take k (fullIndex D es)).length - 8) / indexRecord = j := by
      rw [List.length_take, hfull, hj, Nat.mul_div_cancel_left _ (by decide)]
    have hrows : (fullIndex D es).take k = fullIndex D (es.take j) := by
      have hlj : (fullIndex D (es.take j)).length = min k (8 + indexRecord * es.length) := by
        rw [fullIndex, List.length_append, length_rowsFrom, length_indexMagic, List.length_take,
          Nat.min_eq_left hjl]
        omega
      have hpre : fullIndex D (es.take j) <+: fullIndex D es := by
        refine ⟨rowsFrom D (0 + (logBytes D (es.take j)).length) (es.drop j), ?_⟩
        rw [fullIndex, List.append_assoc, ← rowsFrom_append, List.take_append_drop, fullIndex]
      rw [List.prefix_iff_eq_take.1 hpre, hlj, ← hfull, ← List.take_eq_take_min]
    simp only [hcount] at h
    split at h
    · cases h
    · split at h
      · next h0 =>
        obtain ⟨rfl, rfl⟩ := h0
        obtain rfl := Option.some.inj h
        exact ⟨Nat.zero_le _, rfl, hrows⟩
      · cases j with
        | zero => simp [indexRead] at h
        | succ i =>
          rw [indexRead_rows D _ _ (by omega) (by rw [Nat.mul_comm]; omega) (by omega) hsize] at h
          split at h
          · cases h
          · next a b hb =>
            split at hb
            · obtain ⟨rfl, rfl⟩ := Prod.mk.inj (Option.some.inj hb)
              split at h
              · cases h
              · next hend =>
                split at h
                · cases h
                · split at h
                  · obtain rfl := Option.some.inj h
                    exact ⟨hjl, (not_not.1 hend).symm, hrows⟩
                  · cases h
            · cases hb

/-- **An index in use is the full one**, and its log ends with a whole frame. -/
theorem indexUsable_sound (D : Digest) {es : List Event} {t : Bytes} {k count : Nat}
    (hsize : (logBytes D es ++ t).length < 2 ^ 64)
    (h : indexUsable D (logBytes D es ++ t) ((fullIndex D es).take k) = some count) :
    count = es.length ∧ t = [] ∧ (fullIndex D es).take k = fullIndex D es := by
  rw [List.length_append] at hsize
  obtain ⟨hc, hlen, hidx⟩ := indexUsable_rows D (by omega) h
  rw [List.length_append] at hlen
  have hcount : count = es.length := by
    by_contra hne
    have := length_logBytes_take_lt D (show count < es.length by omega)
    have := length_logBytes_take_le D es (count + 1)
    omega
  rw [hcount, List.take_length] at hlen hidx
  exact ⟨hcount, List.length_eq_zero_iff.1 (by omega), hidx⟩

end Asper
