import Asper.Base.Proof.Time

/-! # ISO 8601 durations

`Duration` is the grammar, with its text and its seconds; the scanner accepts the texts of
durations, its value is their number of seconds, and nothing overflows (`duration_exact`). The
digit limit bounds every product and every sum. -/

namespace Asper

open Durable (Bytes)
open Decimal (isDigit number)
open Scanner

/-! ## The grammar -/

/-- A number of 1 to 12 digits. -/
structure Numeral where
  digits : Bytes
  ne_nil : digits ≠ []
  length_le : digits.length ≤ 12
  all_digits : ∀ b ∈ digits, isDigit b = true

namespace Numeral

def value (n : Numeral) : Nat := number n.digits

theorem value_lt (n : Numeral) : n.value < 10 ^ 12 :=
  Nat.lt_of_lt_of_le (Decimal.pad_number n.digits n.all_digits).1
    (Nat.pow_le_pow_right (by decide) n.length_le)

/-- A numeral begins with a digit. -/
theorem head_isDigit (n : Numeral) (s : Bytes) : isDigit ((n.digits ++ s).headD 0) = true := by
  cases hd : n.digits with
  | nil => exact absurd hd n.ne_nil
  | cons b ds => exact n.all_digits b (hd ▸ List.mem_cons_self)

end Numeral

inductive TimeUnit where
  | hour | minute | second
  deriving DecidableEq

namespace TimeUnit

/-- The designator. -/
def letter : TimeUnit → UInt8
  | hour => 72
  | minute => 77
  | second => 83

def seconds : TimeUnit → Nat
  | hour => 3600
  | minute => 60
  | second => 1

/-- The place in the time part. -/
def rank : TimeUnit → Nat
  | hour => 1
  | minute => 2
  | second => 3

end TimeUnit

/-- The components of a time part. -/
abbrev Parts := List (Numeral × TimeUnit)

def partsText (ps : Parts) : Bytes := ps.flatMap fun p => p.1.digits ++ [p.2.letter]

def partsSeconds (ps : Parts) : Nat := (ps.map fun p => p.1.value * p.2.seconds).sum

/-- Each unit at most once, in this order. -/
def Ordered (ps : Parts) : Prop := ps.Pairwise fun p q => p.2.rank < q.2.rank

/-- A duration of the grammar. -/
inductive Duration where
  | weeks (n : Numeral)
  | parts (days : Option Numeral) (time : Parts) (ordered : Ordered time)
      (some : days.isSome = true ∨ time ≠ [])

namespace Duration

def text : Duration → Bytes
  | weeks n => ascii "P" ++ (n.digits ++ ascii "W")
  | parts days time _ _ =>
    ascii "P" ++ ((days.elim [] fun n => n.digits ++ ascii "D") ++
      if time = [] then [] else ascii "T" ++ partsText time)

def seconds : Duration → Int
  | weeks n => n.value * 604800
  | parts days time _ _ => (days.elim 0 fun n => n.value * 86400 : Nat) + partsSeconds time

end Duration

/-! ## Numbers -/

section
variable {t : Bytes}

/-- The invariant of the digits of a number: its value is that of the digits so far. -/
def DigitsRead (acc : Int × Nat) : Prop := 0 ≤ acc.1 ∧ acc.1 < 10 ^ acc.2 ∧ acc.2 ≤ 12

def DigitStep (acc : Int × Nat) (u : Bytes) (acc' : Int × Nat) (r : Bytes) : Prop :=
  acc.2 < 12 ∧ ∃ b, isDigit b = true ∧ u = b :: r ∧
    acc' = (acc.1 * 10 + (b.toNat - 48 : Nat), acc.2 + 1)

theorem pow_le_twelve {k : Nat} (h : k ≤ 12) : (10 : Int) ^ k ≤ 10 ^ 12 :=
  pow_le_pow_right₀ (by decide) h

theorem reads_int64 {x : Int} (h : -2 ^ 63 ≤ x ∧ x < 2 ^ 63) :
    Scanner.Reads 0 t (int64 x) fun v r => v = x ∧ r = t :=
  reads_signed h

theorem reads_durDigit {acc : Int × Nat} (hacc : DigitsRead acc) (ht : isDigit (t.headD 0) = true) :
    Scanner.Reads 0 t (durDigit acc) (DigitStep acc t) := by
  obtain ⟨h0, hlt, h12⟩ := hacc
  obtain _ | ⟨b, t⟩ := t
  · cases ht
  have hb : 48 ≤ b.toNat ∧ b.toNat ≤ 57 := of_decide_eq_true ht
  have hpow := pow_le_twelve h12
  have hread : Scanner.Reads 0 (b :: t) (durDigit acc) _ :=
    (reads_check (b := decide (acc.2 < 12))).bind fun _ _ _ hs =>
    (hs.2 ▸ reads_next).bind fun c _ _ hc =>
    (reads_int64 (x := acc.1 * 10) (by omega)).bind fun v _ _ hv =>
    (reads_int64 (x := v + (c.toNat - 48)) (by
      obtain ⟨rfl, -⟩ := hc
      obtain ⟨rfl, -⟩ := hv
      omega)).bind fun v _ _ _ => reads_pure (v, acc.2 + 1)
  refine hread.congr fun acc' r => ?_
  have hdigit : ((b.toNat - 48 : Nat) : Int) = b.toNat - 48 := Int.ofNat_sub hb.1
  constructor
  · rintro ⟨_, _, ⟨h12, rfl⟩, _, _, ⟨rfl, rfl⟩, _, _, ⟨rfl, rfl⟩, _, _, ⟨rfl, rfl⟩, rfl, rfl⟩
    exact ⟨of_decide_eq_true h12, _, ht, rfl,
      congrArg (fun x : Int => (acc.1 * 10 + x, acc.2 + 1)) hdigit.symm⟩
  · rintro ⟨h12, c, -, hct, rfl⟩
    cases hct
    exact ⟨(), _, ⟨decide_eq_true h12, rfl⟩, b, t, ⟨rfl, rfl⟩, _, t, ⟨rfl, rfl⟩, _, t, ⟨rfl, rfl⟩,
      by rw [hdigit], rfl⟩

theorem DigitStep.read {acc acc' : Int × Nat} {r : Bytes} (hacc : DigitsRead acc)
    (h : DigitStep acc t acc' r) : DigitsRead acc' ∧ r.length < t.length := by
  obtain ⟨h0, hlt, -⟩ := hacc
  obtain ⟨h12, b, hb, rfl, rfl⟩ := h
  have hb' : 48 ≤ b.toNat ∧ b.toNat ≤ 57 := of_decide_eq_true hb
  refine ⟨⟨?_, ?_, h12⟩, Nat.lt_succ_self _⟩
  · dsimp only
    omega
  · rw [pow_succ]
    dsimp only
    omega

/-- The loop over the digits reads them all, 12 at most. -/
theorem loop_digits {acc acc' : Int × Nat} {n : Nat} {r : Bytes} (hn : acc.1 = n)
    (h12 : acc.2 ≤ 12) :
    Loop 0 isDigit DigitStep acc t acc' r ↔ ∃ ds : Bytes, (∀ b ∈ ds, isDigit b = true) ∧
      acc.2 + ds.length ≤ 12 ∧ t = ds ++ r ∧ isDigit (r.headD 0) = false ∧
      acc' = (((ds.foldl (fun a b => 10 * a + (b.toNat - 48)) n : Nat) : Int), acc.2 + ds.length) := by
  constructor
  · intro h
    induction h generalizing n with
    | done hc => exact ⟨[], nofun, h12, rfl, hc, by rw [List.foldl_nil, ← hn]; rfl⟩
    | @step acc u acc₁ s acc₂ r hc hb _ ih =>
      obtain ⟨hlt, b, hb, rfl, rfl⟩ := hb
      obtain ⟨ds, hds, hlen, rfl, hend, rfl⟩ := ih (n := 10 * n + (b.toNat - 48)) (by
        dsimp only
        rw [hn]
        push_cast
        ring) hlt
      refine ⟨b :: ds, List.forall_mem_cons.2 ⟨hb, hds⟩, ?_, rfl, hend, ?_⟩
      · rw [List.length_cons]
        dsimp only at hlen
        omega
      · rw [List.foldl_cons, List.length_cons]
        refine Prod.ext rfl ?_
        dsimp only
        omega
  · rintro ⟨ds, hds, hlen, rfl, hend, rfl⟩
    induction ds generalizing acc n with
    | nil =>
      have hacc : acc = ((n : Int), acc.2 + 0) := Prod.ext hn rfl
      rw [List.foldl_nil, List.length_nil, ← hacc]
      exact .done hend
    | cons b ds ih =>
      obtain ⟨hb, hds⟩ := List.forall_mem_cons.1 hds
      rw [List.length_cons] at hlen
      have hrest : Loop 0 isDigit DigitStep (acc.1 * 10 + (b.toNat - 48 : Nat), acc.2 + 1)
          (ds ++ r) _ r := ih (n := 10 * n + (b.toNat - 48)) (by
          dsimp only
          rw [hn]
          push_cast
          ring) (by dsimp only; omega) hds (by dsimp only; omega)
      rw [List.foldl_cons, List.length_cons, Nat.add_comm ds.length, ← Nat.add_assoc]
      exact .step hb ⟨by omega, b, hb, rfl, rfl⟩ hrest

/-- What may follow a number. -/
def EndsNumber (b : UInt8) : Prop := isDigit b = false ∧ b ≠ 46 ∧ b ≠ 44

theorem reads_durNumber : Scanner.Reads 0 t durNumber fun v r =>
    ∃ n : Numeral, t = n.digits ++ r ∧ EndsNumber (r.headD 0) ∧ v = n.value := by
  have hread : Scanner.Reads 0 t durNumber _ :=
    (reads_loop (I := DigitsRead) (fun acc u hacc _ hc => reads_durDigit hacc hc)
      (fun acc u acc' r hacc _ hb => hb.read hacc) (s := (0, 0))
      ⟨Int.le_refl 0, by decide, by decide⟩).bind fun acc _ _ _ =>
    (reads_check (b := decide (acc.2 ≠ 0))).bind fun _ _ _ _ =>
    reads_peek.bind fun b _ _ _ =>
    (reads_check (b := decide (b ≠ 46 ∧ b ≠ 44))).bind fun _ _ _ _ => reads_pure acc.1
  refine hread.congr fun v r => ?_
  have hloop (acc' : Int × Nat) (r : Bytes) : Loop 0 isDigit DigitStep (0, 0) t acc' r ↔ _ :=
    loop_digits (n := 0) rfl (by decide)
  constructor
  · rintro ⟨acc, s, hl, _, _, ⟨hne, rfl⟩, _, _, ⟨rfl, rfl⟩, _, _, ⟨hend, rfl⟩, rfl, rfl⟩
    obtain ⟨ds, hds, hlen, rfl, hdigit, rfl⟩ := (hloop _ _).1 hl
    have hds0 : ds ≠ [] := by
      rintro rfl
      exact of_decide_eq_true hne rfl
    exact ⟨⟨ds, hds0, by omega, hds⟩, rfl, ⟨hdigit, of_decide_eq_true hend⟩, rfl⟩
  · rintro ⟨n, rfl, ⟨hdigit, hend⟩, rfl⟩
    have hl := (hloop _ _).2 ⟨n.digits, n.all_digits, by have := n.length_le; omega, rfl, hdigit,
      rfl⟩
    have hne : 0 + n.digits.length ≠ 0 := by
      have := List.length_pos_iff.2 n.ne_nil
      omega
    exact ⟨_, r, hl, (), r, ⟨decide_eq_true hne, rfl⟩, _, r, ⟨rfl, rfl⟩, (), r,
      ⟨decide_eq_true hend, rfl⟩, rfl, rfl⟩

/-! ## The time part -/

/-- The invariant of the sum: each stage adds at most 12 digits of hours. -/
def Summed (acc : Int × Nat) : Prop :=
  0 ≤ acc.1 ∧ acc.1 ≤ 10 ^ 12 * (86400 + 3600 * acc.2) ∧ acc.2 ≤ 3

def PartStep (acc : Int × Nat) (u : Bytes) (acc' : Int × Nat) (r : Bytes) : Prop :=
  ∃ (n : Numeral) (x : TimeUnit), acc.2 < x.rank ∧ u = n.digits ++ x.letter :: r ∧
    acc' = (acc.1 + (n.value * x.seconds : Nat), x.rank)

theorem TimeUnit.rank_le (x : TimeUnit) : 1 ≤ x.rank ∧ x.rank ≤ 3 := by
  cases x <;> decide

theorem TimeUnit.seconds_le (x : TimeUnit) : x.seconds ≤ 3600 := by
  cases x <;> decide

theorem TimeUnit.letter_ends (x : TimeUnit) : EndsNumber x.letter := by
  cases x <;> exact ⟨rfl, by decide, by decide⟩

/-- A component of the unit `x` is added within 64 bits. -/
theorem reads_sum {acc : Int × Nat} (hacc : Summed acc) {v : Int} (x : TimeUnit)
    (hv : 0 ≤ v ∧ v ≤ 10 ^ 12 * 3600) :
    Scanner.Reads 0 t (do return (← int64 (acc.1 + v), x.rank)) fun acc' r =>
      acc' = (acc.1 + v, x.rank) ∧ r = t := by
  obtain ⟨h0, hle, h3⟩ := hacc
  have hread : Scanner.Reads 0 t (do return (← int64 (acc.1 + v), x.rank)) _ :=
    (reads_int64 (x := acc.1 + v) (by omega)).bind fun w _ _ _ => reads_pure (w, x.rank)
  refine hread.congr fun acc' r => ?_
  constructor
  · rintro ⟨_, _, ⟨rfl, rfl⟩, rfl, rfl⟩
    exact ⟨rfl, rfl⟩
  · rintro ⟨rfl, rfl⟩
    exact ⟨_, _, ⟨rfl, rfl⟩, rfl, rfl⟩

theorem reads_product {acc : Int × Nat} (hacc : Summed acc) {v : Int} (hv : 0 ≤ v ∧ v < 10 ^ 12)
    (x : TimeUnit) {k : Int} (hk : k = x.seconds) :
    Scanner.Reads 0 t (do return (← int64 (acc.1 + (← int64 (v * k))), x.rank)) fun acc' r =>
      acc' = (acc.1 + v * k, x.rank) ∧ r = t := by
  have hk' : 0 ≤ k ∧ k ≤ 3600 := by
    have := x.seconds_le
    omega
  have hprod : 0 ≤ v * k ∧ v * k ≤ 10 ^ 12 * 3600 :=
    ⟨Int.mul_nonneg hv.1 hk'.1, Int.mul_le_mul (Int.le_of_lt hv.2) hk'.2 hk'.1 (by decide)⟩
  have hread : Scanner.Reads 0 t (do return (← int64 (acc.1 + (← int64 (v * k))), x.rank)) _ :=
    (reads_int64 (x := v * k) (by omega)).bind (H := fun w _ acc' r =>
      acc' = (acc.1 + v * k, x.rank) ∧ r = t) fun w s _ hw => by
        obtain ⟨rfl, rfl⟩ := hw
        exact reads_sum hacc x hprod
  refine hread.congr fun acc' r => ?_
  constructor
  · rintro ⟨_, _, -, h⟩
    exact h
  · exact fun h => ⟨_, _, ⟨rfl, rfl⟩, h⟩

/-- The designator of a component, one of a later stage. -/
theorem reads_durDesignator {acc : Int × Nat} (hacc : Summed acc) {v : Int}
    (hv : 0 ≤ v ∧ v < 10 ^ 12) : Scanner.Reads 0 t (durDesignator acc v) fun acc' r =>
    ∃ u s, t = u :: s ∧ ∃ x : TimeUnit, u = x.letter ∧
        acc.2 < x.rank ∧ acc' = (acc.1 + v * x.seconds, x.rank) ∧ r = s := by
  refine reads_next_bind rfl fun u s _ => ?_
  split
  · next h =>
    refine (reads_product hacc hv .hour rfl).congr fun acc' r => ?_
    constructor
    · rintro ⟨rfl, rfl⟩
      exact ⟨.hour, h.1, h.2, rfl, rfl⟩
    · rintro ⟨x, hu, -, rfl, rfl⟩
      cases x
      · exact ⟨rfl, rfl⟩
      · exact absurd (h.1.symm.trans hu) (by decide)
      · exact absurd (h.1.symm.trans hu) (by decide)
  · next h1 =>
    split
    · next h =>
      refine (reads_product hacc hv .minute rfl).congr fun acc' r => ?_
      constructor
      · rintro ⟨rfl, rfl⟩
        exact ⟨.minute, h.1, h.2, rfl, rfl⟩
      · rintro ⟨x, hu, -, rfl, rfl⟩
        cases x
        · exact absurd (h.1.symm.trans hu) (by decide)
        · exact ⟨rfl, rfl⟩
        · exact absurd (h.1.symm.trans hu) (by decide)
    · next h2 =>
      split
      · next h =>
        refine (reads_sum hacc .second ⟨hv.1, by omega⟩).congr fun acc' r => ?_
        constructor
        · rintro ⟨rfl, rfl⟩
          exact ⟨.second, h.1, h.2, by rw [show ((TimeUnit.second.seconds : Nat) : Int) = 1 from rfl,
            Int.mul_one], rfl⟩
        · rintro ⟨x, hu, -, rfl, rfl⟩
          cases x
          · exact absurd (h.1.symm.trans hu) (by decide)
          · exact absurd (h.1.symm.trans hu) (by decide)
          · exact ⟨by rw [show ((TimeUnit.second.seconds : Nat) : Int) = 1 from rfl, Int.mul_one],
              rfl⟩
      · next h3 =>
        refine reads_reject.congr fun acc' r => ⟨False.elim, ?_⟩
        rintro ⟨x, hu, hlt, -⟩
        cases x
        · exact h1 ⟨hu, hlt⟩
        · exact h2 ⟨hu, hlt⟩
        · exact h3 ⟨hu, hlt⟩

theorem reads_durPart {acc : Int × Nat} (hacc : Summed acc) :
    Scanner.Reads 0 t (durPart acc) (PartStep acc t) := by
  have hread : Scanner.Reads 0 t (durPart acc) _ := reads_durNumber.bind fun v s _ hv =>
    reads_durDesignator hacc (v := v) (by
      obtain ⟨n, -, -, rfl⟩ := hv
      have := n.value_lt
      omega)
  refine hread.congr fun acc' r => ?_
  constructor
  · rintro ⟨_, _, ⟨n, rfl, -, rfl⟩, u, s, rfl, x, rfl, hlt, rfl, rfl⟩
    exact ⟨n, x, hlt, rfl, by push_cast; rfl⟩
  · rintro ⟨n, x, hlt, rfl, rfl⟩
    exact ⟨n.value, _, ⟨n, rfl, x.letter_ends, rfl⟩, x.letter, r, rfl, x, rfl, hlt,
      by push_cast; rfl, rfl⟩

theorem PartStep.read {acc acc' : Int × Nat} {r : Bytes} (hacc : Summed acc)
    (h : PartStep acc t acc' r) : Summed acc' ∧ r.length < t.length := by
  obtain ⟨n, x, hlt, rfl, rfl⟩ := h
  obtain ⟨h0, hle, -⟩ := hacc
  have hprod : n.value * x.seconds ≤ 10 ^ 12 * 3600 :=
    Nat.mul_le_mul (Nat.le_of_lt n.value_lt) x.seconds_le
  have hlen : (n.digits ++ x.letter :: r).length = n.digits.length + (r.length + 1) :=
    List.length_append
  refine ⟨⟨?_, ?_, x.rank_le.2⟩, by omega⟩ <;> dsimp only <;> omega

theorem ne_zero_of_isDigit {b : UInt8} (h : isDigit b = true) : b ≠ 0 := by
  rintro rfl
  cases h

/-- The loop over the time part reads components of later and later stages. -/
theorem loop_parts {acc : Int × Nat} {v : Int} {r : Bytes} :
    (∃ k, Loop 0 inText PartStep acc t (v, k) r) ↔ ∃ ps : Parts, Ordered ps ∧
      (∀ p ∈ ps, acc.2 < p.2.rank) ∧ t = partsText ps ++ r ∧ r.headD 0 = 0 ∧
      v = acc.1 + partsSeconds ps := by
  constructor
  · rintro ⟨k, h⟩
    generalize hv : (v, k) = acc' at h
    induction h with
    | done hc =>
      subst hv
      exact ⟨[], .nil, nofun, rfl, not_not.1 (of_decide_eq_false hc), (Int.add_zero v).symm⟩
    | step _ hb _ ih =>
      obtain ⟨n, x, hlt, rfl, rfl⟩ := hb
      obtain ⟨ps, hps, hlater, rfl, hend, rfl⟩ := ih hv
      refine ⟨(n, x) :: ps, List.pairwise_cons.2 ⟨hlater, hps⟩, List.forall_mem_cons.2 ⟨hlt, ?_⟩,
        ?_, hend, ?_⟩
      · exact fun p hp => Nat.lt_trans hlt (hlater p hp)
      · simp only [partsText, List.flatMap_cons, List.append_assoc, List.cons_append,
          List.nil_append]
      · simp only [partsSeconds, List.map_cons, List.sum_cons]
        push_cast
        ring
  · rintro ⟨ps, hps, hlater, rfl, hend, rfl⟩
    induction ps generalizing acc with
    | nil =>
      refine ⟨acc.2, ?_⟩
      have hacc : (acc.1 + ((partsSeconds [] : Nat) : Int), acc.2) = acc :=
        Prod.ext (Int.add_zero acc.1) rfl
      rw [hacc]
      exact .done (decide_eq_false (not_not.2 hend))
    | cons p ps ih =>
      obtain ⟨hfirst, hps⟩ := List.pairwise_cons.1 hps
      obtain ⟨hlt, -⟩ := List.forall_mem_cons.1 hlater
      obtain ⟨k, hk⟩ : ∃ k, Loop 0 inText PartStep
          (acc.1 + (p.1.value * p.2.seconds : Nat), p.2.rank) (partsText ps ++ r)
          (acc.1 + (p.1.value * p.2.seconds : Nat) + (partsSeconds ps : Nat), k) r := ih hps hfirst
      have hsum : acc.1 + (partsSeconds (p :: ps) : Nat) =
          acc.1 + (p.1.value * p.2.seconds : Nat) + (partsSeconds ps : Nat) := by
        simp only [partsSeconds, List.map_cons, List.sum_cons]
        push_cast
        ring
      have htext : partsText (p :: ps) ++ r = p.1.digits ++ p.2.letter :: (partsText ps ++ r) := by
        simp only [partsText, List.flatMap_cons, List.append_assoc, List.cons_append,
          List.nil_append]
      rw [hsum, htext]
      have hhead : inText ((p.1.digits ++ p.2.letter :: (partsText ps ++ r)).headD 0) = true :=
        decide_eq_true (ne_zero_of_isDigit (p.1.head_isDigit _))
      exact ⟨k, .step hhead ⟨p.1, p.2, hlt, rfl, rfl⟩ hk⟩

theorem reads_durTime {acc : Int} (h0 : 0 ∉ t) (hacc : 0 ≤ acc ∧ acc ≤ 10 ^ 12 * 86400) :
    Scanner.Reads 0 t (durTime acc) fun v r => ∃ ps : Parts, ps ≠ [] ∧ Ordered ps ∧
      t = ascii "T" ++ partsText ps ∧ v = acc + partsSeconds ps ∧ r = [] := by
  have hread : Scanner.Reads 0 t (durTime acc) _ :=
    (reads_spell (w := ascii "T") (by decide)).bind fun _ _ _ _ =>
    reads_peek.bind fun b _ _ _ =>
    (reads_check (b := decide (b ≠ 0))).bind fun _ _ _ _ =>
    (reads_loop (c := inText) (I := Summed) (fun _ _ hs _ _ => reads_durPart hs)
      (fun _ _ _ _ hs _ hb => hb.read hs) (s := (acc, 0)) ⟨hacc.1, hacc.2, Nat.zero_le 3⟩).bind
        fun v _ _ _ => reads_pure v.1
  refine hread.congr fun v r => ⟨fun hG => ?_, ?_⟩
  · have hr := hread.suffix hG
    obtain ⟨_, _, rfl, _, _, ⟨rfl, rfl⟩, _, _, ⟨hne, rfl⟩, ⟨w, k⟩, _, hl, rfl, rfl⟩ := hG
    obtain ⟨ps, hps, -, rfl, hend, rfl⟩ := loop_parts.1 ⟨k, hl⟩
    obtain rfl := (headD_eq_zero fun h => h0 (hr.subset h)).1 hend
    refine ⟨ps, ?_, hps, by rw [List.append_nil], rfl, rfl⟩
    rintro rfl
    exact of_decide_eq_true hne rfl
  · rintro ⟨ps, hne, hps, rfl, rfl, rfl⟩
    obtain ⟨k, hk⟩ : ∃ k, Loop 0 inText PartStep (acc, 0) (partsText ps ++ [])
        (acc + (partsSeconds ps : Nat), k) [] :=
      loop_parts.2 ⟨ps, hps, fun p _ => p.2.rank_le.1, rfl, rfl, rfl⟩
    rw [List.append_nil] at hk
    have hhead : (partsText ps).headD 0 ≠ 0 := by
      obtain _ | ⟨p, ps⟩ := ps
      · exact absurd rfl hne
      · rw [partsText, List.flatMap_cons, List.append_assoc]
        exact ne_zero_of_isDigit (p.1.head_isDigit _)
    exact ⟨(), _, rfl, _, _, ⟨rfl, rfl⟩, (), _, ⟨decide_eq_true hhead, rfl⟩, _, [], hk, rfl, rfl⟩

/-! ## The duration -/

theorem reads_durWeeks {v : Int} (hv : 0 ≤ v ∧ v < 10 ^ 12) (h0 : 0 ∉ t) :
    Scanner.Reads 0 t (durWeeks v) fun w r => t = [] ∧ w = v * 604800 ∧ r = [] := by
  have hread : Scanner.Reads 0 t (durWeeks v) _ :=
    reads_peek.bind fun b _ _ _ => (reads_check (b := decide (b = 0))).bind fun _ _ _ _ =>
      reads_int64 (x := v * 604800) (by omega)
  refine hread.congr fun w r => ?_
  constructor
  · rintro ⟨_, _, ⟨rfl, rfl⟩, _, _, ⟨hend, rfl⟩, rfl, rfl⟩
    have hnil := (headD_eq_zero h0).1 (of_decide_eq_true hend)
    exact ⟨hnil, rfl, hnil⟩
  · rintro ⟨rfl, rfl, rfl⟩
    exact ⟨0, [], ⟨rfl, rfl⟩, (), [], ⟨rfl, rfl⟩, rfl, rfl⟩

theorem reads_durDays {v : Int} (hv : 0 ≤ v ∧ v < 10 ^ 12) (h0 : 0 ∉ t) :
    Scanner.Reads 0 t (durDays v) fun w r => ∃ ps : Parts, Ordered ps ∧
      t = (if ps = [] then [] else ascii "T" ++ partsText ps) ∧ w = v * 86400 + partsSeconds ps ∧
      r = [] := by
  have hread : Scanner.Reads 0 t (durDays v) _ :=
    (reads_int64 (x := v * 86400) (by omega)).bind (H := fun acc s w r => ∃ ps : Parts, Ordered ps ∧
      t = (if ps = [] then [] else ascii "T" ++ partsText ps) ∧ w = v * 86400 + partsSeconds ps ∧
      r = []) fun acc s _ hacc => by
        obtain ⟨rfl, rfl⟩ := hacc
        refine reads_peek_bind ?_
        split
        · next hend =>
          obtain rfl := (headD_eq_zero h0).1 hend
          refine (reads_pure _).congr fun w r => ?_
          constructor
          · rintro ⟨rfl, rfl⟩
            exact ⟨[], .nil, rfl, (Int.add_zero _).symm, rfl⟩
          · rintro ⟨ps, -, hps, rfl, rfl⟩
            split at hps
            · next hnil => exact ⟨by rw [hnil]; exact Int.add_zero _, rfl⟩
            · cases hps
        · next hend =>
          refine (reads_durTime h0 ⟨by omega, by omega⟩).congr fun w r => ?_
          constructor
          · rintro ⟨ps, hne, hps, ht, rfl, rfl⟩
            exact ⟨ps, hps, by rw [if_neg hne, ht], rfl, rfl⟩
          · rintro ⟨ps, hps, ht, rfl, rfl⟩
            split at ht
            · exact absurd (ht ▸ rfl) hend
            · next hne => exact ⟨ps, hne, hps, ht, rfl, rfl⟩
  refine hread.congr fun w r => ?_
  constructor
  · rintro ⟨_, _, -, h⟩
    exact h
  · exact fun h => ⟨_, _, ⟨rfl, rfl⟩, h⟩

/-- A duration that begins with a number: of weeks, or of days. -/
def NumberFirst (t : Bytes) (w : Int) (r : Bytes) : Prop :=
  ∃ n : Numeral, (t = n.digits ++ ascii "W" ∧ w = n.value * 604800 ∧ r = []) ∨
    ∃ ps : Parts, Ordered ps ∧
      t = n.digits ++ (ascii "D" ++ if ps = [] then [] else ascii "T" ++ partsText ps) ∧
      w = n.value * 86400 + partsSeconds ps ∧ r = []

theorem reads_durDated (h0 : 0 ∉ t) : Scanner.Reads 0 t durDated (NumberFirst t) := by
  have hletter : ∀ (v : Int) (s : Bytes), 0 ≤ v ∧ v < 10 ^ 12 → 0 ∉ s → Scanner.Reads 0 s (do
      let u ← next
      if u = 87 then durWeeks v
      else if u = 68 then durDays v
      else reject) fun w r => ∃ u s', s = u :: s' ∧
        (u = 87 ∧ s' = [] ∧ w = v * 604800 ∧ r = [] ∨ u = 68 ∧ ∃ ps : Parts, Ordered ps ∧
          s' = (if ps = [] then [] else ascii "T" ++ partsText ps) ∧
          w = v * 86400 + partsSeconds ps ∧ r = []) := by
    intro v s hv hs
    refine reads_next_bind rfl fun u s' hu => ?_
    have hs' : 0 ∉ s' := fun h => hs (hu ▸ List.mem_cons_of_mem u h)
    split
    · next h87 =>
      refine (reads_durWeeks hv hs').congr fun w r => ?_
      constructor
      · exact fun h => .inl ⟨h87, h⟩
      · rintro (⟨-, h⟩ | ⟨h68, -⟩)
        · exact h
        · exact absurd (h87.symm.trans h68) (by decide)
    · next h87 =>
      split
      · next h68 =>
        refine (reads_durDays hv hs').congr fun w r => ?_
        constructor
        · exact fun h => .inr ⟨h68, h⟩
        · rintro (⟨h, -⟩ | ⟨-, h⟩)
          · exact absurd h h87
          · exact h
      · next h68 =>
        refine reads_reject.congr fun w r => ⟨False.elim, ?_⟩
        rintro (⟨h, -⟩ | ⟨h, -⟩)
        · exact h87 h
        · exact h68 h
  have hread : Scanner.Reads 0 t durDated _ := reads_durNumber.bind fun v s hs hv => hletter v s (by
      obtain ⟨n, -, -, rfl⟩ := hv
      have := n.value_lt
      omega) fun h => h0 (hs.subset h)
  refine hread.congr fun w r => ?_
  constructor
  · rintro ⟨_, _, ⟨n, rfl, -, rfl⟩, u, s', rfl, ⟨rfl, rfl, rfl, rfl⟩ | ⟨rfl, ps, hps, rfl, rfl, rfl⟩⟩
    · exact ⟨n, .inl ⟨rfl, rfl, rfl⟩⟩
    · exact ⟨n, .inr ⟨ps, hps, rfl, rfl, rfl⟩⟩
  · rintro ⟨n, ⟨rfl, rfl, rfl⟩ | ⟨ps, hps, rfl, rfl, rfl⟩⟩
    · exact ⟨_, _, ⟨n, rfl, ⟨rfl, by decide, by decide⟩, rfl⟩, 87, [], rfl, .inl ⟨rfl, rfl, rfl, rfl⟩⟩
    · have hends : EndsNumber 68 := ⟨rfl, by decide, by decide⟩
      exact ⟨_, _, ⟨n, rfl, hends, rfl⟩, 68, _, rfl, .inr ⟨rfl, ps, hps, rfl, rfl, rfl⟩⟩

theorem NumberFirst.head {w : Int} {r : Bytes} (h : NumberFirst t w r) :
    isDigit (t.headD 0) = true := by
  obtain ⟨n, ⟨rfl, -⟩ | ⟨ps, -, rfl, -⟩⟩ := h <;> exact n.head_isDigit _

/-- What follows the designator `P`. -/
def AfterP (t : Bytes) (v : Int) (r : Bytes) : Prop :=
  NumberFirst t v r ∨ ∃ ps : Parts, ps ≠ [] ∧ Ordered ps ∧ t = ascii "T" ++ partsText ps ∧
    v = 0 + partsSeconds ps ∧ r = []

theorem afterP_iff {v : Int} {r : Bytes} :
    AfterP t v r ↔ ∃ x : Duration, ascii "P" ++ t = x.text ∧ v = x.seconds ∧ r = [] := by
  constructor
  · rintro (⟨n, ⟨rfl, rfl, rfl⟩ | ⟨ps, hps, rfl, rfl, rfl⟩⟩ | ⟨ps, hne, hps, rfl, rfl, rfl⟩)
    · exact ⟨.weeks n, rfl, rfl, rfl⟩
    · refine ⟨.parts (some n) ps hps (.inl rfl), ?_, ?_, rfl⟩
      · rw [Duration.text, Option.elim_some, List.append_assoc]
      · rw [Duration.seconds, Option.elim_some]
        push_cast
        rfl
    · refine ⟨.parts none ps hps (.inr hne), ?_, ?_, rfl⟩
      · rw [Duration.text, Option.elim_none, List.nil_append, if_neg hne]
      · rfl
  · rintro ⟨x, ht, rfl, rfl⟩
    cases x with
    | weeks n =>
      have hbody : t = n.digits ++ ascii "W" := List.append_cancel_left ht
      exact .inl ⟨n, .inl ⟨hbody, rfl, rfl⟩⟩
    | parts days ps hps hsome =>
      have hbody := List.append_cancel_left ht
      cases days with
      | none =>
        have hne : ps ≠ [] := hsome.resolve_left Bool.false_ne_true
        rw [Option.elim_none, List.nil_append, if_neg hne] at hbody
        exact .inr ⟨ps, hne, hps, hbody, rfl, rfl⟩
      | some n =>
        rw [Option.elim_some, List.append_assoc] at hbody
        refine .inl ⟨n, .inr ⟨ps, hps, hbody, ?_, rfl⟩⟩
        rw [Duration.seconds, Option.elim_some]
        push_cast
        rfl

theorem reads_branch (h0 : 0 ∉ t) :
    Scanner.Reads 0 t (do if (← peek) ≠ 84 then durDated else durTime 0) (AfterP t) := by
  refine reads_peek_bind ?_
  split
  · next h84 =>
    refine (reads_durDated h0).congr fun v r => ⟨.inl, ?_⟩
    rintro (h | ⟨ps, -, -, rfl, -⟩)
    · exact h
    · exact absurd rfl h84
  · next h84 =>
    refine (reads_durTime h0 ⟨Int.le_refl 0, by decide⟩).congr fun v r => ⟨.inr, ?_⟩
    rintro (h | h)
    · have hdigit := h.head
      rw [not_not.1 h84] at hdigit
      cases hdigit
    · exact h

theorem reads_durationScan (h0 : 0 ∉ t) : Scanner.Reads 0 t durationScan fun v r =>
    ∃ x : Duration, t = x.text ∧ v = x.seconds ∧ r = [] := by
  have hread : Scanner.Reads 0 t durationScan _ :=
    (reads_spell (w := ascii "P") (by decide)).bind fun _ s hs _ => reads_peek.bind fun b s' _ hs' =>
    (reads_check (b := decide (b ≠ 0))).bind (H := fun _ u => AfterP u) fun _ s'' _ hs'' => by
      obtain ⟨-, rfl⟩ := hs'
      obtain ⟨-, rfl⟩ := hs''
      exact reads_branch fun h => h0 (hs.subset h)
  refine hread.congr fun v r => ?_
  constructor
  · rintro ⟨_, s, rfl, _, _, ⟨rfl, rfl⟩, _, _, ⟨-, rfl⟩, h⟩
    exact afterP_iff.1 h
  · rintro ⟨x, rfl, h⟩
    obtain ⟨s, hs⟩ : ∃ s, x.text = ascii "P" ++ s := by cases x <;> exact ⟨_, rfl⟩
    have hafter : AfterP s v r := afterP_iff.2 ⟨x, hs.symm, h⟩
    have hhead : s.headD 0 ≠ 0 := by
      rcases hafter with h | ⟨ps, -, -, rfl, -⟩
      · exact ne_zero_of_isDigit h.head
      · exact (by decide : (84 : UInt8) ≠ 0)
    exact ⟨(), s, hs, _, s, ⟨rfl, rfl⟩, (), s, ⟨decide_eq_true hhead, rfl⟩, hafter⟩

end

/-- **Durations**: a text is accepted exactly when it is one of the grammar, its value is its number
of seconds, and on every text the scanner reads nothing past the terminator and overflows
nothing. -/
theorem duration_exact (s : CStr) :
    (∀ v, asperDurationParse s = .ok v ↔ ∃ x : Duration, s.val = x.text ∧ v = x.seconds) ∧
      ∀ e, asperDurationParse s = .error e → e = .reject := by
  have h := reads_durationScan s.2
  refine ⟨fun v => h.ok_iff.trans ?_, fun e => h.safe⟩
  constructor
  · rintro ⟨_, x, hx, hv, -⟩
    exact ⟨x, hx, hv⟩
  · rintro ⟨x, hx, hv⟩
    exact ⟨[], x, hx, hv, rfl⟩

end Asper
