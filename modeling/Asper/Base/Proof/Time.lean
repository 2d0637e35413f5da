import Asper.Base.Proof.Calendar

/-! # RFC 3339 timestamps

`Stamp` is a timestamp as RFC 3339 writes it, its fields within their ranges. The scanner accepts
the texts of stamps, and its value is the instant (`parse_text`); what it formats is the stamp in
UTC of the same instant (`exists_utc`). -/

namespace Asper

open Durable (Bytes)
open Decimal (dec isDigit pad number digit)
open Scanner

/-! ## Stamps -/

/-- An offset from UTC. -/
structure Offset where
  hours : Nat
  minutes : Nat
  hours_le : hours ≤ 23
  minutes_le : minutes ≤ 59

namespace Offset

def seconds (o : Offset) : Int := o.hours * 3600 + o.minutes * 60

def text (o : Offset) : Bytes := pad 2 o.hours ++ ascii ":" ++ pad 2 o.minutes

end Offset

/-- `Z`, or an offset to the east or to the west. -/
inductive Zone where
  | utc (letter : UInt8) (h : letter = 90 ∨ letter = 122)
  | east (o : Offset)
  | west (o : Offset)

namespace Zone

/-- How far local time is ahead. -/
def ahead : Zone → Int
  | utc _ _ => 0
  | east o => o.seconds
  | west o => -o.seconds

def text : Zone → Bytes
  | utc letter _ => [letter]
  | east o => ascii "+" ++ o.text
  | west o => ascii "-" ++ o.text

end Zone

/-- A timestamp. A second of 60 is a leap second. -/
structure Stamp where
  date : Date
  year_mem : 0 ≤ date.year ∧ date.year < 10000
  letter : UInt8
  letter_mem : letter = 84 ∨ letter = 116
  hour : Nat
  minute : Nat
  second : Nat
  hour_le : hour ≤ 23
  minute_le : minute ≤ 59
  second_le : second ≤ 60
  fraction : Bytes
  fraction_digits : ∀ b ∈ fraction, isDigit b = true
  zone : Zone

/-- A fraction of no digits is none. -/
def fractionText (ds : Bytes) : Bytes := if ds = [] then [] else 46 :: ds

namespace Stamp

def text (x : Stamp) : Bytes :=
  pad 4 x.date.year.toNat ++ (ascii "-" ++ (pad 2 x.date.month ++ (ascii "-" ++
    (pad 2 x.date.day ++ (x.letter :: (pad 2 x.hour ++ (ascii ":" ++ (pad 2 x.minute ++
      (ascii ":" ++ (pad 2 x.second ++ (fractionText x.fraction ++ x.zone.text)))))))))))

/-- Seconds since the epoch; the fraction is dropped. -/
def instant (x : Stamp) : Int :=
  daysFromCivil x.date.year x.date.month x.date.day * 86400 + x.hour * 3600 + x.minute * 60 +
    x.second - x.zone.ahead

end Stamp

/-! ## Digits -/

theorem isDigit_zero : isDigit 0 = false := rfl

section
variable {t : Bytes}

theorem reads_digitsFrom (n v : Nat) : Scanner.Reads 0 t (digitsFrom n v) fun v' r => ∃ ds : Bytes,
    ds.length = n ∧ (∀ b ∈ ds, isDigit b = true) ∧ t = ds ++ r ∧
      v' = ds.foldl (fun a b => 10 * a + (b.toNat - 48)) v := by
  induction n generalizing t v with
  | zero =>
    refine (reads_pure v).congr fun v' r => ?_
    constructor
    · rintro ⟨rfl, rfl⟩
      exact ⟨[], rfl, nofun, rfl, rfl⟩
    · rintro ⟨ds, hl, -, rfl, rfl⟩
      obtain rfl := List.length_eq_zero_iff.1 hl
      exact ⟨rfl, rfl⟩
  | succ n ih =>
    have hread : Scanner.Reads 0 t (digitsFrom (n + 1) v) _ :=
      (reads_sat isDigit_zero).bind fun b s _ _ => ih (t := s) (v * 10 + (b.toNat - 48))
    refine hread.congr fun v' r => ?_
    constructor
    · rintro ⟨b, s, ⟨hb, rfl⟩, ds, hl, hds, rfl, rfl⟩
      refine ⟨b :: ds, congrArg Nat.succ hl, List.forall_mem_cons.2 ⟨hb, hds⟩, rfl, ?_⟩
      rw [List.foldl_cons, Nat.mul_comm]
    · rintro ⟨ds, hl, hds, rfl, rfl⟩
      obtain _ | ⟨b, ds⟩ := ds
      · cases hl
      · obtain ⟨hb, hds⟩ := List.forall_mem_cons.1 hds
        refine ⟨b, ds ++ r, ⟨hb, rfl⟩, ds, Nat.succ.inj hl, hds, rfl, ?_⟩
        rw [List.foldl_cons, Nat.mul_comm]

/-- Exactly `n` digits are read, as the numeral of that width. -/
theorem reads_parseDigits (n : Nat) :
    Scanner.Reads 0 t (parseDigits n) fun v r => v < 10 ^ n ∧ t = pad n v ++ r := by
  refine (reads_digitsFrom n 0).congr fun v r => ?_
  constructor
  · rintro ⟨ds, rfl, hds, rfl, rfl⟩
    obtain ⟨hlt, hpad⟩ := Decimal.pad_number ds hds
    exact ⟨hlt, congrArg (· ++ r) hpad.symm⟩
  · rintro ⟨hlt, rfl⟩
    exact ⟨pad n v, Decimal.length_pad n v, Decimal.pad_digits n v, rfl,
      (Decimal.number_pad hlt).symm⟩

/-- The digits of a fraction end where no digit follows. -/
theorem reads_fractionScan : Scanner.Reads 0 t fractionScan fun _ r => ∃ ds : Bytes,
    (∀ b ∈ ds, isDigit b = true) ∧ t = fractionText ds ++ r ∧
      if ds = [] then r.headD 0 ≠ 46 else isDigit (r.headD 0) = false := by
  refine reads_peek_bind ?_
  split
  · next h46 =>
    obtain _ | ⟨a, t⟩ := t
    · cases h46
    obtain rfl : a = 46 := h46
    have hread : Scanner.Reads 0 (46 :: t) (do
        let _ ← next
        let _ ← sat isDigit
        skipWhile isDigit) _ := reads_next.bind fun _ s _ hs =>
      (reads_sat isDigit_zero).bind fun b s' _ hs' => reads_skipWhile isDigit_zero
    refine hread.congr fun _ r => ?_
    constructor
    · rintro ⟨_, s, ⟨rfl, rfl⟩, b, _, ⟨hb, rfl⟩, w, hw, rfl, hend⟩
      exact ⟨b :: w, List.forall_mem_cons.2 ⟨hb, hw⟩, rfl, by rwa [if_neg (List.cons_ne_nil _ _)]⟩
    · rintro ⟨ds, hds, ht, hend⟩
      obtain _ | ⟨b, ds⟩ := ds
      · rw [if_pos rfl] at hend
        obtain rfl : 46 :: t = r := ht
        exact absurd rfl hend
      · obtain ⟨hb, hds⟩ := List.forall_mem_cons.1 hds
        rw [if_neg (List.cons_ne_nil _ _)] at hend
        cases ht
        exact ⟨46, _, ⟨rfl, rfl⟩, b, _, ⟨hb, rfl⟩, ds, hds, rfl, hend⟩
  · next h46 =>
    refine (reads_pure ()).congr fun _ r => ?_
    constructor
    · rintro ⟨-, rfl⟩
      exact ⟨[], nofun, rfl, h46⟩
    · rintro ⟨ds, -, rfl, -⟩
      obtain _ | ⟨b, ds⟩ := ds
      · exact ⟨rfl, rfl⟩
      · exact absurd rfl h46

theorem reads_offset (sign : UInt8) : Scanner.Reads 0 t (do
    let offh ← parseDigits 2
    spell (ascii ":")
    let offm ← parseDigits 2
    check (offh ≤ 23 ∧ offm ≤ 59)
    return if sign = 43 then -(offh * 3600 + offm * 60 : Int) else offh * 3600 + offm * 60)
      fun v r => ∃ o : Offset, t = o.text ++ r ∧ v = if sign = 43 then -o.seconds else o.seconds := by
  have hread : Scanner.Reads 0 t (do
      let offh ← parseDigits 2
      spell (ascii ":")
      let offm ← parseDigits 2
      check (offh ≤ 23 ∧ offm ≤ 59)
      return if sign = 43 then -(offh * 3600 + offm * 60 : Int) else offh * 3600 + offm * 60) _ :=
    (reads_parseDigits 2).bind fun h _ _ _ =>
    (reads_spell (w := ascii ":") (by decide)).bind fun _ _ _ _ =>
    (reads_parseDigits 2).bind fun m _ _ _ =>
    (reads_check (b := decide (h ≤ 23 ∧ m ≤ 59))).bind fun _ _ _ _ =>
    reads_pure (if sign = 43 then -(h * 3600 + m * 60 : Int) else h * 3600 + m * 60)
  refine hread.congr fun v r => ?_
  constructor
  · rintro ⟨h, _, ⟨-, rfl⟩, _, _, rfl, m, _, ⟨-, rfl⟩, _, _, ⟨hok, rfl⟩, rfl, rfl⟩
    obtain ⟨hh, hm⟩ := of_decide_eq_true hok
    refine ⟨⟨h, m, hh, hm⟩, ?_, rfl⟩
    rw [Offset.text, List.append_assoc, List.append_assoc]
  · rintro ⟨⟨h, m, hh, hm⟩, rfl, rfl⟩
    refine ⟨h, _, ⟨Nat.lt_of_le_of_lt hh (by decide), ?_⟩, (), _, rfl, m, _,
      ⟨Nat.lt_of_le_of_lt hm (by decide), rfl⟩, (), _, ⟨decide_eq_true ⟨hh, hm⟩, rfl⟩, rfl, rfl⟩
    rw [Offset.text, List.append_assoc, List.append_assoc]

theorem reads_offsetScan :
    Scanner.Reads 0 t offsetScan fun v r => ∃ zone : Zone, t = zone.text ++ r ∧ v = -zone.ahead := by
  have hread : Scanner.Reads 0 t offsetScan _ := reads_next_bind (H := fun sign s v r =>
      (sign = 90 ∨ sign = 122) ∧ v = 0 ∧ r = s ∨
      (sign = 43 ∨ sign = 45) ∧ ∃ o : Offset, s = o.text ++ r ∧
        v = if sign = 43 then -o.seconds else o.seconds) rfl fun sign s _ => by
    split
    · next hu =>
      have hs : ¬ (sign = 43 ∨ sign = 45) := by rcases hu with rfl | rfl <;> decide
      refine (reads_pure 0).congr fun v r => ?_
      simp only [hu, hs, false_and, or_false, true_and]
    · next hu =>
      split
      · next hs =>
        refine (reads_offset sign).congr fun v r => ?_
        simp only [hs, hu, false_and, false_or, true_and]
      · next hs =>
        refine reads_reject.congr fun v r => ?_
        simp only [hs, hu, false_and, or_false]
  refine hread.congr fun v r => ?_
  constructor
  · rintro ⟨sign, s, rfl, ⟨hu, rfl, rfl⟩ | ⟨hs, o, rfl, rfl⟩⟩
    · exact ⟨.utc sign hu, rfl, rfl⟩
    · rcases hs with rfl | rfl
      · exact ⟨.east o, rfl, rfl⟩
      · exact ⟨.west o, rfl, (Int.neg_neg _).symm⟩
  · rintro ⟨zone, rfl, rfl⟩
    cases zone with
    | utc letter h => exact ⟨letter, r, rfl, .inl ⟨h, rfl, rfl⟩⟩
    | east o => exact ⟨43, o.text ++ r, rfl, .inr ⟨.inl rfl, o, rfl, rfl⟩⟩
    | west o => exact ⟨45, o.text ++ r, rfl, .inr ⟨.inr rfl, o, rfl, Int.neg_neg _⟩⟩

/-- The rest of a scanner's text is at the terminator. -/
theorem headD_eq_zero (h0 : 0 ∉ t) : t.headD 0 = 0 ↔ t = [] := by
  cases t with
  | nil => exact ⟨fun _ => rfl, fun _ => rfl⟩
  | cons b t => exact ⟨fun h => absurd (h ▸ List.mem_cons_self) h0, nofun⟩

theorem reads_fieldsScan {w : Nat} {s : Bytes} (hs : 0 ∉ s) :
    Scanner.Reads 0 t (fieldsScan w s) fun v r => (v.1 < 10 ^ w ∧ v.2.1 < 100 ∧ v.2.2 < 100) ∧
      t = pad w v.1 ++ (s ++ (pad 2 v.2.1 ++ (s ++ (pad 2 v.2.2 ++ r)))) := by
  have hread : Scanner.Reads 0 t (fieldsScan w s) _ :=
    (reads_parseDigits w).bind fun a _ _ _ => (reads_spell hs).bind fun _ _ _ _ =>
    (reads_parseDigits 2).bind fun b _ _ _ => (reads_spell hs).bind fun _ _ _ _ =>
    (reads_parseDigits 2).bind fun c _ _ _ => reads_pure (a, b, c)
  refine hread.congr fun v r => ?_
  constructor
  · rintro ⟨a, _, ⟨ha, rfl⟩, _, _, rfl, b, _, ⟨hb, rfl⟩, _, _, rfl, c, _, ⟨hc, rfl⟩, rfl, rfl⟩
    exact ⟨⟨ha, hb, hc⟩, rfl⟩
  · rintro ⟨⟨ha, hb, hc⟩, rfl⟩
    exact ⟨v.1, _, ⟨ha, rfl⟩, (), _, rfl, v.2.1, _, ⟨hb, rfl⟩, (), _, rfl, v.2.2, r, ⟨hc, rfl⟩, rfl,
      rfl⟩

theorem Zone.text_head (zone : Zone) :
    zone.text.headD 0 ≠ 46 ∧ isDigit (zone.text.headD 0) = false := by
  cases zone with
  | utc letter h => rcases h with rfl | rfl <;> decide
  | east o =>
    have h : (Zone.east o).text.headD 0 = 43 := rfl
    exact h ▸ ⟨by decide, rfl⟩
  | west o =>
    have h : (Zone.west o).text.headD 0 = 45 := rfl
    exact h ▸ ⟨by decide, rfl⟩

theorem Stamp.text_eq (x : Stamp) : x.text =
    pad 4 x.date.year.toNat ++ (ascii "-" ++ (pad 2 x.date.month ++ (ascii "-" ++
      (pad 2 x.date.day ++ (x.letter :: (pad 2 x.hour ++ (ascii ":" ++ (pad 2 x.minute ++
        (ascii ":" ++ (pad 2 x.second ++ (fractionText x.fraction ++ (x.zone.text ++ [])))))))))))) := by
  rw [List.append_nil]
  rfl

theorem reads_rfc3339Scanner.Scan (h0 : 0 ∉ t) : Scanner.Reads 0 t rfc3339Scanner.Scan fun v r =>
    ∃ x : Stamp, t = x.text ∧ v = x.instant ∧ r = [] := by
  have hread : Scanner.Reads 0 t rfc3339Scanner.Scan _ :=
    (reads_fieldsScan (w := 4) (s := ascii "-") (by decide)).bind fun date _ h₁ _ =>
    (reads_sat (f := fun b => b = 84 ∨ b = 116) rfl).bind fun _ _ h₂ _ =>
    (reads_fieldsScan (w := 2) (s := ascii ":") (by decide)).bind fun time _ h₃ _ =>
    reads_fractionScan.bind fun _ _ h₄ _ =>
    reads_offsetScan.bind fun off _ h₅ _ =>
    reads_peek.bind fun b _ _ _ =>
    (reads_check (b := decide (b = 0))).bind fun _ _ _ _ =>
    (reads_check (b := decide (1 ≤ date.2.1 ∧ date.2.1 ≤ 12))).bind fun _ _ _ _ =>
    (reads_check (b := decide (1 ≤ date.2.2 ∧
      date.2.2 ≤ daysInMonth date.1 date.2.1))).bind fun _ _ _ _ =>
    (reads_check (b := decide (time.1 ≤ 23 ∧ time.2.1 ≤ 59 ∧
      time.2.2 ≤ 60))).bind fun _ _ _ _ =>
    reads_pure (daysFromCivil date.1 date.2.1 date.2.2 * 86400 + time.1 * 3600 + time.2.1 * 60 +
      time.2.2 + off)
  refine hread.congr fun v r => ⟨fun hG => ?_, ?_⟩
  · have hr : r <:+ t := hread.suffix hG
    obtain ⟨⟨y, mo, d⟩, _, ⟨⟨hy, -, -⟩, rfl⟩, b, _, ⟨hb, rfl⟩, ⟨h, mi, se⟩, _, ⟨-, rfl⟩,
      _, _, ⟨ds, hds, rfl, -⟩, _, r', ⟨zone, rfl, rfl⟩, _, _, ⟨rfl, rfl⟩, _, _, ⟨hend, rfl⟩,
      _, _, ⟨hmo, rfl⟩, _, _, ⟨hd, rfl⟩, _, _, ⟨hti, rfl⟩, rfl, rfl⟩ := hG
    obtain rfl := (headD_eq_zero fun h => h0 (hr.subset h)).1 (of_decide_eq_true hend)
    obtain ⟨hh, hmi, hse⟩ := of_decide_eq_true hti
    let x : Stamp := ⟨⟨y, mo, d, of_decide_eq_true hmo, of_decide_eq_true hd⟩,
      ⟨Int.natCast_nonneg y, Int.ofNat_lt.2 hy⟩, b, of_decide_eq_true hb, h, mi, se, hh, hmi, hse,
      ds, hds, zone⟩
    refine ⟨x, ?_, ?_, rfl⟩
    · rw [x.text_eq]
      simp only [x, Int.toNat_natCast]
    · simp only [x, Stamp.instant, sub_eq_add_neg]
  · rintro ⟨x, rfl, rfl, rfl⟩
    have hyear : (x.date.year.toNat : Int) = x.date.year := Int.toNat_of_nonneg x.year_mem.1
    have hyear' : x.date.year.toNat < 10 ^ 4 := by
      have := x.year_mem.2
      omega
    have hmonth := x.date.month_mem
    have hday := x.date.day_mem
    have hmonth100 : x.date.month < 100 := by omega
    have hday100 : x.date.day < 100 := by
      have := x.date.day_lt.1
      omega
    obtain ⟨hhead, hhead'⟩ := x.zone.text_head
    have hfrac : if x.fraction = [] then (x.zone.text ++ []).headD 0 ≠ 46
        else isDigit ((x.zone.text ++ []).headD 0) = false := by
      rw [List.append_nil]
      split
      · exact hhead
      · exact hhead'
    refine ⟨(x.date.year.toNat, x.date.month, x.date.day), _, ⟨⟨hyear', hmonth100, hday100⟩,
      x.text_eq⟩, x.letter, _, ⟨decide_eq_true x.letter_mem, rfl⟩, (x.hour, x.minute, x.second), _,
      ⟨⟨?_, ?_, ?_⟩, rfl⟩, (), _, ⟨x.fraction, x.fraction_digits, rfl, hfrac⟩, _, [],
      ⟨x.zone, rfl, rfl⟩, 0, [], ⟨rfl, rfl⟩, (), [], ⟨rfl, rfl⟩, (), [],
      ⟨decide_eq_true hmonth, rfl⟩, (), [], ⟨decide_eq_true ?_, rfl⟩, (), [], ⟨decide_eq_true
        ⟨x.hour_le, x.minute_le, x.second_le⟩, rfl⟩, ?_, rfl⟩
    · exact Nat.lt_of_le_of_lt x.hour_le (by decide)
    · exact Nat.lt_of_le_of_lt x.minute_le (by decide)
    · exact Nat.lt_of_le_of_lt x.second_le (by decide)
    · rw [hyear]
      exact hday
    · rw [hyear, Stamp.instant, sub_eq_add_neg]

end

/-! ## Parsing and formatting -/

theorem parse_text (s : CStr) (v : Int) :
    asperTimeParseRfc3339 s = some v ↔ ∃ x : Stamp, s.val = x.text ∧ v = x.instant := by
  have h := reads_rfc3339Scanner.Scan s.2
  have hopt : asperTimeParseRfc3339 s = some v ↔ rfc3339Scanner.Scan.run' (s.val ++ [0]) = .ok v := by
    rw [asperTimeParseRfc3339]
    cases rfc3339Scanner.Scan.run' (s.val ++ [0]) <;> simp [Except.toOption]
  rw [hopt, h.ok_iff]
  constructor
  · rintro ⟨_, x, hx, hv, -⟩
    exact ⟨x, hx, hv⟩
  · rintro ⟨x, hx, hv⟩
    exact ⟨[], x, hx, hv, rfl⟩

/-- The year that the formatter writes. -/
def yearUtc (t : Int) : Int := (civilFromDays (t / 86400)).1

theorem zeroPad_natCast {w n : Nat} (h : n < 10 ^ (w + 1)) :
    zeroPad (w + 1) (n : Int) = pad (w + 1) n := by
  rw [zeroPad, if_neg (Int.not_lt.2 (Int.natCast_nonneg n)), Int.natAbs_natCast,
    Decimal.replicate_dec h]

/-- Division as in C, corrected below zero, is the floor. -/
theorem day_split (t : Int) :
    (if t.tmod 86400 < 0 then t.tdiv 86400 - 1 else t.tdiv 86400) = t / 86400 ∧
      (if t.tmod 86400 < 0 then t.tmod 86400 + 86400 else t.tmod 86400) = t % 86400 := by
  have hsplit := Int.tdiv_mul_add_tmod t 86400
  have hlt := Int.tmod_lt_of_pos t (b := 86400) (by decide)
  have hgt : -86400 < t.tmod 86400 := Int.lt_tmod_of_pos t (by decide)
  split <;> omega

/-- The stamp of `t` in UTC. -/
theorem exists_utc {t : Int} (h : 0 ≤ yearUtc t ∧ yearUtc t < 10000) : ∃ x : Stamp,
    x.zone = .utc 90 (.inl rfl) ∧ x.fraction = [] ∧ x.second ≤ 59 ∧ x.instant = t ∧
      asperTimeFormatRfc3339 t = x.text := by
  obtain ⟨date, hdate, hdays⟩ := daysFromCivil_civilFromDays (t / 86400)
  rw [yearUtc, hdate] at h
  obtain ⟨n, hn⟩ : ∃ n : Nat, t % 86400 = n :=
    ⟨_, (Int.toNat_of_nonneg (Int.emod_nonneg t (by decide))).symm⟩
  have hn86400 : n < 86400 := by omega
  let x : Stamp := ⟨date, h, 84, .inl rfl, n / 3600, n / 60 % 60, n % 60, by omega, by omega,
    by omega, [], nofun, .utc 90 (.inl rfl)⟩
  have hsecond : n % 60 ≤ 59 := by omega
  refine ⟨x, rfl, rfl, hsecond, ?_, ?_⟩
  · have hx : x.instant = daysFromCivil date.year date.month date.day * 86400 +
        (n / 3600 : Nat) * 3600 + (n / 60 % 60 : Nat) * 60 + (n % 60 : Nat) - 0 := rfl
    rw [hx, hdays]
    omega
  · have hyear : date.year = (date.year.toNat : Int) := (Int.toNat_of_nonneg h.1).symm
    have hday := date.day_lt.1
    have hmonth := date.month_mem
    have hh : (n : Int).tdiv 3600 = (n / 3600 : Nat) := rfl
    have hmi : ((n : Int).tdiv 60).tmod 60 = (n / 60 % 60 : Nat) := rfl
    have hse : (n : Int).tmod 60 = (n % 60 : Nat) := rfl
    rw [asperTimeFormatRfc3339]
    simp only [(day_split t).1, (day_split t).2, hdate, hn, hh, hmi, hse]
    rw [hyear, zeroPad_natCast (w := 3) (by omega), zeroPad_natCast (w := 1) (by omega),
      zeroPad_natCast (w := 1) (by omega), zeroPad_natCast (w := 1) (by omega),
      zeroPad_natCast (w := 1) (by omega), zeroPad_natCast (w := 1) (by omega),
      List.take_of_length_le (by simp [Decimal.length_pad]; decide), x.text_eq]
    simp only [x, List.append_assoc]
    rfl

theorem Stamp.text_noNul (x : Stamp) : 0 ∉ x.text := by
  have hdigits : ∀ {ds : Bytes}, (∀ b ∈ ds, isDigit b = true) → 0 ∉ ds :=
    fun h h0 => absurd (h 0 h0) (by decide)
  have hpad : ∀ w n, 0 ∉ pad w n := fun w n => hdigits (Decimal.pad_digits w n)
  have hletter : x.letter ≠ 0 := by rcases x.letter_mem with h | h <;> rw [h] <;> decide
  have hfraction : 0 ∉ fractionText x.fraction := by
    rw [fractionText]
    split
    · exact List.not_mem_nil
    · exact List.not_mem_cons_of_ne_of_not_mem (by decide) (hdigits x.fraction_digits)
  have hzone : 0 ∉ x.zone.text := by
    cases x.zone with
    | utc letter h => rcases h with rfl | rfl <;> decide
    | east o => simp [Zone.text, Offset.text, hpad]; decide
    | west o => simp [Zone.text, Offset.text, hpad]; decide
  have hdash : (0 : UInt8) ∉ ascii "-" := by decide
  have hcolon : (0 : UInt8) ∉ ascii ":" := by decide
  rw [Stamp.text]
  simp only [List.mem_append, List.mem_cons, hpad, hdash, hcolon, hfraction, hzone, hletter.symm,
    or_self, not_false_eq_true]

theorem parse_stamp (x : Stamp) : asperTimeParseRfc3339 (cstr x.text) = some x.instant :=
  (parse_text _ _).2 ⟨x, cstr_self x.text_noNul, rfl⟩

/-- The texts with these date and time fields, within their ranges or not. -/
def fieldsText (y mo d : Nat) (b : UInt8) (h mi se : Nat) (rest : Bytes) : Bytes :=
  pad 4 y ++ (ascii "-" ++ (pad 2 mo ++ (ascii "-" ++ (pad 2 d ++ (b :: (pad 2 h ++ (ascii ":" ++
    (pad 2 mi ++ (ascii ":" ++ (pad 2 se ++ rest))))))))))

theorem pad_append_inj {w m n : Nat} {u v : Bytes} (hm : m < 10 ^ w) (hn : n < 10 ^ w)
    (h : pad w m ++ u = pad w n ++ v) : m = n ∧ u = v := by
  obtain ⟨hpad, hrest⟩ := List.append_inj h (by rw [Decimal.length_pad, Decimal.length_pad])
  rw [← Decimal.number_pad hm, hpad, Decimal.number_pad hn]
  exact ⟨rfl, hrest⟩

/-- The ranges of the fields. -/
def FieldsPossible (y mo d h mi se : Nat) : Prop :=
  (1 ≤ mo ∧ mo ≤ 12) ∧ (1 ≤ d ∧ d ≤ daysInMonth y mo) ∧ h ≤ 23 ∧ mi ≤ 59 ∧ se ≤ 60

theorem parse_possible {s : CStr} {v : Int} {y mo d h mi se : Nat} {b : UInt8} {rest : Bytes}
    (hy : y < 10000) (hmo : mo < 100) (hd : d < 100) (hh : h < 100) (hmi : mi < 100) (hse : se < 100)
    (hs : s.val = fieldsText y mo d b h mi se rest) (hv : asperTimeParseRfc3339 s = some v) :
    FieldsPossible y mo d h mi se := by
  obtain ⟨x, hx, -⟩ := (parse_text s v).1 hv
  have hyear := x.year_mem
  have hmonth := x.date.month_mem
  have hday := x.date.day_mem
  have hday31 := x.date.day_lt.1
  obtain ⟨hh', hmi', hse'⟩ := And.intro x.hour_le (And.intro x.minute_le x.second_le)
  have htext : fieldsText y mo d b h mi se rest = fieldsText x.date.year.toNat x.date.month
      x.date.day x.letter x.hour x.minute x.second (fractionText x.fraction ++ x.zone.text) :=
    hs.symm.trans hx
  simp only [fieldsText] at htext
  obtain ⟨rfl, h₁⟩ := pad_append_inj (w := 4) (by omega) (by omega) htext
  obtain ⟨rfl, h₂⟩ := pad_append_inj (w := 2) (by omega) (by omega) (List.append_cancel_left h₁)
  obtain ⟨rfl, h₃⟩ := pad_append_inj (w := 2) (by omega) (by omega) (List.append_cancel_left h₂)
  obtain ⟨rfl, h₄⟩ := pad_append_inj (w := 2) (by omega) (by omega) (List.cons.inj h₃).2
  obtain ⟨rfl, h₅⟩ := pad_append_inj (w := 2) (by omega) (by omega) (List.append_cancel_left h₄)
  obtain ⟨rfl, -⟩ := pad_append_inj (w := 2) (by omega) (by omega) (List.append_cancel_left h₅)
  rw [FieldsPossible, Int.toNat_of_nonneg hyear.1]
  exact ⟨hmonth, hday, hh', hmi', hse'⟩

/-- The second before a leap second. -/
def Stamp.at59 (x : Stamp) : Stamp := { x with second := 59, second_le := by decide }

/-- What holds of the timestamps. -/
structure Rfc3339 : Prop where
  round_trip : ∀ t, 0 ≤ yearUtc t ∧ yearUtc t < 10000 →
    asperTimeParseRfc3339 (cstr (asperTimeFormatRfc3339 t)) = some t
  date_of_day : ∀ x : Date,
    civilFromDays (daysFromCivil x.year x.month x.day) = (x.year, x.month, x.day)
  day_of_date : ∀ z, ∃ x : Date, civilFromDays z = (x.year, x.month, x.day) ∧
    daysFromCivil x.year x.month x.day = z
  days_counted : daysFromCivil 1970 1 1 = 0 ∧ ∀ x : Date,
    daysFromCivil x.next.year x.next.month x.next.day = daysFromCivil x.year x.month x.day + 1
  accepted : ∀ s v, asperTimeParseRfc3339 s = some v ↔ ∃ x : Stamp, s.val = x.text ∧ v = x.instant
  normalised : ∀ x : Stamp, 0 ≤ yearUtc x.instant ∧ yearUtc x.instant < 10000 →
    asperTimeParseRfc3339 (cstr (asperTimeFormatRfc3339 x.instant)) =
      asperTimeParseRfc3339 (cstr x.text) ∧
    ∃ u : Stamp, u.zone = .utc 90 (.inl rfl) ∧ u.fraction = [] ∧ u.second ≤ 59 ∧
      u.instant = x.instant ∧ asperTimeFormatRfc3339 x.instant = u.text
  leap : ∀ x : Stamp, x.second = 60 → x.instant = x.at59.instant + 1
  rejected : ∀ (s : CStr) (y mo d : Nat) (b : UInt8) (h mi se : Nat) (rest : Bytes), y < 10000 →
    mo < 100 → d < 100 → h < 100 → mi < 100 → se < 100 →
    s.val = fieldsText y mo d b h mi se rest → ¬ FieldsPossible y mo d h mi se →
    asperTimeParseRfc3339 s = none

theorem parse_format {t : Int} (h : 0 ≤ yearUtc t ∧ yearUtc t < 10000) :
    asperTimeParseRfc3339 (cstr (asperTimeFormatRfc3339 t)) = some t := by
  obtain ⟨x, -, -, -, rfl, hx⟩ := exists_utc h
  rw [hx]
  exact parse_stamp x

/-- **RFC 3339 round trip**: timestamps of the years 0000 to 9999 come back as formatted, the
calendar conversions are inverse and count the days, a text is accepted exactly when its fields are
possible, and its value is the instant that it and its form in UTC denote. -/
theorem rfc3339_round_trip : Rfc3339 where
  round_trip _ := parse_format
  date_of_day := civilFromDays_date
  day_of_date := daysFromCivil_civilFromDays
  days_counted := ⟨daysFromCivil_epoch, daysFromCivil_next⟩
  accepted := parse_text
  normalised x h := ⟨(parse_format h).trans (parse_stamp x).symm, exists_utc h⟩
  leap x h := by
    have hsec : (x.second : Int) = 60 := congrArg Nat.cast h
    have h59 : x.at59.instant = x.instant - x.second + 59 := by
      simp only [Stamp.instant, Stamp.at59]
      omega
    omega
  rejected s y mo d b h mi se rest hy hmo hd hh hmi hse hs hnot := by
    cases hv : asperTimeParseRfc3339 s with
    | none => rfl
    | some v => exact absurd (parse_possible hy hmo hd hh hmi hse hs hv) hnot

end Asper
