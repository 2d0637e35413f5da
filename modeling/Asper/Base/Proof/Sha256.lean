import Asper.Base.Sha256
import Asper.Lib.Sha2

/-! # The stream has the hash of the message

The words of `sha256.c` are those of `Sha2`, a byte standing for its bits from the most significant
on. -/

namespace Asper

open Durable (Bytes)
open Blocks

def byteBits (bs : Bytes) : Sha2.Bits := bs.flatMap fun b => Sha2.bits 8 b.toNat

def Sha256State.words (s : Sha256State) : Sha2.State :=
  ⟨s.a.toBitVec, s.b.toBitVec, s.c.toBitVec, s.d.toBitVec, s.e.toBitVec, s.f.toBitVec,
    s.g.toBitVec, s.h.toBitVec⟩

/-! ## Bytes as bits -/

theorem byteBits_cons (b : UInt8) (bs : Bytes) :
    byteBits (b :: bs) = Sha2.bits 8 b.toNat ++ byteBits bs := List.flatMap_cons

theorem byteBits_append (as bs : Bytes) : byteBits (as ++ bs) = byteBits as ++ byteBits bs :=
  List.flatMap_append

theorem length_byteBits (bs : Bytes) : (byteBits bs).length = 8 * bs.length := by
  induction bs with
  | nil => rfl
  | cons b bs ih =>
    rw [byteBits_cons, List.length_append, Sha2.length_bits, ih, List.length_cons]
    omega

theorem byteBits_take (n : Nat) (bs : Bytes) :
    (byteBits bs).take (8 * n) = byteBits (bs.take n) := by
  induction n generalizing bs with
  | zero => rfl
  | succ n ih =>
    cases bs with
    | nil => rfl
    | cons b bs =>
      rw [List.take_succ_cons, byteBits_cons, byteBits_cons, List.take_append, Sha2.length_bits,
        List.take_of_length_le (by rw [Sha2.length_bits]; omega),
        show 8 * (n + 1) - 8 = 8 * n by omega, ih]

theorem byteBits_drop (n : Nat) (bs : Bytes) :
    (byteBits bs).drop (8 * n) = byteBits (bs.drop n) := by
  induction n generalizing bs with
  | zero => rfl
  | succ n ih =>
    cases bs with
    | nil => rfl
    | cons b bs =>
      rw [List.drop_succ_cons, byteBits_cons, List.drop_append, Sha2.length_bits,
        List.drop_of_length_le (by rw [Sha2.length_bits]; omega),
        show 8 * (n + 1) - 8 = 8 * n by omega, ih, List.nil_append]

theorem byteBits_injective {as bs : Bytes} (h : byteBits as = byteBits bs) : as = bs := by
  induction as generalizing bs with
  | nil =>
    have hlen := congrArg List.length h
    rw [length_byteBits, length_byteBits, List.length_nil] at hlen
    exact (List.eq_nil_of_length_eq_zero (by omega)).symm
  | cons a as ih =>
    cases bs with
    | nil =>
      have hlen := congrArg List.length h
      rw [length_byteBits, length_byteBits, List.length_cons, List.length_nil] at hlen
      omega
    | cons b bs =>
      rw [byteBits_cons, byteBits_cons] at h
      obtain ⟨hab, hrest⟩ := List.append_inj h (by rw [Sha2.length_bits, Sha2.length_bits])
      have hval := congrArg Sha2.value hab
      rw [Sha2.value_bits, Sha2.value_bits, Nat.mod_eq_of_lt a.toNat_lt,
        Nat.mod_eq_of_lt b.toNat_lt] at hval
      rw [UInt8.toNat_inj.1 hval, ih hrest]

/-! ## A block -/

theorem value_byteBits (a b c d : UInt8) : Sha2.value (byteBits [a, b, c, d]) =
    a.toNat * 2 ^ 24 + b.toNat * 2 ^ 16 + c.toNat * 2 ^ 8 + d.toNat := by
  have hbyte (x : UInt8) : Sha2.value (Sha2.bits 8 x.toNat) = x.toNat := by
    rw [Sha2.value_bits, Nat.mod_eq_of_lt x.toNat_lt]
  simp only [byteBits_cons, Sha2.value_append, hbyte, List.length_append, Sha2.length_bits]
  simp only [byteBits, List.flatMap_nil, List.length_nil, Sha2.value, List.foldl_nil]
  omega

theorem mul_two_pow_or {n y : Nat} (x : Nat) (hy : y < 2 ^ n) :
    x * 2 ^ n ||| y = x * 2 ^ n + y := by
  rw [Nat.mul_comm, Nat.two_pow_add_eq_or_of_lt hy]

theorem toNat_byte_shiftLeft (x : UInt8) {n : Nat} (hn : n ≤ 24) :
    (x.toUInt32 <<< UInt32.ofNat n).toNat = x.toNat * 2 ^ n := by
  have hx := x.toNat_lt
  have hpow : x.toNat * 2 ^ n < 2 ^ 32 := calc
    x.toNat * 2 ^ n < 2 ^ 8 * 2 ^ n := Nat.mul_lt_mul_of_pos_right hx (Nat.two_pow_pos n)
    _ ≤ 2 ^ 8 * 2 ^ 24 := Nat.mul_le_mul_left _ (Nat.pow_le_pow_right (by decide) hn)
  rw [UInt32.toNat_shiftLeft, UInt32.toNat_ofNat_of_lt' (Nat.lt_of_le_of_lt hn (by decide)),
    UInt8.toNat_toUInt32, Nat.mod_eq_of_lt (show n < 32 by omega), Nat.shiftLeft_eq,
    Nat.mod_eq_of_lt hpow]

/-- Four bytes side by side. -/
theorem toNat_word (a b c d : UInt8) :
    ((a.toUInt32 <<< 24) ||| (b.toUInt32 <<< 16) ||| (c.toUInt32 <<< 8) ||| d.toUInt32).toNat =
      a.toNat * 2 ^ 24 + b.toNat * 2 ^ 16 + c.toNat * 2 ^ 8 + d.toNat := by
  have hb := b.toNat_lt
  have hc := c.toNat_lt
  have hd := d.toNat_lt
  have h24 : (a.toUInt32 <<< 24).toNat = a.toNat * 2 ^ 24 := toNat_byte_shiftLeft a (by decide)
  have h16 : (b.toUInt32 <<< 16).toNat = b.toNat * 2 ^ 16 := toNat_byte_shiftLeft b (by decide)
  have h8 : (c.toUInt32 <<< 8).toNat = c.toNat * 2 ^ 8 := toNat_byte_shiftLeft c (by decide)
  rw [UInt32.toNat_or, UInt32.toNat_or, UInt32.toNat_or, h24, h16, h8, UInt8.toNat_toUInt32,
    mul_two_pow_or a.toNat (by omega),
    show a.toNat * 2 ^ 24 + b.toNat * 2 ^ 16 = (a.toNat * 2 ^ 8 + b.toNat) * 2 ^ 16 by omega,
    mul_two_pow_or _ (by omega),
    show (a.toNat * 2 ^ 8 + b.toNat) * 2 ^ 16 + c.toNat * 2 ^ 8 =
      (a.toNat * 2 ^ 16 + b.toNat * 2 ^ 8 + c.toNat) * 2 ^ 8 by omega,
    mul_two_pow_or _ (by omega)]

theorem ror_toBitVec (x : UInt32) {n : Nat} (h0 : 0 < n) (hn : n < 32) :
    (ror x (UInt32.ofNat n)).toBitVec = x.toBitVec.rotateRight n := by
  have hright : (BitVec.ofNat 32 n % 32).toNat = n := by
    simp
    omega
  have hleft : ((32 - BitVec.ofNat 32 n) % 32).toNat = 32 - n := by
    simp
    omega
  rw [BitVec.rotateRight_def, ror, Nat.mod_eq_of_lt hn]
  simp only [UInt32.toBitVec_or, UInt32.toBitVec_shiftRight, UInt32.toBitVec_shiftLeft,
    UInt32.toBitVec_sub, UInt32.toBitVec_ofNat', BitVec.ushiftRight_eq', BitVec.shiftLeft_eq']
  have h32 : UInt32.toBitVec 32 = 32 := rfl
  rw [h32, hright, hleft]

theorem smallSigma0_eq (x : UInt32) :
    (ror x 7 ^^^ ror x 18 ^^^ (x >>> 3)).toBitVec = Sha2.smallSigma0 x.toBitVec := by
  have h7 : (ror x 7).toBitVec = _ := ror_toBitVec x (n := 7) (by decide) (by decide)
  have h18 : (ror x 18).toBitVec = _ := ror_toBitVec x (n := 18) (by decide) (by decide)
  rw [UInt32.toBitVec_xor, UInt32.toBitVec_xor, h7, h18]
  rfl

theorem smallSigma1_eq (x : UInt32) :
    (ror x 17 ^^^ ror x 19 ^^^ (x >>> 10)).toBitVec = Sha2.smallSigma1 x.toBitVec := by
  have h17 : (ror x 17).toBitVec = _ := ror_toBitVec x (n := 17) (by decide) (by decide)
  have h19 : (ror x 19).toBitVec = _ := ror_toBitVec x (n := 19) (by decide) (by decide)
  rw [UInt32.toBitVec_xor, UInt32.toBitVec_xor, h17, h19]
  rfl

/-- The exclusive or of three rotations. -/
theorem rotations_eq (x : UInt32) {l m n : Nat} (hl : 0 < l ∧ l < 32) (hm : 0 < m ∧ m < 32)
    (hn : 0 < n ∧ n < 32) :
    (ror x (.ofNat l) ^^^ ror x (.ofNat m) ^^^ ror x (.ofNat n)).toBitVec =
      x.toBitVec.rotateRight l ^^^ x.toBitVec.rotateRight m ^^^ x.toBitVec.rotateRight n := by
  rw [UInt32.toBitVec_xor, UInt32.toBitVec_xor, ror_toBitVec x hl.1 hl.2, ror_toBitVec x hm.1 hm.2,
    ror_toBitVec x hn.1 hn.2]

theorem bigSigma0_eq (x : UInt32) :
    (ror x 2 ^^^ ror x 13 ^^^ ror x 22).toBitVec = Sha2.bigSigma0 x.toBitVec :=
  rotations_eq x (l := 2) (m := 13) (n := 22) (by decide) (by decide) (by decide)

theorem bigSigma1_eq (x : UInt32) :
    (ror x 6 ^^^ ror x 11 ^^^ ror x 25).toBitVec = Sha2.bigSigma1 x.toBitVec :=
  rotations_eq x (l := 6) (m := 11) (n := 25) (by decide) (by decide) (by decide)

theorem ch_eq (x y z : UInt32) :
    ((x &&& y) ^^^ (~~~x &&& z)).toBitVec = Sha2.ch x.toBitVec y.toBitVec z.toBitVec := rfl

theorem maj_eq (x y z : UInt32) :
    ((x &&& y) ^^^ (x &&& z) ^^^ (y &&& z)).toBitVec =
      Sha2.maj x.toBitVec y.toBitVec z.toBitVec := rfl

theorem sha256K_eq : ∀ t < 64, (sha256K.getD t 0).toBitVec = Sha2.k t := by
  simp only [Sha2.k, Sha2.primes_eq]
  decide +kernel

theorem init_words : asperSha256Init.state.words = Sha2.initial := by
  have h : [0x6a09e667#32, 0xbb67ae85#32, 0x3c6ef372#32, 0xa54ff53a#32, 0x510e527f#32,
      0x9b05688c#32, 0x1f83d9ab#32, 0x5be0cd19#32] =
      [2, 3, 5, 7, 11, 13, 17, 19].map (Sha2.rootBits 2) := by decide +kernel
  simp only [List.map_cons, List.cons.injEq] at h
  obtain ⟨h0, h1, h2, h3, h4, h5, h6, h7, -⟩ := h
  simp only [Sha2.initial, ← h0, ← h1, ← h2, ← h3, ← h4, ← h5, ← h6, ← h7]
  rfl

theorem take_four : ∀ {l : Bytes}, 4 ≤ l.length →
    l.take 4 = [l.getD 0 0, l.getD 1 0, l.getD 2 0, l.getD 3 0]
  | _ :: _ :: _ :: _ :: _, _ => rfl

theorem sha256Word_eq {block : Bytes} {t : Nat} (h : t * 4 + 4 ≤ block.length) :
    (sha256Word block t).toBitVec = Sha2.blockWord (byteBits block) t := by
  have hget (i : Nat) : (block.drop (4 * t)).getD i 0 = block.getD (t * 4 + i) 0 := by
    rw [List.getD_eq_getElem?_getD, List.getD_eq_getElem?_getD, List.getElem?_drop,
      Nat.mul_comm t 4]
  have hget0 : (block.drop (4 * t)).getD 0 0 = block.getD (t * 4) 0 := hget 0
  have hfour := take_four (l := block.drop (4 * t)) (by rw [List.length_drop]; omega)
  have hbits : (byteBits (block.drop (4 * t))).take 32 = byteBits ((block.drop (4 * t)).take 4) :=
    byteBits_take 4 _
  rw [Sha2.blockWord, show 32 * t = 8 * (4 * t) by omega, byteBits_drop, hbits, hfour, Sha2.word,
    value_byteBits, hget0, hget, hget, hget]
  refine BitVec.eq_of_toNat_eq ?_
  rw [UInt32.toNat_toBitVec, sha256Word, toNat_word, BitVec.toNat_ofNat,
    Nat.mod_eq_of_lt]
  have h0 := (block.getD (t * 4) 0).toNat_lt
  have h1 := (block.getD (t * 4 + 1) 0).toNat_lt
  have h2 := (block.getD (t * 4 + 2) 0).toNat_lt
  have h3 := (block.getD (t * 4 + 3) 0).toNat_lt
  omega

/-- The words of the schedule of a block. -/
def scheduleWord (block : Bytes) (t : Nat) : UInt32 :=
  ⟨Sha2.schedule (byteBits block) t⟩

theorem sha256Extend_eq (block : Bytes) {i : Nat} (h : 16 ≤ i) :
    sha256Extend ((List.range i).map (scheduleWord block)) i =
      (List.range (i + 1)).map (scheduleWord block) := by
  have hget (j : Nat) (hj : j < i) :
      ((List.range i).map (scheduleWord block)).getD j 0 = scheduleWord block j := by
    simp [List.getD_eq_getElem?_getD, hj]
  rw [sha256Extend, hget _ (by omega), hget _ (by omega), hget _ (by omega), hget _ (by omega),
    List.range_succ, List.map_append, List.map_singleton]
  refine congrArg (fun x => _ ++ [x]) (UInt32.toBitVec_inj.1 ?_)
  simp only [UInt32.toBitVec_add, smallSigma0_eq, smallSigma1_eq, scheduleWord]
  rw [Sha2.schedule_of_le h]
  ac_rfl

theorem sha256Schedule_eq {block : Bytes} (h : block.length = 64) :
    sha256Schedule block = (List.range 64).map (scheduleWord block) := by
  have hfirst : (List.range 16).map (sha256Word block) = (List.range 16).map (scheduleWord block) :=
    List.map_congr_left fun t ht => by
      have ht := List.mem_range.1 ht
      refine UInt32.toBitVec_inj.1 ?_
      rw [sha256Word_eq (by omega), scheduleWord, Sha2.schedule, if_pos ht]
  have hloop (n : Nat) : (List.range' 16 n).foldl sha256Extend
      ((List.range 16).map (scheduleWord block)) = (List.range (16 + n)).map (scheduleWord block) := by
    induction n with
    | zero => rfl
    | succ n ih =>
      rw [List.range'_concat, List.foldl_append, ih, List.foldl_cons, List.foldl_nil, Nat.one_mul,
        sha256Extend_eq block (Nat.le_add_right 16 n)]
      rfl
  rw [sha256Schedule, hfirst, hloop]

/-! ## Compression -/

theorem sha256Round_words {block : Bytes} (v : Sha256State) {i : Nat} (hi : i < 64) :
    (sha256Round ((List.range 64).map (scheduleWord block)) v i).words =
      Sha2.round v.words (Sha2.k i) (Sha2.schedule (byteBits block) i) := by
  have hw : ((List.range 64).map (scheduleWord block)).getD i 0 = scheduleWord block i := by
    simp [List.getD_eq_getElem?_getD, hi]
  simp only [sha256Round, Sha256State.words, Sha2.round, hw, UInt32.toBitVec_add, bigSigma0_eq,
    bigSigma1_eq, sha256K_eq i hi, ch_eq, maj_eq, scheduleWord]

theorem sha256Transform_words {block : Bytes} (s : Sha256State) (h : block.length = 64) :
    (sha256Transform s block).words = Sha2.compress s.words (byteBits block) := by
  have hround := @sha256Round_words block
  rw [sha256Transform, sha256Schedule_eq h, Sha2.compress]
  generalize sha256Round ((List.range 64).map (scheduleWord block)) = f at hround ⊢
  have hrounds (n : Nat) (hn : n ≤ 64) :
      ((List.range n).foldl f s).words =
        (List.range n).foldl
          (fun v t => Sha2.round v (Sha2.k t) (Sha2.schedule (byteBits block) t)) s.words := by
    induction n with
    | zero => rfl
    | succ n ih =>
      rw [List.range_succ, List.foldl_append, List.foldl_append, List.foldl_cons, List.foldl_nil,
        List.foldl_cons, List.foldl_nil, hround _ hn, ih (Nat.le_of_succ_le hn)]
  rw [← hrounds 64 le_rfl, Sha2.State.add_comm]
  rfl

/-! ## The stream -/

/-- The state and the buffer of the context are those after the message `m`. -/
def Sha256Ctx.Holds (ctx : Sha256Ctx) (m : Bytes) : Prop :=
  Absorbed sha256Transform 64 asperSha256Init.state m ctx.state ctx.buffer

theorem Sha256Ctx.transform_holds {m : Bytes} {ctx : Sha256Ctx} {block : Bytes} (h : ctx.Holds m)
    (hbuf : ctx.buffer = []) (hblock : block.length = 64) :
    (ctx.transform block).Holds (m ++ block) := by
  have hadd := Absorbed.add h block
  rw [hbuf, List.nil_append] at hadd
  rw [Holds, transform_buffer, hbuf, transform_state]
  exact hadd.block hblock

theorem Sha256Ctx.copy_holds {m : Bytes} {ctx : Sha256Ctx} {data : Bytes} (h : ctx.Holds m) :
    (ctx.copy data).Holds (m ++ data.take (min (64 - ctx.buffer.length) data.length)) := by
  have hadd := Absorbed.add h (data.take (min (64 - ctx.buffer.length) data.length))
  rw [copy]
  split
  · next hfull => exact hadd.block hfull
  · exact hadd

theorem Sha256Ctx.copy_bitlen (ctx : Sha256Ctx) (data : Bytes) :
    (ctx.copy data).bitlen = ctx.bitlen := by
  rw [copy]
  split <;> rfl

theorem Sha256Ctx.step_bitlen (ctx : Sha256Ctx) (data : Bytes) :
    (ctx.step data).1.bitlen = ctx.bitlen := by
  rw [step]
  split
  · exact ctx.transform_bitlen _
  · exact ctx.copy_bitlen data

/-- A step takes in some of the data. -/
theorem Sha256Ctx.step_spec {m : Bytes} {ctx : Sha256Ctx} {data : Bytes} (h : ctx.Holds m)
    (hd : data ≠ []) :
    ∃ taken, taken ≠ [] ∧ data = taken ++ (ctx.step data).2 ∧
      (ctx.step data).1.Holds (m ++ taken) := by
  have hlen := List.length_pos_iff.2 hd
  rw [step]
  by_cases hblock : ctx.buffer = [] ∧ 64 ≤ data.length
  · rw [if_pos hblock]
    have htake : (data.take 64).length = 64 := List.length_take_of_le hblock.2
    refine ⟨data.take 64, ?_, (List.take_append_drop 64 data).symm,
      transform_holds h hblock.1 htake⟩
    exact List.length_pos_iff.1 (by rw [htake]; decide)
  · rw [if_neg hblock]
    have hroom := ctx.buffer_lt
    refine ⟨data.take (min (64 - ctx.buffer.length) data.length), ?_,
      (List.take_append_drop _ data).symm, copy_holds h⟩
    refine List.length_pos_iff.1 ?_
    rw [List.length_take]
    omega

theorem sha256Loop_holds {fuel : Nat} {m : Bytes} {ctx : Sha256Ctx} {data : Bytes}
    (h : ctx.Holds m) (hfuel : data.length ≤ fuel) :
    (sha256Loop fuel ctx data).Holds (m ++ data) := by
  induction fuel generalizing m ctx data with
  | zero =>
    obtain rfl : data = [] := List.eq_nil_of_length_eq_zero (Nat.le_zero.1 hfuel)
    rw [List.append_nil]
    exact h
  | succ fuel ih =>
    rw [sha256Loop]
    by_cases hd : data = []
    · rw [if_pos hd, hd, List.append_nil]
      exact h
    · rw [if_neg hd]
      obtain ⟨taken, hne, hdata, hstep⟩ := Sha256Ctx.step_spec h hd
      have hshort : (ctx.step data).2.length ≤ fuel := by
        have hpos := List.length_pos_iff.2 hne
        have hsum := congrArg List.length hdata
        rw [List.length_append] at hsum
        omega
      have hrest := ih hstep hshort
      rwa [List.append_assoc, ← hdata] at hrest

theorem sha256Loop_bitlen (fuel : Nat) (ctx : Sha256Ctx) (data : Bytes) :
    (sha256Loop fuel ctx data).bitlen = ctx.bitlen := by
  induction fuel generalizing ctx data with
  | zero => rfl
  | succ fuel ih =>
    rw [sha256Loop]
    split
    · rfl
    · rw [ih, Sha256Ctx.step_bitlen]

/-- The context has taken in the message `m`. -/
structure Took (m : Bytes) (ctx : Sha256Ctx) : Prop where
  holds : ctx.Holds m
  bitlen : ctx.bitlen = UInt64.ofNat m.length * 8

theorem Took.init : Took [] asperSha256Init := ⟨.nil, rfl⟩

/-- **An update** appends its data to the message. -/
theorem Took.update {m : Bytes} {ctx : Sha256Ctx} (h : Took m ctx) (data : Bytes) :
    Took (m ++ data) (asperSha256Update ctx data) := by
  rw [asperSha256Update]
  refine ⟨sha256Loop_holds h.holds (Nat.le_refl data.length), ?_⟩
  rw [sha256Loop_bitlen, h.bitlen, List.length_append, UInt64.ofNat_add, UInt64.add_mul]

theorem Took.updates {m : Bytes} {ctx : Sha256Ctx} (h : Took m ctx) (chunks : List Bytes) :
    Took (m ++ chunks.flatten) (chunks.foldl asperSha256Update ctx) := by
  induction chunks generalizing m ctx with
  | nil => rwa [List.flatten_nil, List.append_nil]
  | cons c cs ih =>
    rw [List.flatten_cons, ← List.append_assoc]
    exact ih (h.update c)

theorem Took.buffer {m : Bytes} {ctx : Sha256Ctx} (h : Took m ctx) :
    ctx.buffer.length = m.length % 64 := Absorbed.length h.holds ctx.buffer_lt

/-! ## Padding -/

/-- The zeros up to a buffer of 56 bytes. -/
def zeroBytes (length : Nat) : Nat := (56 + 64 - length % 64) % 64

theorem sha256Zeros_took {fuel : Nat} {m : Bytes} {ctx : Sha256Ctx} (h : Took m ctx)
    (hfuel : zeroBytes m.length < fuel) :
    ∃ ctx', sha256Zeros fuel ctx = some ctx' ∧
      Took (m ++ List.replicate (zeroBytes m.length) 0) ctx' := by
  induction fuel generalizing m ctx with
  | zero => exact absurd hfuel (Nat.not_lt_zero _)
  | succ fuel ih =>
    rw [sha256Zeros, h.buffer]
    by_cases hm : m.length % 64 = 56
    · have hz : zeroBytes m.length = 0 := by rw [zeroBytes, hm]
      rw [if_pos hm, hz, List.replicate_zero, List.append_nil]
      exact ⟨ctx, rfl, h⟩
    · have hz : zeroBytes m.length = zeroBytes (m ++ [0]).length + 1 := by
        rw [zeroBytes, zeroBytes, List.length_append, List.length_singleton]
        omega
      rw [if_neg hm]
      obtain ⟨ctx', hrun, htook⟩ := ih (h.update [0]) (by omega)
      refine ⟨ctx', hrun, ?_⟩
      rwa [hz, List.replicate_succ, List.append_cons]

/-- The last eight bytes: the length of the message in bits. -/
def sha256Tail (bits : UInt64) : Bytes :=
  (List.range 8).map fun i => (bits >>> UInt64.ofNat (56 - 8 * i)).toUInt8

theorem byteBits_tail (bits : UInt64) : byteBits (sha256Tail bits) = Sha2.bits 64 bits.toNat := by
  rw [byteBits, sha256Tail, List.flatMap_map, show 64 = 8 * 8 by rfl, Sha2.bits_bytes]
  refine List.flatMap_congr fun i hi => ?_
  have hi := List.mem_range.1 hi
  have hshift : (56 - 8 * i) % 2 ^ 64 % 64 = 8 * (8 - 1 - i) := by omega
  rw [UInt64.toNat_toUInt8, UInt64.toNat_shiftRight, UInt64.toNat_ofNat', hshift]
  exact Sha2.bits_mod le_rfl _

theorem byteBits_sha256Bytes (x : UInt32) : byteBits (sha256Bytes x) = Sha2.bits 32 x.toNat := by
  have hbyte {n : Nat} (hn : n < 32) :
      Sha2.bits 8 (x >>> UInt32.ofNat n).toUInt8.toNat = Sha2.bits 8 (x.toNat >>> n) := by
    have hshift : n % 2 ^ 32 % 32 = n := by omega
    rw [UInt32.toNat_toUInt8, UInt32.toNat_shiftRight, UInt32.toNat_ofNat', hshift]
    exact Sha2.bits_mod le_rfl _
  have h24 : Sha2.bits 8 (x >>> 24).toUInt8.toNat = _ := hbyte (n := 24) (by decide)
  have h16 : Sha2.bits 8 (x >>> 16).toUInt8.toNat = _ := hbyte (n := 16) (by decide)
  have h8 : Sha2.bits 8 (x >>> 8).toUInt8.toNat = _ := hbyte (n := 8) (by decide)
  have h0 : Sha2.bits 8 x.toUInt8.toNat = Sha2.bits 8 (x.toNat >>> 0) := by
    rw [UInt32.toNat_toUInt8]
    exact Sha2.bits_mod le_rfl _
  rw [show 32 = 8 * 4 by rfl, Sha2.bits_bytes, sha256Bytes, byteBits_cons, byteBits_cons,
    byteBits_cons, byteBits_cons, h24, h16, h8, h0]
  rfl

theorem byteBits_zeros (n : Nat) :
    byteBits (List.replicate n 0) = List.replicate (8 * n) false := by
  induction n with
  | zero => rfl
  | succ n ih =>
    rw [List.replicate_succ, byteBits_cons, ih, Nat.mul_succ, Nat.add_comm, List.replicate_add]
    rfl

/-- The bytes that `asper_sha256_final` appends are the padding. -/
theorem byteBits_padded {m : Bytes} (h : m.length < 2 ^ 61) :
    byteBits (m ++ [0x80] ++ List.replicate (zeroBytes (m ++ [0x80]).length) 0 ++
      sha256Tail (UInt64.ofNat m.length * 8)) = Sha2.pad (byteBits m) := by
  have hlen : (UInt64.ofNat m.length * 8).toNat = 8 * m.length := by
    have h8 : (8 : UInt64).toNat = 8 := rfl
    rw [UInt64.toNat_mul, UInt64.toNat_ofNat', h8]
    omega
  have hzeros : Sha2.zeros (8 * m.length) = 7 + 8 * zeroBytes (m ++ [0x80]).length := by
    rw [Sha2.zeros, zeroBytes, List.length_append, List.length_singleton]
    omega
  have hmark : byteBits [0x80] = true :: List.replicate 7 false := by decide
  rw [byteBits_append, byteBits_append, byteBits_append, byteBits_tail, hlen, byteBits_zeros, hmark,
    Sha2.pad, length_byteBits, hzeros, List.replicate_add]
  simp only [List.append_assoc, List.cons_append]

theorem byteBits_bytes (s : Sha256State) : byteBits s.bytes = s.words.bits := by
  simp only [Sha256State.bytes, List.flatMap_cons, List.flatMap_nil, byteBits_append,
    byteBits_sha256Bytes, Sha2.State.bits, Sha256State.words]
  rfl

/-- A context that has taken in whole blocks holds their state. -/
theorem Took.words {m : Bytes} {ctx : Sha256Ctx} (h : Took m ctx) (hm : m.length % 64 = 0) :
    ctx.state.words =
      absorb Sha2.compress 512 ((byteBits m).length / 512) Sha2.initial (byteBits m) := by
  have hbuf : ctx.buffer = [] := List.eq_nil_of_length_eq_zero (h.buffer.trans hm)
  have habs := h.holds
  rw [Sha256Ctx.Holds, hbuf] at habs
  rw [habs.whole (by decide), length_byteBits, ← init_words,
    show 8 * m.length / 512 = m.length / 64 by omega]
  exact absorb_map (fun s b hb => sha256Transform_words s hb) (fun xs _ => byteBits_take 64 xs)
    (byteBits_drop 64) (by omega)

/-- **The end of a stream** is the hash of the message. -/
theorem Took.final {m : Bytes} {ctx : Sha256Ctx} (h : Took m ctx) (hm : m.length < 2 ^ 61) :
    ∃ out, asperSha256Final ctx = some out ∧ byteBits out = Sha2.digest (byteBits m) := by
  obtain ⟨ctx', hrun, hzeros⟩ : ∃ ctx', sha256Zeros 64 (asperSha256Update ctx [0x80]) = some ctx' ∧
      _ := sha256Zeros_took (h.update [0x80]) (Nat.mod_lt _ (by decide))
  have htail := hzeros.update (sha256Tail ctx.bitlen)
  rw [h.bitlen] at htail
  have hlen : (m ++ ([0x80] : Bytes) ++
      List.replicate (zeroBytes (m ++ ([0x80] : Bytes)).length) 0 ++
        sha256Tail (UInt64.ofNat m.length * 8)).length % 64 = 0 := by
    simp only [List.length_append, List.length_replicate, zeroBytes, sha256Tail, List.length_map,
      List.length_range, List.length_singleton]
    omega
  have hwords := htail.words hlen
  rw [byteBits_padded hm] at hwords
  refine ⟨_, ?_, byteBits_bytes _ |>.trans (congrArg Sha2.State.bits hwords)⟩
  rw [asperSha256Final, hrun, h.bitlen]
  rfl

/-- **Every way to feed a message** yields its SHA-256, as the hash in one call does. -/
theorem sha256_streaming (chunks : List Bytes) (h : chunks.flatten.length < 2 ^ 61) :
    ∃ out, asperSha256Final (chunks.foldl asperSha256Update asperSha256Init) = some out ∧
      asperSha256 chunks.flatten = some out ∧
      byteBits out = Sha2.digest (byteBits chunks.flatten) := by
  have hstream := Took.init.updates chunks
  have honce := Took.init.update chunks.flatten
  rw [List.nil_append] at hstream honce
  obtain ⟨out, hout, hdigest⟩ := hstream.final h
  obtain ⟨out', hout', hdigest'⟩ := honce.final h
  obtain rfl := byteBits_injective (hdigest.trans hdigest'.symm)
  exact ⟨out, hout, hout', hdigest⟩

theorem sha256_streaming_abc :
    ∃ out, asperSha256Final ([ascii "a", [], ascii "bc"].foldl asperSha256Update asperSha256Init) =
        some out ∧
      asperSha256 [ascii "a", [], ascii "bc"].flatten = some out ∧
      byteBits out = Sha2.digest (byteBits [ascii "a", [], ascii "bc"].flatten) :=
  sha256_streaming [ascii "a", [], ascii "bc"] (by decide)

example : asperSha256 (ascii "abc") = some [186, 120, 22, 191, 143, 1, 207, 234, 65, 65, 64, 222,
    93, 174, 34, 35, 176, 3, 97, 163, 150, 23, 122, 156, 180, 16, 255, 97, 242, 0, 21, 173] := by
  decide +kernel

end Asper
