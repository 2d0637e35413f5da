import Asper.Lib.Blocks
import Mathlib.Data.List.Induction
import Mathlib.Data.Nat.NthRoot.Defs
import Mathlib.Data.Nat.Prime.Defs

/-!
# SHA-256

The hash of FIPS 180-4, on messages of any number of bits. A word has 32 bits; numbers are written
with the most significant bit first. The constants are given by what they are: the first bits of
the fractional parts of the roots of the first primes.
-/

namespace Sha2

abbrev Bits := List Bool

abbrev Word := BitVec 32

/-! ## Numbers as bits -/

/-- The last `n` bits of `x`. -/
def bits : Nat → Nat → Bits
  | 0, _ => []
  | n + 1, x => x.testBit n :: bits n x

def value (b : Bits) : Nat := b.foldl (fun v d => 2 * v + d.toNat) 0

def word (b : Bits) : Word := BitVec.ofNat 32 (value b)

/-! ## Functions -/

def ch (x y z : Word) : Word := (x &&& y) ^^^ (~~~x &&& z)

def maj (x y z : Word) : Word := (x &&& y) ^^^ (x &&& z) ^^^ (y &&& z)

def bigSigma0 (x : Word) : Word := x.rotateRight 2 ^^^ x.rotateRight 13 ^^^ x.rotateRight 22

def bigSigma1 (x : Word) : Word := x.rotateRight 6 ^^^ x.rotateRight 11 ^^^ x.rotateRight 25

def smallSigma0 (x : Word) : Word := x.rotateRight 7 ^^^ x.rotateRight 18 ^^^ (x >>> 3)

def smallSigma1 (x : Word) : Word := x.rotateRight 17 ^^^ x.rotateRight 19 ^^^ (x >>> 10)

/-! ## Constants -/

/-- The first 64 primes. -/
def primes : List Nat := (List.range 312).filter fun n => n.Prime

/-- The first 32 bits of the fractional part of the `n`-th root of `p`. -/
def rootBits (n p : Nat) : Word := BitVec.ofNat 32 (Nat.nthRoot n (p * 2 ^ (32 * n)))

def k (t : Nat) : Word := rootBits 3 (primes.getD t 0)

/-- Eight words: the working variables, or a hash value. -/
structure State where
  a : Word
  b : Word
  c : Word
  d : Word
  e : Word
  f : Word
  g : Word
  h : Word

def initial : State where
  a := rootBits 2 2
  b := rootBits 2 3
  c := rootBits 2 5
  d := rootBits 2 7
  e := rootBits 2 11
  f := rootBits 2 13
  g := rootBits 2 17
  h := rootBits 2 19

/-! ## The hash -/

/-- The least number of zeros that fill up a block. -/
def zeros (length : Nat) : Nat := (447 + 512 - length % 512) % 512

def pad (m : Bits) : Bits :=
  m ++ true :: (List.replicate (zeros m.length) false ++ bits 64 m.length)

/-- The `t`-th word of a block. -/
def blockWord (block : Bits) (t : Nat) : Word := word ((block.drop (32 * t)).take 32)

/-- The message schedule. -/
def schedule (block : Bits) (t : Nat) : Word :=
  if t < 16 then blockWord block t
  else smallSigma1 (schedule block (t - 2)) + schedule block (t - 7) +
    smallSigma0 (schedule block (t - 15)) + schedule block (t - 16)

def round (s : State) (k w : Word) : State :=
  let t1 := s.h + bigSigma1 s.e + ch s.e s.f s.g + k + w
  let t2 := bigSigma0 s.a + maj s.a s.b s.c
  ⟨t1 + t2, s.a, s.b, s.c, s.d + t1, s.e, s.f, s.g⟩

def State.add (s v : State) : State :=
  ⟨s.a + v.a, s.b + v.b, s.c + v.c, s.d + v.d, s.e + v.e, s.f + v.f, s.g + v.g, s.h + v.h⟩

def compress (s : State) (block : Bits) : State :=
  ((List.range 64).foldl (fun v t => round v (k t) (schedule block t)) s).add s

def State.bits (s : State) : Bits :=
  [s.a, s.b, s.c, s.d, s.e, s.f, s.g, s.h].flatMap fun x => Sha2.bits 32 x.toNat

/-- The hash of a message of fewer than `2 ^ 64` bits. -/
def digest (m : Bits) : Bits :=
  (Blocks.absorb compress 512 ((pad m).length / 512) initial (pad m)).bits

/-! ## Lemmas -/

theorem primes_eq : primes =
    [2, 3, 5, 7, 11, 13, 17, 19, 23, 29, 31, 37, 41, 43, 47, 53, 59, 61, 67, 71, 73, 79, 83, 89,
      97, 101, 103, 107, 109, 113, 127, 131, 137, 139, 149, 151, 157, 163, 167, 173, 179, 181,
      191, 193, 197, 199, 211, 223, 227, 229, 233, 239, 241, 251, 257, 263, 269, 271, 277, 281,
      283, 293, 307, 311] := by
  decide +kernel

theorem length_bits (n x : Nat) : (bits n x).length = n := by
  induction n with
  | zero => rfl
  | succ n ih => rw [bits, List.length_cons, ih]

theorem bits_add (m n x : Nat) : bits (m + n) x = bits m (x >>> n) ++ bits n x := by
  induction m with
  | zero => rw [Nat.zero_add, bits, List.nil_append]
  | succ m ih =>
    rw [Nat.succ_add, bits, bits, List.cons_append, ih, Nat.testBit_shiftRight, Nat.add_comm n m]

theorem bits_congr {n x y : Nat} (h : ∀ i < n, x.testBit i = y.testBit i) : bits n x = bits n y := by
  induction n with
  | zero => rfl
  | succ n ih => rw [bits, bits, h n n.lt_succ_self, ih fun i hi => h i (Nat.lt_succ_of_lt hi)]

theorem bits_mod {m n : Nat} (h : m ≤ n) (x : Nat) : bits m (x % 2 ^ n) = bits m x :=
  bits_congr fun i hi => by
    rw [Nat.testBit_mod_two_pow, decide_eq_true (Nat.lt_of_lt_of_le hi h), Bool.true_and]

/-- Bytes from the most significant on. -/
theorem bits_bytes (n x : Nat) :
    bits (8 * n) x = (List.range n).flatMap fun i => bits 8 (x >>> (8 * (n - 1 - i))) := by
  induction n with
  | zero => rfl
  | succ n ih =>
    rw [Nat.mul_succ, Nat.add_comm, bits_add, ih, List.range_succ_eq_map, List.flatMap_cons,
      List.flatMap_map]
    refine congrArg _ (List.flatMap_congr fun i hi => ?_)
    have := List.mem_range.1 hi
    rw [show n + 1 - 1 - i.succ = n - 1 - i by omega]

theorem value_append (a b : Bits) : value (a ++ b) = value a * 2 ^ b.length + value b := by
  induction b using List.reverseRecOn with
  | nil => rw [List.append_nil, List.length_nil, Nat.pow_zero, Nat.mul_one]; rfl
  | append_singleton b d ih =>
    have hsnoc (a : Bits) : value (a ++ [d]) = 2 * value a + d.toNat := by
      rw [value, List.foldl_append]
      rfl
    rw [← List.append_assoc, hsnoc, hsnoc, ih, List.length_append, List.length_singleton,
      Nat.pow_succ, ← Nat.mul_assoc]
    omega

theorem value_bits (n x : Nat) : value (bits n x) = x % 2 ^ n := by
  induction n with
  | zero => rw [Nat.pow_zero, Nat.mod_one]; rfl
  | succ n ih =>
    rw [bits, ← List.singleton_append, value_append, ih, length_bits, Nat.mod_pow_succ,
      ← Nat.toNat_testBit]
    rw [Nat.add_comm, Nat.mul_comm]
    simp [value]

theorem schedule_of_le {block : Bits} {t : Nat} (h : 16 ≤ t) :
    schedule block t = smallSigma1 (schedule block (t - 2)) + schedule block (t - 7) +
      smallSigma0 (schedule block (t - 15)) + schedule block (t - 16) := by
  rw [schedule, if_neg (Nat.not_lt.2 h)]

theorem State.add_comm (s v : State) : s.add v = v.add s := by
  simp only [State.add, BitVec.add_comm]

theorem length_pad (m : Bits) : (pad m).length = m.length + 1 + zeros m.length + 64 := by
  simp only [pad, List.length_append, List.length_cons, List.length_replicate, length_bits]
  omega

end Sha2
