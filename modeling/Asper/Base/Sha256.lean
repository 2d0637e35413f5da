import Asper.Base.Text

/-! # SHA-256

The streaming hash of `sha256.c`. A context holds the state after the blocks so far and the bytes
of an unfinished block. -/

namespace Asper

open Durable (Bytes)

/-- The words `state[0..7]`, or the variables `a` to `h` of a block. -/
structure Sha256State where
  a : UInt32
  b : UInt32
  c : UInt32
  d : UInt32
  e : UInt32
  f : UInt32
  g : UInt32
  h : UInt32
  deriving DecidableEq

def ror (x n : UInt32) : UInt32 := (x >>> n) ||| (x <<< (32 - n))

def sha256K : List UInt32 := [
  0x428a2f98, 0x71374491, 0xb5c0fbcf, 0xe9b5dba5, 0x3956c25b,
  0x59f111f1, 0x923f82a4, 0xab1c5ed5, 0xd807aa98, 0x12835b01,
  0x243185be, 0x550c7dc3, 0x72be5d74, 0x80deb1fe, 0x9bdc06a7,
  0xc19bf174, 0xe49b69c1, 0xefbe4786, 0x0fc19dc6, 0x240ca1cc,
  0x2de92c6f, 0x4a7484aa, 0x5cb0a9dc, 0x76f988da, 0x983e5152,
  0xa831c66d, 0xb00327c8, 0xbf597fc7, 0xc6e00bf3, 0xd5a79147,
  0x06ca6351, 0x14292967, 0x27b70a85, 0x2e1b2138, 0x4d2c6dfc,
  0x53380d13, 0x650a7354, 0x766a0abb, 0x81c2c92e, 0x92722c85,
  0xa2bfe8a1, 0xa81a664b, 0xc24b8b70, 0xc76c51a3, 0xd192e819,
  0xd6990624, 0xf40e3585, 0x106aa070, 0x19a4c116, 0x1e376c08,
  0x2748774c, 0x34b0bcb5, 0x391c0cb3, 0x4ed8aa4a, 0x5b9cca4f,
  0x682e6ff3, 0x748f82ee, 0x78a5636f, 0x84c87814, 0x8cc70208,
  0x90befffa, 0xa4506ceb, 0xbef9a3f7, 0xc67178f2]

/-! ## A block -/

/-- `w[i]` for `i < 16`. -/
def sha256Word (block : Bytes) (i : Nat) : UInt32 :=
  ((block.getD (i * 4) 0).toUInt32 <<< 24) ||| ((block.getD (i * 4 + 1) 0).toUInt32 <<< 16) |||
    ((block.getD (i * 4 + 2) 0).toUInt32 <<< 8) ||| (block.getD (i * 4 + 3) 0).toUInt32

/-- `w[i]` from the words before it. -/
def sha256Extend (w : List UInt32) (i : Nat) : List UInt32 :=
  let s0 := ror (w.getD (i - 15) 0) 7 ^^^ ror (w.getD (i - 15) 0) 18 ^^^ (w.getD (i - 15) 0 >>> 3)
  let s1 := ror (w.getD (i - 2) 0) 17 ^^^ ror (w.getD (i - 2) 0) 19 ^^^ (w.getD (i - 2) 0 >>> 10)
  w ++ [w.getD (i - 16) 0 + s0 + w.getD (i - 7) 0 + s1]

def sha256Schedule (block : Bytes) : List UInt32 :=
  (List.range' 16 48).foldl sha256Extend ((List.range 16).map (sha256Word block))

def sha256Round (w : List UInt32) (v : Sha256State) (i : Nat) : Sha256State :=
  let s1 := ror v.e 6 ^^^ ror v.e 11 ^^^ ror v.e 25
  let ch := (v.e &&& v.f) ^^^ (~~~v.e &&& v.g)
  let t1 := v.h + s1 + ch + sha256K.getD i 0 + w.getD i 0
  let s0 := ror v.a 2 ^^^ ror v.a 13 ^^^ ror v.a 22
  let maj := (v.a &&& v.b) ^^^ (v.a &&& v.c) ^^^ (v.b &&& v.c)
  let t2 := s0 + maj
  ⟨t1 + t2, v.a, v.b, v.c, v.d + t1, v.e, v.f, v.g⟩

/-- `sha256_transform`. -/
def sha256Transform (s : Sha256State) (block : Bytes) : Sha256State :=
  let v := (List.range 64).foldl (sha256Round (sha256Schedule block)) s
  ⟨s.a + v.a, s.b + v.b, s.c + v.c, s.d + v.d, s.e + v.e, s.f + v.f, s.g + v.g, s.h + v.h⟩

/-! ## A stream -/

/-- `asper_sha256_ctx`; `buffer` is the `buflen` bytes in use. -/
structure Sha256Ctx where
  state : Sha256State
  bitlen : UInt64
  buffer : Bytes
  buffer_lt : buffer.length < 64

/-- `asper_sha256_init`. -/
def asperSha256Init : Sha256Ctx where
  state := ⟨0x6a09e667, 0xbb67ae85, 0x3c6ef372, 0xa54ff53a, 0x510e527f, 0x9b05688c, 0x1f83d9ab,
    0x5be0cd19⟩
  bitlen := 0
  buffer := []
  buffer_lt := by decide

/-- The buffer after it has taken what it has room for. -/
def Sha256Ctx.fill (ctx : Sha256Ctx) (data : Bytes) : Bytes :=
  ctx.buffer ++ data.take (min (64 - ctx.buffer.length) data.length)

theorem Sha256Ctx.length_fill (ctx : Sha256Ctx) (data : Bytes) :
    (ctx.fill data).length = ctx.buffer.length + min (64 - ctx.buffer.length) data.length := by
  rw [fill, List.length_append, List.length_take, Nat.min_assoc, Nat.min_self]

theorem Sha256Ctx.length_fill_le (ctx : Sha256Ctx) (data : Bytes) :
    (ctx.fill data).length ≤ 64 := by
  have := ctx.buffer_lt
  rw [length_fill]
  omega

/-- A block of the data, transformed where it stands. -/
def Sha256Ctx.transform (ctx : Sha256Ctx) (block : Bytes) : Sha256Ctx :=
  { ctx with state := sha256Transform ctx.state block }

section
variable (ctx : Sha256Ctx) (block : Bytes)

@[simp] theorem Sha256Ctx.transform_state :
    (ctx.transform block).state = sha256Transform ctx.state block := rfl

@[simp] theorem Sha256Ctx.transform_buffer : (ctx.transform block).buffer = ctx.buffer := by
  cases ctx
  rfl

@[simp] theorem Sha256Ctx.transform_bitlen : (ctx.transform block).bitlen = ctx.bitlen := by
  cases ctx
  rfl

end

/-- Other bytes go by the buffer. -/
def Sha256Ctx.copy (ctx : Sha256Ctx) (data : Bytes) : Sha256Ctx :=
  if h : (ctx.fill data).length = 64 then
    { ctx with
      state := sha256Transform ctx.state (ctx.fill data)
      buffer := []
      buffer_lt := by decide }
  else
    { ctx with
      buffer := ctx.fill data
      buffer_lt := Nat.lt_of_le_of_ne (ctx.length_fill_le data) h }

/-- A step of the loop of `asper_sha256_update`, and the data left. -/
def Sha256Ctx.step (ctx : Sha256Ctx) (data : Bytes) : Sha256Ctx × Bytes :=
  if ctx.buffer = [] ∧ 64 ≤ data.length then (ctx.transform (data.take 64), data.drop 64)
  else (ctx.copy data, data.drop (min (64 - ctx.buffer.length) data.length))

/-- The loop of `asper_sha256_update`, of at most `fuel` steps. -/
def sha256Loop : Nat → Sha256Ctx → Bytes → Sha256Ctx
  | 0, ctx, _ => ctx
  | fuel + 1, ctx, data =>
    if data = [] then ctx else sha256Loop fuel (ctx.step data).1 (ctx.step data).2

/-- `asper_sha256_update`. -/
def asperSha256Update (ctx : Sha256Ctx) (data : Bytes) : Sha256Ctx :=
  sha256Loop data.length { ctx with bitlen := ctx.bitlen + UInt64.ofNat data.length * 8 } data

/-- `while (buflen != 56)`, of fewer than `fuel` steps. -/
def sha256Zeros : Nat → Sha256Ctx → Option Sha256Ctx
  | 0, _ => none
  | fuel + 1, ctx =>
    if ctx.buffer.length = 56 then some ctx else sha256Zeros fuel (asperSha256Update ctx [0])

/-- A word from the most significant byte on. -/
def sha256Bytes (x : UInt32) : Bytes :=
  [(x >>> 24).toUInt8, (x >>> 16).toUInt8, (x >>> 8).toUInt8, x.toUInt8]

def Sha256State.bytes (s : Sha256State) : Bytes :=
  [s.a, s.b, s.c, s.d, s.e, s.f, s.g, s.h].flatMap sha256Bytes

/-- `asper_sha256_final`. -/
def asperSha256Final (ctx : Sha256Ctx) : Option Bytes := do
  let bits := ctx.bitlen
  let ctx ← sha256Zeros 64 (asperSha256Update ctx [0x80])
  let tail := (List.range 8).map fun i => (bits >>> UInt64.ofNat (56 - 8 * i)).toUInt8
  return (asperSha256Update ctx tail).state.bytes

/-- `asper_sha256`. -/
def asperSha256 (data : Bytes) : Option Bytes :=
  asperSha256Final (asperSha256Update asperSha256Init data)

end Asper
