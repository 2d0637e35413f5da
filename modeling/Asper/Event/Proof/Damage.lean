import Asper.Event.Proof.Frame

/-! # One damaged byte

A frame with one byte changed is never read: `frameRead_damaged` says that it reads as
`Err.parse`, whatever follows it, when the digest tells its header and its contents from a copy
that differs in one byte (`FrameDetects`). The reader is inverted first: a header that is accepted
is a `headText` with its digest up to the first newline of the stream (`frameHead_sound`), and
such a text has exactly seven spaces (`count_headText`), so that a changed byte cannot move the end
of the header. -/

namespace Asper

open Durable (Bytes)
open Decimal

/-- No text that differs from `s` in one byte has the digest of `s`. -/
def Detects (D : Digest) (s : Bytes) : Prop :=
  ∀ i b, D.sha (s.set i b) = D.sha s → s.set i b = s

/-- The header of `e`, and the header with the contents, have digests no damaged copy has. -/
structure FrameDetects (D : Digest) (e : Event) : Prop where
  head : Detects D (headText e e.objectRef.length e.text.length)
  body : Detects D (headText e e.objectRef.length e.text.length ++ e.objectRef ++ e.text)

/-- The sum of the bytes, as a digest that tells any two texts apart that differ in one byte. -/
def byteSum : Bytes → UInt8
  | [] => 0
  | b :: s => b + byteSum s

def sumDigest : Digest where
  sha s := byteSum s :: List.replicate 31 0
  length_sha _ := rfl

theorem byteSum_set : ∀ {s : Bytes} {i : Nat} {b : UInt8}, byteSum (s.set i b) = byteSum s →
    s.set i b = s
  | [], _, _, _ => rfl
  | a :: s, 0, b, h => by rw [List.set_cons_zero, (UInt8.add_left_inj _).1 h]
  | a :: s, i + 1, b, h => by
    rw [List.set_cons_succ, byteSum_set ((UInt8.add_right_inj _).1 h)]

theorem detects_sum (s : Bytes) : Detects sumDigest s := fun _ _ h =>
  byteSum_set (List.cons.inj h).1

/-! ## Digests in hex -/

theorem hexDigit_inj {m n : UInt8} (hm : m < 16) (hn : n < 16) (h : hexDigit m = hexDigit n) :
    m = n := by
  have key : ∀ a b : Fin 16, hexDigit (UInt8.ofNat a) = hexDigit (UInt8.ofNat b) → a = b := by
    decide
  have hk := key ⟨m.toNat, UInt8.lt_iff_toNat_lt.1 hm⟩ ⟨n.toNat, UInt8.lt_iff_toNat_lt.1 hn⟩
    (by simpa using h)
  exact UInt8.toNat_inj.1 (Fin.mk.inj hk)

theorem hexByte_inj {a b : UInt8} (h : hexByte a = hexByte b) : a = b := by
  simp only [hexByte, List.cons.injEq, and_true] at h
  have h1 := congrArg UInt8.toNat (hexDigit_inj (shiftRight_lt a) (shiftRight_lt b) h.1)
  have h2 := congrArg UInt8.toNat (hexDigit_inj (and_lt a) (and_lt b) h.2)
  rw [UInt8.toNat_shiftRight, UInt8.toNat_shiftRight] at h1
  rw [UInt8.toNat_and, UInt8.toNat_and] at h2
  have hs : (4 : UInt8).toNat % 8 = 4 := rfl
  have hm : (15 : UInt8).toNat = 2 ^ 4 - 1 := rfl
  rw [hs, Nat.shiftRight_eq_div_pow, Nat.shiftRight_eq_div_pow] at h1
  rw [hm, Nat.and_two_pow_sub_one_eq_mod, Nat.and_two_pow_sub_one_eq_mod] at h2
  apply UInt8.toNat_inj.1
  omega

theorem flatMap_hexByte_inj : ∀ {s t : Bytes}, s.flatMap hexByte = t.flatMap hexByte → s = t
  | [], [], _ => rfl
  | [], b :: t, h => by simp [hexByte] at h
  | a :: s, [], h => by simp [hexByte] at h
  | a :: s, b :: t, h => by
    rw [List.flatMap_cons, List.flatMap_cons] at h
    obtain ⟨h1, h2⟩ := List.append_inj h rfl
    rw [hexByte_inj h1, flatMap_hexByte_inj h2]

theorem hexDigest_inj {D : Digest} {s t : Bytes} (h : hexDigest D s = hexDigest D t) :
    D.sha s = D.sha t := flatMap_hexByte_inj h

theorem Detects.hex {D : Digest} {s : Bytes} (h : Detects D s) {i : Nat} {b : UInt8}
    (hb : s.set i b ≠ s) : hexDigest D (s.set i b) ≠ hexDigest D s := fun he =>
  hb (h i b (hexDigest_inj he))

/-! ## What the scanners leave -/

theorem scanNat_suffix {s r : Bytes} {n : Nat} (h : scanNat s = some (n, r)) : r <:+ s := by
  rw [scanNat] at h
  split at h
  · cases h
  · obtain ⟨-, rfl⟩ := Prod.mk.inj (Option.some.inj h)
    exact List.dropWhile_suffix _

theorem scanInt_suffix {s r : Bytes} {i : Int} (h : scanInt s = some (i, r)) : r <:+ s := by
  unfold scanInt at h
  split at h
  · cases h
  · split at h
    · obtain ⟨x, hx, hr⟩ := Option.map_eq_some_iff.1 h
      obtain rfl := (Prod.mk.inj hr).2
      exact (scanNat_suffix hx).trans (List.suffix_cons _ _)
    · obtain ⟨x, hx, hr⟩ := Option.map_eq_some_iff.1 h
      obtain rfl := (Prod.mk.inj hr).2
      exact scanNat_suffix hx

theorem scanNumber_suffix {max : Nat} {s r : Bytes} {n : Nat}
    (h : scanNumber max s = some (n, r)) : r <:+ s := by
  unfold scanNumber at h
  split at h
  · next m b rest hs =>
    split at h
    · cases h
    · obtain ⟨-, rfl⟩ := Prod.mk.inj (Option.some.inj h)
      exact (List.suffix_cons _ _).trans (scanNat_suffix hs)
  · cases h

theorem scanTime_suffix {s r : Bytes} {i : Int} (h : scanTime s = some (i, r)) : r <:+ s := by
  unfold scanTime at h
  split at h
  · next m b rest hs =>
    split at h
    · cases h
    · obtain ⟨-, rfl⟩ := Prod.mk.inj (Option.some.inj h)
      exact (List.suffix_cons _ _).trans (scanInt_suffix hs)
  · cases h

theorem guard_bind {α : Type} {p : Prop} [Decidable p] {f : Unit → Option α} {a : α}
    (h : ((guard p : Option Unit) >>= f) = some a) : p ∧ f () = some a := by
  by_cases hp : p
  · refine ⟨hp, ?_⟩
    rw [guard, if_pos hp] at h
    exact h
  · rw [guard, if_neg hp] at h
    cases h

/-! ## What the header parser accepts -/

/-- **A header that parses** is a header text with its digest, a digest and a newline. -/
theorem parseHead_sound {D : Digest} {l : Bytes} {h : FrameHead} (hp : parseHead D l = some h) :
    ∃ head, head = headText h.event h.objectBytes h.textBytes ∧ uuidValid h.event.id = true ∧
      h.hash.length = 64 ∧ l = head ++ 32 :: (hexDigest D head ++ 32 :: (h.hash ++ [10])) := by
  unfold parseHead at hp
  obtain ⟨-, hp⟩ := guard_bind hp
  obtain ⟨⟨seq, p1⟩, h1, hp⟩ := Option.bind_eq_some_iff.1 hp
  obtain ⟨-, hp⟩ := guard_bind hp
  obtain ⟨⟨at_, p2⟩, h2, hp⟩ := Option.bind_eq_some_iff.1 hp
  obtain ⟨⟨k, p3⟩, h3, hp⟩ := Option.bind_eq_some_iff.1 hp
  obtain ⟨kind, -, hp⟩ := Option.bind_eq_some_iff.1 hp
  obtain ⟨⟨pin, p4⟩, h4, hp⟩ := Option.bind_eq_some_iff.1 hp
  obtain ⟨-, hp⟩ := guard_bind hp
  obtain ⟨hid, hp⟩ := guard_bind hp
  obtain ⟨⟨obj, p5⟩, h5, hp⟩ := Option.bind_eq_some_iff.1 hp
  obtain ⟨-, hp⟩ := guard_bind hp
  obtain ⟨⟨text, p6⟩, h6, hp⟩ := Option.bind_eq_some_iff.1 hp
  obtain ⟨⟨hlen, h64, h129⟩, hp⟩ := guard_bind hp
  obtain ⟨⟨-, hll⟩, hp⟩ := guard_bind hp
  obtain ⟨⟨htake, hsep⟩, hp⟩ := guard_bind hp
  obtain ⟨hdig, hp⟩ := guard_bind hp
  obtain rfl := Option.some.inj hp
  -- what is left after the numbers is the end of the line
  have hsuf : p6 <:+ l :=
    (scanNumber_suffix h6).trans <| (scanNumber_suffix h5).trans <| (List.drop_suffix _ _).trans <|
    (scanNumber_suffix h4).trans <| (scanNumber_suffix h3).trans <| (scanTime_suffix h2).trans <|
    (scanNumber_suffix h1).trans (List.drop_suffix _ _)
  refine ⟨_, rfl, hid, by simp only [List.length_take, List.length_drop]; omega, ?_⟩
  generalize headText _ _ _ = head at *
  have hdrop : l.drop (head.length + 1) = p6 := by
    rw [List.suffix_iff_eq_drop] at hsuf
    rw [hsuf, show head.length + 1 = l.length - p6.length by omega]
  have hend : (p6.drop 65).drop 64 = [10] := by
    rw [List.drop_drop, List.drop_eq_getElem_cons (by omega), List.drop_of_length_le (by omega)]
    rw [List.getElem?_eq_getElem (by omega)] at h129
    rw [Option.some.inj h129]
  have hp6 : p6 = hexDigest D head ++ 32 :: ((p6.drop 65).take 64 ++ [10]) := by
    rw [hdig, ← hend, List.take_append_drop]
    rw [List.getElem?_eq_getElem (by omega)] at h64
    rw [← Option.some.inj h64, ← List.drop_eq_getElem_cons (by omega), List.take_append_drop]
  have hl : l = head ++ 32 :: p6 := by
    rw [← hdrop]
    rw [List.getElem?_eq_getElem (by omega)] at hsep
    rw [← Option.some.inj hsep, ← List.drop_eq_getElem_cons (by omega)]
    conv_lhs => rw [← List.take_append_drop head.length l, htake]
  rw [← hp6, ← hl]

/-! ## Lines of a stream -/

theorem fgets_newline {n : Nat} {s : Bytes} (h : 10 ∈ (fgets n s).1) :
    ∃ m, 10 ∉ m ∧ (fgets n s).1 = m ++ [10] ∧ s = m ++ 10 :: (fgets n s).2 := by
  have hno : (10 : UInt8) ∉ (s.take (n - 1)).takeWhile (· ≠ 10) := fun hm =>
    absurd rfl (of_decide_eq_true (p := (10 : UInt8) ≠ 10)
      (List.mem_takeWhile_imp (p := fun b => decide (b ≠ 10)) hm))
  unfold fgets at h ⊢
  dsimp only at h ⊢
  generalize hl : (s.take (n - 1)).takeWhile (· ≠ 10) = l at *
  split at h
  · exact absurd h hno
  · next hne =>
    rw [if_neg hne]
    have hdw := List.takeWhile_append_dropWhile (p := fun b => decide (b ≠ 10))
      (l := s.take (n - 1))
    have hhead := List.head?_dropWhile_not (fun b => decide (b ≠ 10)) (s.take (n - 1))
    rw [hl] at hdw
    -- the byte after the run is the newline
    cases hd : (s.take (n - 1)).dropWhile (fun b => decide (b ≠ 10)) with
    | nil =>
      rw [hd, List.append_nil] at hdw
      exact absurd (congrArg List.length hdw).symm hne
    | cons c r =>
      rw [hd] at hdw hhead
      have hc : c = 10 := by simpa using hhead
      have hs : s = l ++ 10 :: (r ++ s.drop (n - 1)) := by
        rw [← hc, ← List.cons_append, ← List.append_assoc, hdw, List.take_append_drop]
      have hdrop : s.drop (l.length + 1) = r ++ s.drop (n - 1) := by
        conv_lhs => rw [hs]
        rw [← List.drop_drop, List.drop_left, List.drop_succ_cons, List.drop_zero]
      exact ⟨l, hno, rfl, by rw [hdrop]; exact hs⟩

theorem fgets_mem {n : Nat} {s : Bytes} (hs : s.length ≤ n - 1) (h : 10 ∈ s) :
    10 ∈ (fgets n s).1 := by
  unfold fgets
  dsimp only
  rw [List.take_of_length_le hs]
  split
  · next he =>
    have heq : s.takeWhile (fun b => decide (b ≠ 10)) = s :=
      (List.takeWhile_prefix _).eq_of_length he.symm
    rwa [heq]
  · exact List.mem_append_right _ (List.mem_singleton.2 rfl)

/-- **A header that is read** is the first line of the stream. -/
theorem frameHead_sound {D : Digest} {s rest : Bytes} {h : FrameHead}
    (hs : frameHead D s = .ok (h, rest)) :
    ∃ m, s = m ++ 10 :: rest ∧ 10 ∉ m ∧ parseHead D (m ++ [10]) = some h := by
  have hline := @fgets_newline 352 s
  unfold frameHead at hs
  cases hf : fgets 352 s with
  | mk hl r =>
    rw [hf] at hs hline
    dsimp only at hs hline
    split at hs
    · cases hs
    split at hs
    · split at hs <;> cases hs
    next h10 =>
    rw [not_not] at h10
    have hpre := List.takeWhile_prefix (l := hl) (fun b => decide (b ≠ 0))
    obtain ⟨m, hm, rfl, hs'⟩ := hline (hpre.subset h10)
    -- the line has no NUL, since its newline is reached
    have hl : (m ++ [10]).takeWhile (fun b => decide (b ≠ 0)) = m ++ [10] := by
      rcases List.prefix_concat_iff.1 hpre with h | h
      · exact h
      · exact absurd (h.subset h10) hm
    rw [hl] at hs
    split at hs
    · next h' hp =>
      obtain ⟨rfl, rfl⟩ := Prod.mk.inj (Except.ok.inj hs)
      exact ⟨m, hs', hm, hp⟩
    · cases hs

/-- A stream with a newline is not a cut header. -/
theorem frameHead_error {D : Digest} {s : Bytes} {err : Err} (h10 : 10 ∈ s)
    (hs : frameHead D s = .error err) : err = .parse := by
  unfold frameHead at hs
  split at hs
  · next h => rw [h] at h10; cases h10
  · have hmem := @fgets_mem 352 s
    cases hf : fgets 352 s with
    | mk hl r =>
      rw [hf] at hs hmem
      dsimp only at hs hmem
      split at hs
      · split at hs
        · next hc => exact absurd (hmem (by omega) h10) hc.1.1
        · exact (Except.error.inj hs).symm
      · split at hs
        · cases hs
        · exact (Except.error.inj hs).symm

/-! ## The spaces of a header -/

theorem count_digits {s : Bytes} (h : ∀ b ∈ s, b = 45 ∨ isDigit b = true) : s.count 32 = 0 :=
  List.count_eq_zero.2 fun hm => by rcases h _ hm with h | h <;> revert h <;> decide

theorem count_dec (n : Nat) : (dec n).count 32 = 0 :=
  count_digits fun b hb => .inr (dec_digits n b hb)

theorem count_headText {e : Event} (h : uuidValid e.id = true) (obj text : Nat) :
    (headText e obj text).count 32 = 7 := by
  have hid : e.id.count 32 = 0 :=
    List.count_eq_zero.2 fun hm => absurd (uuidValid_byte h hm).1 (by decide)
  have hint : (decInt e.at_).count 32 = 0 := count_digits (decInt_bytes _)
  have hmagic : (ascii "AEV2 ").count 32 = 1 := by decide
  simp only [headText, List.count_append, List.count_cons_self, count_dec, hid, hint, hmagic]

/-- Two texts up to the same number of separators are the same. -/
theorem separated_unique {c : UInt8} {s t u : Bytes} (hs : s ++ [c] <+: u) (ht : t ++ [c] <+: u)
    (hc : s.count c = t.count c) : s = t := by
  -- the shorter text with its separator would be a part of the longer one
  have key : ∀ {s t : Bytes}, s ++ [c] <+: t ++ [c] → s.count c = t.count c → s = t := by
    intro s t h hc
    rcases List.prefix_concat_iff.1 h with h | h
    · exact List.append_cancel_right h
    · have := h.sublist.count_le c
      rw [List.count_append, List.count_singleton_self] at this
      omega
  rcases List.prefix_or_prefix_of_prefix hs ht with h | h
  · exact key h hc
  · exact (key h hc.symm).symm

theorem line_unique : ∀ {m m' r r' : Bytes}, 10 ∉ m → 10 ∉ m' → m ++ 10 :: r = m' ++ 10 :: r' →
    m = m' ∧ r = r'
  | [], [], _, _, _, _, h => ⟨rfl, (List.cons.inj h).2⟩
  | [], b :: m', _, _, _, hm', h => absurd ((List.cons.inj h).1 ▸ List.mem_cons_self) hm'
  | a :: m, [], _, _, hm, _, h => absurd ((List.cons.inj h).1.symm ▸ List.mem_cons_self) hm
  | a :: m, b :: m', _, _, hm, hm', h => by
    obtain ⟨hab, ht⟩ := List.cons.inj h
    obtain ⟨rfl, hr⟩ := line_unique (fun hx => hm (.tail _ hx)) (fun hx => hm' (.tail _ hx)) ht
    exact ⟨by rw [hab], hr⟩

/-- A text without a newline is a part of the first line. -/
theorem prefix_line {s t m r : Bytes} (hs : 10 ∉ s) (h : s ++ t = m ++ 10 :: r) : s <+: m := by
  have h1 : s <+: m ++ 10 :: r := ⟨t, h⟩
  have h2 : m ++ [10] <+: m ++ 10 :: r := ⟨r, by simp⟩
  rcases List.prefix_or_prefix_of_prefix h1 h2 with hp | hp
  · rcases List.prefix_concat_iff.1 hp with rfl | hp
    · exact absurd (List.mem_append_right _ (List.mem_singleton.2 rfl)) hs
    · exact hp
  · exact absurd (hp.subset (List.mem_append_right _ (List.mem_singleton.2 rfl))) hs

/-! ## Damaged headers -/

/-- **A changed byte does not move the end of the header**: the first line of the damaged stream is
accepted only when it is the damaged line. -/
theorem damaged_line {H X F H' X' F' t rest : Bytes} {i : Nat} {b : UInt8}
    (hX : X.length = 64) (hF : F.length = 64) (hX' : X'.length = 64) (hF' : F'.length = 64)
    (hc : H.count 32 = H'.count 32)
    (hl : 10 ∉ H ++ 32 :: (X ++ 32 :: F)) (hm : 10 ∉ H' ++ 32 :: (X' ++ 32 :: F'))
    (hi : i < (H ++ 32 :: (X ++ 32 :: F) ++ [10]).length)
    (hb : (H ++ 32 :: (X ++ 32 :: F) ++ [10]).set i b ≠ H ++ 32 :: (X ++ 32 :: F) ++ [10])
    (he : (H ++ 32 :: (X ++ 32 :: F) ++ [10]).set i b ++ t =
      H' ++ 32 :: (X' ++ 32 :: F') ++ 10 :: rest) :
    (H ++ 32 :: (X ++ 32 :: F)).set i b = H' ++ 32 :: (X' ++ 32 :: F') ∧ t = rest ∧
      i < (H ++ 32 :: (X ++ 32 :: F)).length := by
  have hlen : (H ++ 32 :: (X ++ 32 :: F)).length = H.length + 130 := by
    simp only [List.length_append, List.length_cons]; omega
  have hlen' : (H' ++ 32 :: (X' ++ 32 :: F')).length = H'.length + 130 := by
    simp only [List.length_append, List.length_cons]; omega
  have hpre : H ++ [32] <+: H ++ 32 :: (X ++ 32 :: F) := ⟨X ++ 32 :: F, by simp⟩
  have hpre' : H' ++ [32] <+: H' ++ 32 :: (X' ++ 32 :: F') := ⟨X' ++ 32 :: F', by simp⟩
  generalize H ++ 32 :: (X ++ 32 :: F) = l at *
  generalize H' ++ 32 :: (X' ++ 32 :: F') = m at *
  rw [List.length_append, List.length_singleton] at hi
  by_cases hil : i < l.length
  · rw [List.set_append_left _ _ hil, List.append_assoc, List.singleton_append] at he
    by_cases h10 : b = 10
    · -- a newline inside: the line ends early, before the eighth space
      rw [h10, List.set_eq_take_append_cons_drop, if_pos hil, List.append_assoc,
        List.cons_append] at he
      obtain ⟨hm', -⟩ := line_unique (fun hx => hl (List.mem_of_mem_take hx)) hm he
      have hml : m <+: l := hm' ▸ List.take_prefix _ _
      have := congrArg List.length (separated_unique hpre (hpre'.trans hml) hc)
      have := congrArg List.length hm'
      rw [List.length_take] at this
      omega
    · have hset : 10 ∉ l.set i b := fun hx =>
        (List.mem_or_eq_of_mem_set hx).elim hl fun hx => h10 hx.symm
      obtain ⟨h1, h2⟩ := line_unique hset hm he
      exact ⟨h1, h2, hil⟩
  · -- the newline itself: the line goes on after the ninth space
    obtain rfl : i = l.length := by omega
    rw [List.set_append_right _ _ (Nat.le_refl _), Nat.sub_self, List.set_cons_zero] at he hb
    have h10 : b ≠ 10 := fun h => hb (by rw [h])
    have hno : 10 ∉ l ++ [b] := fun hx => by
      rcases List.mem_append.1 hx with hx | hx
      · exact hl hx
      · exact h10 (List.mem_singleton.1 hx).symm
    have hlm := prefix_line hno he
    have := congrArg List.length
      (separated_unique (hpre.trans ((List.prefix_append _ _).trans hlm)) hpre' hc)
    have := hlm.length_le
    rw [List.length_append, List.length_singleton] at this
    omega

section
variable {D : Digest} {e : Event}

/-- The same length, header digest and separators leave the digest of the frame to differ only. -/
theorem damaged_parts {H X F H' F' : Bytes} {i : Nat} {b : UInt8} (hd : Detects D H)
    (hX : X = hexDigest D H) (hF : F.length = 64) (hF' : F'.length = 64)
    (hb : (H ++ 32 :: (X ++ 32 :: F)).set i b ≠ H ++ 32 :: (X ++ 32 :: F))
    (he : (H ++ 32 :: (X ++ 32 :: F)).set i b = H' ++ 32 :: (hexDigest D H' ++ 32 :: F')) :
    H' = H ∧ F' ≠ F := by
  have hlX : X.length = 64 := hX ▸ length_hexDigest D H
  have hlX' := length_hexDigest D H'
  have hlen : H'.length = H.length := by
    have := congrArg List.length he
    simp only [List.length_set, List.length_append, List.length_cons] at this
    omega
  rw [List.set_append] at he hb
  split at he
  · -- in the header: its digest does not fit
    next hi =>
    rw [if_pos hi] at hb
    obtain ⟨h1, h2⟩ := List.append_inj he (by rw [List.length_set, hlen])
    have hset : H.set i b ≠ H := fun h => hb (by rw [h])
    obtain ⟨h3, -⟩ := List.append_inj (List.cons.inj h2).2 (by rw [hlX, hlX'])
    rw [← h1, hX] at h3
    exact absurd h3.symm (hd.hex hset)
  · next hi =>
    rw [if_neg hi] at hb
    obtain ⟨rfl, h2⟩ := List.append_inj he hlen.symm
    refine ⟨rfl, fun hFF => ?_⟩
    rw [hFF, ← hX] at h2
    exact hb (by rw [h2])

theorem mem_frame_end (s t : Bytes) : (10 : UInt8) ∈ e.objectRef ++ (s ++ [10]) ++ t := by
  simp

/-- **A damaged header line** is refused, or differs in the digest of the frame only. -/
theorem frameHead_damaged (h : e.Ok)
    (hd : Detects D (headText e e.objectRef.length e.text.length)) {i : Nat} {b : UInt8}
    (hi : i < (headLine D e).length) (hb : (headLine D e).set i b ≠ headLine D e) {t : Bytes}
    (ht : 10 ∈ t) :
    frameHead D ((headLine D e).set i b ++ t) = .error .parse ∨
      ∃ hash, hash ≠ frameDigest D (headText e e.objectRef.length e.text.length) e ∧
        frameHead D ((headLine D e).set i b ++ t) =
          .ok (⟨e.bare, e.objectRef.length, e.text.length, hash⟩, t) := by
  cases hr : frameHead D ((headLine D e).set i b ++ t) with
  | error err => exact .inl (by rw [frameHead_error (List.mem_append_right _ ht) hr])
  | ok r =>
    obtain ⟨h', rest⟩ := r
    obtain ⟨m, hs, hm, hp⟩ := frameHead_sound hr
    obtain ⟨H', hH', hid, hF', hm'⟩ := parseHead_sound hp
    obtain ⟨l, hl, hplain, -⟩ := headLine_eq D h
    have hline : headLine D e = headText e e.objectRef.length e.text.length ++
        32 :: (hexDigest D (headText e e.objectRef.length e.text.length) ++
          32 :: frameDigest D (headText e e.objectRef.length e.text.length) e) ++ [10] := by
      simp [headLine]
    have hparse := parseHead_headWith D h hF'
    have hcount := count_headText h.id_valid e.objectRef.length e.text.length
    have hcount' := count_headText hid h'.objectBytes h'.textBytes
    have hFl : (frameDigest D (headText e e.objectRef.length e.text.length) e).length = 64 :=
      length_hexDigest D _
    rw [← hH'] at hcount'
    rw [headWith] at hparse
    have hm2 : m = H' ++ 32 :: (hexDigest D H' ++ 32 :: h'.hash) := by
      have : m ++ [10] = H' ++ 32 :: (hexDigest D H' ++ 32 :: h'.hash) ++ [10] := by
        rw [hm']; simp
      exact List.append_cancel_right this
    rw [hline] at hi hb hs
    have hno := hplain.not_mem (b := 10) (by decide)
    rw [hline] at hl
    rw [← List.append_cancel_right hl] at hno
    generalize headText e e.objectRef.length e.text.length = H at *
    generalize frameDigest D H e = F at *
    obtain ⟨h1, rfl, hil⟩ := damaged_line (length_hexDigest D _) hFl (length_hexDigest D H') hF'
      (hcount.trans hcount'.symm) hno (hm2 ▸ hm) hi hb (by rw [hs, hm2])
    rw [List.set_append_left _ _ hil] at hb
    obtain ⟨rfl, hne⟩ := damaged_parts hd rfl hFl hF' (fun h => hb (by rw [h])) h1
    -- the header is that of the event
    refine .inr ⟨h'.hash, hne, ?_⟩
    have : parseHead D (m ++ [10]) = some ⟨e.bare, e.objectRef.length, e.text.length, h'.hash⟩ := by
      rw [hm2]
      simpa using hparse
    rw [this] at hp
    rw [Option.some.inj hp]

/-- A frame whose header is in order but whose contents or digest are not those it was written
with is refused. -/
theorem frameRead_body {obj text hash s rest : Bytes} (h : e.Ok)
    (hs : frameHead D s =
      .ok (⟨e.bare, e.objectRef.length, e.text.length, hash⟩, obj ++ (text ++ rest)))
    (ho : obj.length = e.objectRef.length) (ht : text.length = e.text.length)
    (hne : rest ≠ [])
    (hbad : rest.head? ≠ some 10 ∨ hash ≠ hexDigest D
      (headText e e.objectRef.length e.text.length ++ obj ++ text)) :
    frameRead D s = .error .parse := by
  have hdrop : (obj ++ (text ++ rest)).drop (e.objectRef.length + e.text.length) = rest := by
    rw [← ho, ← ht, ← List.drop_drop, List.drop_left, List.drop_left]
  have htake : (obj ++ (text ++ rest)).take e.objectRef.length = obj := by
    rw [← ho, List.take_left]
  have htext : ((obj ++ (text ++ rest)).drop e.objectRef.length).take e.text.length = text := by
    rw [← ho, ← ht, List.drop_left, List.take_left]
  unfold frameRead
  rw [hs]
  dsimp only
  rw [htake, htext, hdrop, if_neg (by omega)]
  split
  · rfl
  rw [if_neg (by omega)]
  cases rest with
  | nil => exact absurd rfl hne
  | cons c rest =>
    dsimp only
    split
    · rfl
    · next hok =>
      rw [if_neg]
      intro hh
      rcases hbad with hbad | hbad
      · exact hok (.inl fun hc => hbad (by rw [hc]; rfl))
      · exact hbad hh

/-- **A frame with one byte changed** reads as damaged, whatever follows it. -/
theorem frameRead_damaged (h : e.Ok) (hd : FrameDetects D e) {i : Nat} {b : UInt8}
    (hi : i < (frameBytes D e).length) (hb : (frameBytes D e).set i b ≠ frameBytes D e)
    (rest : Bytes) : frameRead D ((frameBytes D e).set i b ++ rest) = .error .parse := by
  rw [frameBytes] at hi hb ⊢
  rw [List.set_append] at hb ⊢
  split at hb
  · next hil =>
    rw [if_pos hil]
    have ht : (10 : UInt8) ∈ e.objectRef ++ (e.text ++ [10]) ++ rest := by simp
    rw [List.append_assoc]
    rcases frameHead_damaged h hd.head hil (fun he => hb (by rw [he])) ht with hr | ⟨hash, hne, hr⟩
    · rw [frameRead, hr]
    · rw [List.append_assoc, List.append_assoc] at hr
      rw [List.append_assoc, List.append_assoc]
      exact frameRead_body h hr rfl rfl (by simp) (.inr hne)
  · next hil =>
    rw [if_neg hil, List.append_assoc]
    rw [List.length_append] at hi
    have hset : (e.objectRef ++ (e.text ++ [10])).set (i - (headLine D e).length) b ≠
        e.objectRef ++ (e.text ++ [10]) := fun he => hb (by rw [he])
    have hi' : i - (headLine D e).length < (e.objectRef ++ (e.text ++ [10])).length := by omega
    have hr := frameHead_headLine D h
      ((e.objectRef ++ (e.text ++ [10])).set (i - (headLine D e).length) b ++ rest)
    generalize i - (headLine D e).length = j at *
    rw [List.set_append] at hset hr ⊢
    have hbody := hd.body
    split at hset
    · -- the object reference
      next hj =>
      rw [if_pos hj] at hr ⊢
      rw [List.append_assoc, List.append_assoc] at hr ⊢
      refine frameRead_body h hr (List.length_set ..) rfl (by simp) (.inr fun heq => ?_)
      refine hbody.hex (i := (headText e e.objectRef.length e.text.length).length + j) (b := b)
        (fun he => hset ?_) ?_
      · rw [List.append_assoc, List.set_append_right _ _ (Nat.le_add_right ..),
          Nat.add_sub_cancel_left, List.set_append_left _ _ hj] at he
        rw [List.append_cancel_right (List.append_cancel_left he)]
      · rw [List.append_assoc, List.set_append_right _ _ (Nat.le_add_right ..),
          Nat.add_sub_cancel_left, List.set_append_left _ _ hj, ← List.append_assoc, ← heq,
          frameDigest, List.append_assoc]
    · next hj =>
      rw [if_neg hj] at hr ⊢
      have hset' : (e.text ++ [10]).set (j - e.objectRef.length) b ≠ e.text ++ [10] := fun he =>
        hset (by rw [he])
      rw [List.length_append] at hi'
      rw [List.append_assoc] at hr ⊢
      rw [List.set_append] at hset' hr ⊢
      split at hset'
      · -- the text
        next hk =>
        rw [if_pos hk] at hr ⊢
        rw [List.append_assoc] at hr ⊢
        refine frameRead_body h hr rfl (List.length_set ..) (by simp) (.inr fun heq => ?_)
        refine hbody.hex
          (i := (headText e e.objectRef.length e.text.length ++ e.objectRef).length +
            (j - e.objectRef.length)) (b := b) (fun he => hset' ?_) ?_
        · rw [List.set_append_right _ _ (Nat.le_add_right ..), Nat.add_sub_cancel_left] at he
          rw [List.append_cancel_left he]
        · rw [List.set_append_right _ _ (Nat.le_add_right ..), Nat.add_sub_cancel_left, ← heq,
            frameDigest]
      · -- the newline at the end
        next hk =>
        rw [if_neg hk] at hr ⊢
        rw [List.length_append, List.length_singleton] at hi'
        rw [show j - e.objectRef.length - e.text.length = 0 by omega, List.set_cons_zero] at hset' hr ⊢
        rw [List.append_assoc] at hr ⊢
        refine frameRead_body h hr rfl rfl (by simp) (.inl fun hc => hset' ?_)
        rw [show b = 10 by simpa using hc]

end

end Asper
