import Asper.Base.Utf8

/-! # UTF-8

`utf8Count` accepts the encodings of lists of characters (`utf8Count_iff`), and counts them. The
scanner computes it and stays inside its buffer (`asperUtf8Count_spec`). -/

namespace Asper

open Durable (Bytes)

set_option maxRecDepth 4000 in
theorem isCont_iff (b : UInt8) : isCont b = true ↔ 128 ≤ b.toNat ∧ b.toNat < 192 := by
  have key : ∀ n : Fin 256, isCont (UInt8.ofNat n) = true ↔ 128 ≤ n.val ∧ n.val < 192 := by decide
  simpa using key ⟨b.toNat, b.toNat_lt⟩

theorem addCont_eq (n : Nat) (b : UInt8) : addCont n b = n * 64 + b.toNat % 64 := by
  rw [addCont, UInt8.toNat_and]
  exact congrArg (n * 64 + ·) (Nat.and_two_pow_sub_one_eq_mod b.toNat 6)

theorem cpOk_iff (need n : Nat) : cpOk need n = true ↔ ¬ (need = 3 ∧ n < 0x800) ∧
    ¬ (need = 4 ∧ n < 0x10000) ∧ ¬ (0xd800 ≤ n ∧ n ≤ 0xdfff) ∧ n ≤ 0x10ffff := by
  simp only [cpOk, Bool.not_eq_true', decide_eq_false_iff_not, not_or, not_lt]

theorem ofNat_toNat_of_eq {n : Nat} {b : UInt8} (h : b.toNat = n) : UInt8.ofNat n = b := by
  rw [← h, UInt8.ofNat_toNat]

/-! ## Encodings -/

section
variable {c : Char}

theorem encode_one (h : c.toNat < 0x80) : String.utf8EncodeChar c = [UInt8.ofNat c.toNat] := by
  have h' : c.val.toNat ≤ 0x7f := Nat.le_of_lt_succ h
  simp only [String.utf8EncodeChar, h', if_true]
  rfl

theorem encode_two (h1 : 0x80 ≤ c.toNat) (h2 : c.toNat < 0x800) :
    String.utf8EncodeChar c =
      [UInt8.ofNat (c.toNat / 64 % 32 + 192), UInt8.ofNat (c.toNat % 64 + 128)] := by
  have h1' : ¬ c.val.toNat ≤ 0x7f := Nat.not_le.2 h1
  have h2' : c.val.toNat ≤ 0x7ff := Nat.le_of_lt_succ h2
  simp only [String.utf8EncodeChar, h1', h2', if_true, if_false]
  rfl

theorem encode_three (h1 : 0x800 ≤ c.toNat) (h2 : c.toNat < 0x10000) :
    String.utf8EncodeChar c = [UInt8.ofNat (c.toNat / 4096 % 16 + 224),
      UInt8.ofNat (c.toNat / 64 % 64 + 128), UInt8.ofNat (c.toNat % 64 + 128)] := by
  have h1' : ¬ c.val.toNat ≤ 0x7ff := Nat.not_le.2 h1
  have h0' : ¬ c.val.toNat ≤ 0x7f := fun h => h1' (h.trans (by decide))
  have h2' : c.val.toNat ≤ 0xffff := Nat.le_of_lt_succ h2
  simp only [String.utf8EncodeChar, h0', h1', h2', if_true, if_false]
  rfl

theorem encode_four (h : 0x10000 ≤ c.toNat) :
    String.utf8EncodeChar c = [UInt8.ofNat (c.toNat / 262144 % 8 + 240),
      UInt8.ofNat (c.toNat / 4096 % 64 + 128), UInt8.ofNat (c.toNat / 64 % 64 + 128),
      UInt8.ofNat (c.toNat % 64 + 128)] := by
  have h2' : ¬ c.val.toNat ≤ 0xffff := Nat.not_le.2 h
  have h1' : ¬ c.val.toNat ≤ 0x7ff := fun h => h2' (h.trans (by decide))
  have h0' : ¬ c.val.toNat ≤ 0x7f := fun h => h2' (h.trans (by decide))
  simp only [String.utf8EncodeChar, h0', h1', h2', if_false]
  rfl

theorem char_range (c : Char) : c.toNat < 0xd800 ∨ 0xdfff < c.toNat ∧ c.toNat < 0x110000 := c.valid

end

theorem exists_scalar {n : Nat} (h : n < 0xd800 ∨ 0xdfff < n ∧ n < 0x110000) :
    ∃ c : Char, c.toNat = n :=
  ⟨Char.ofNatAux n h, rfl⟩

theorem toNat_ofNat_lt {n : Nat} (h : n < 256) : (UInt8.ofNat n).toNat = n := by
  rw [UInt8.toNat_ofNat']
  exact Nat.mod_eq_of_lt h

theorem isCont_ofNat {n : Nat} (h : n < 64) : isCont (UInt8.ofNat (n + 128)) = true := by
  rw [isCont_iff, toNat_ofNat_lt (by omega)]
  omega

theorem addCont_ofNat {m n : Nat} (h : n < 64) : addCont m (UInt8.ofNat (n + 128)) = m * 64 + n := by
  rw [addCont_eq, toNat_ofNat_lt (by omega)]
  omega

/-! ## The cases of the counter -/

section
variable {a b c d : UInt8} (s : Bytes)

theorem utf8Count_two (h1 : 194 ≤ a.toNat) (h2 : a.toNat < 224) (hb : isCont b = true) :
    utf8Count (a :: b :: s) = (utf8Count s).map (· + 1) := by
  have ha : (a &&& 0x1f).toNat < 32 := by
    rw [UInt8.toNat_and]
    exact Nat.lt_of_le_of_lt Nat.and_le_right (by decide)
  have hok : cpOk 2 (addCont (a &&& 0x1f).toNat b) = true := by
    rw [cpOk_iff, addCont_eq]
    omega
  rw [utf8Count.eq_def]
  dsimp only
  rw [if_neg (by rw [UInt8.lt_iff_toNat_lt]; exact Nat.not_lt.2 (by simp; omega)),
    if_pos (by simp only [UInt8.le_iff_toNat_le, UInt8.reduceToNat]; omega), if_pos ⟨hb, hok⟩]

theorem utf8Count_three (h1 : 224 ≤ a.toNat) (h2 : a.toNat < 240) (hb : isCont b = true)
    (hc : isCont c = true)
    (hok : cpOk 3 (addCont (addCont (a &&& 0x0f).toNat b) c) = true) :
    utf8Count (a :: b :: c :: s) = (utf8Count s).map (· + 1) := by
  rw [utf8Count.eq_def]
  dsimp only
  rw [if_neg (by rw [UInt8.lt_iff_toNat_lt]; exact Nat.not_lt.2 (by simp; omega)),
    if_neg (by simp only [UInt8.le_iff_toNat_le, UInt8.reduceToNat]; omega),
    if_pos (by simp only [UInt8.le_iff_toNat_le, UInt8.reduceToNat]; omega), if_pos ⟨hb, hc, hok⟩]

theorem utf8Count_four (h1 : 240 ≤ a.toNat) (h2 : a.toNat < 245) (hb : isCont b = true)
    (hc : isCont c = true) (hd : isCont d = true)
    (hok : cpOk 4 (addCont (addCont (addCont (a &&& 0x07).toNat b) c) d) = true) :
    utf8Count (a :: b :: c :: d :: s) = (utf8Count s).map (· + 1) := by
  rw [utf8Count.eq_def]
  dsimp only
  rw [if_neg (by rw [UInt8.lt_iff_toNat_lt]; exact Nat.not_lt.2 (by simp; omega)),
    if_neg (by simp only [UInt8.le_iff_toNat_le, UInt8.reduceToNat]; omega),
    if_neg (by simp only [UInt8.le_iff_toNat_le, UInt8.reduceToNat]; omega),
    if_pos (by simp only [UInt8.le_iff_toNat_le, UInt8.reduceToNat]; omega),
    if_pos ⟨hb, hc, hd, hok⟩]

theorem lowBits (a : UInt8) :
    (a &&& 0x1f).toNat = a.toNat % 32 ∧ (a &&& 0x0f).toNat = a.toNat % 16 ∧
      (a &&& 0x07).toNat = a.toNat % 8 := by
  simp only [UInt8.toNat_and]
  exact ⟨Nat.and_two_pow_sub_one_eq_mod _ 5, Nat.and_two_pow_sub_one_eq_mod _ 4,
    Nat.and_two_pow_sub_one_eq_mod _ 3⟩

end

/-- **The encoding of a character** counts one. -/
theorem utf8Count_encode (c : Char) (s : Bytes) :
    utf8Count (String.utf8EncodeChar c ++ s) = (utf8Count s).map (· + 1) := by
  have hr := char_range c
  by_cases h1 : c.toNat < 0x80
  · rw [encode_one h1]
    refine utf8Count_cons_ascii s ?_
    rw [UInt8.lt_iff_toNat_lt, toNat_ofNat_lt (by omega)]
    exact h1
  by_cases h2 : c.toNat < 0x800
  · rw [encode_two (by omega) h2]
    have ha : (UInt8.ofNat (c.toNat / 64 % 32 + 192)).toNat = c.toNat / 64 + 192 := by
      rw [toNat_ofNat_lt (by omega)]
      omega
    exact utf8Count_two s (by omega) (by omega) (isCont_ofNat (by omega))
  by_cases h3 : c.toNat < 0x10000
  · rw [encode_three (by omega) h3]
    have ha : (UInt8.ofNat (c.toNat / 4096 % 16 + 224)).toNat = c.toNat / 4096 + 224 := by
      rw [toNat_ofNat_lt (by omega)]
      omega
    refine utf8Count_three s (by omega) (by omega) (isCont_ofNat (by omega))
      (isCont_ofNat (by omega)) ?_
    rw [(lowBits _).2.1, ha, addCont_ofNat (by omega), addCont_ofNat (by omega), cpOk_iff]
    omega
  · rw [encode_four (by omega)]
    have ha : (UInt8.ofNat (c.toNat / 262144 % 8 + 240)).toNat = c.toNat / 262144 + 240 := by
      rw [toNat_ofNat_lt (by omega)]
      omega
    refine utf8Count_four s (by omega) (by omega) (isCont_ofNat (by omega))
      (isCont_ofNat (by omega)) (isCont_ofNat (by omega)) ?_
    rw [(lowBits _).2.2, ha, addCont_ofNat (by omega), addCont_ofNat (by omega),
      addCont_ofNat (by omega), cpOk_iff]
    omega

/-- A text that is counted and not empty begins with the encoding of a character. -/
theorem utf8Count_head {a : UInt8} {s : Bytes} {n : Nat} (h : utf8Count (a :: s) = some n) :
    ∃ (c : Char) (rest : Bytes) (m : Nat), a :: s = String.utf8EncodeChar c ++ rest ∧
      utf8Count rest = some m ∧ n = m + 1 := by
  have hlow := lowBits a
  rw [utf8Count.eq_def] at h
  dsimp only at h
  split at h
  · next ha =>
    rw [UInt8.lt_iff_toNat_lt] at ha
    obtain ⟨m, hm, rfl⟩ := Option.map_eq_some_iff.1 h
    obtain ⟨x, hx⟩ := exists_scalar (n := a.toNat) (.inl (Nat.lt_trans ha (by decide)))
    refine ⟨x, s, m, ?_, hm, rfl⟩
    rw [encode_one (by rw [hx]; exact ha), hx, UInt8.ofNat_toNat]
    rfl
  · split at h
    · next ha =>
      simp only [UInt8.le_iff_toNat_le, UInt8.reduceToNat] at ha
      split at h
      · next b s =>
        split at h
        · next hb =>
          obtain ⟨m, hm, rfl⟩ := Option.map_eq_some_iff.1 h
          have hb' := (isCont_iff b).1 hb.1
          obtain ⟨x, hx⟩ := exists_scalar (n := (a.toNat - 192) * 64 + (b.toNat - 128))
            (.inl (by omega))
          refine ⟨x, s, m, ?_, hm, rfl⟩
          rw [encode_two (by omega) (by omega), hx,
            ofNat_toNat_of_eq (b := a) (by omega), ofNat_toNat_of_eq (b := b) (by omega)]
          rfl
        · cases h
      · cases h
    · split at h
      · next ha =>
        simp only [UInt8.le_iff_toNat_le, UInt8.reduceToNat] at ha
        split at h
        · next b c s =>
          split at h
          · next hb =>
            obtain ⟨m, hm, rfl⟩ := Option.map_eq_some_iff.1 h
            obtain ⟨hb, hc, hok⟩ := hb
            have hb' := (isCont_iff b).1 hb
            have hc' := (isCont_iff c).1 hc
            rw [hlow.2.1, addCont_eq, addCont_eq, cpOk_iff] at hok
            obtain ⟨x, hx⟩ := exists_scalar
              (n := (a.toNat - 224) * 4096 + (b.toNat - 128) * 64 + (c.toNat - 128)) (by omega)
            refine ⟨x, s, m, ?_, hm, rfl⟩
            rw [encode_three (by omega) (by omega), hx,
              ofNat_toNat_of_eq (b := a) (by omega), ofNat_toNat_of_eq (b := b) (by omega),
              ofNat_toNat_of_eq (b := c) (by omega)]
            rfl
          · cases h
        · cases h
      · split at h
        · next ha =>
          simp only [UInt8.le_iff_toNat_le, UInt8.reduceToNat] at ha
          split at h
          · next b c d s =>
            split at h
            · next hb =>
              obtain ⟨m, hm, rfl⟩ := Option.map_eq_some_iff.1 h
              obtain ⟨hb, hc, hd, hok⟩ := hb
              have hb' := (isCont_iff b).1 hb
              have hc' := (isCont_iff c).1 hc
              have hd' := (isCont_iff d).1 hd
              rw [hlow.2.2, addCont_eq, addCont_eq, addCont_eq, cpOk_iff] at hok
              obtain ⟨x, hx⟩ := exists_scalar (n := (a.toNat - 240) * 262144 +
                (b.toNat - 128) * 4096 + (c.toNat - 128) * 64 + (d.toNat - 128)) (by omega)
              refine ⟨x, s, m, ?_, hm, rfl⟩
              rw [encode_four (by omega), hx,
                ofNat_toNat_of_eq (b := a) (by omega), ofNat_toNat_of_eq (b := b) (by omega),
                ofNat_toNat_of_eq (b := c) (by omega), ofNat_toNat_of_eq (b := d) (by omega)]
              rfl
            · cases h
          · cases h
        · cases h

/-- **The counter** accepts the encodings of lists of characters, and counts the characters. -/
theorem utf8Count_iff {s : Bytes} {n : Nat} : utf8Count s = some n ↔
    ∃ cs : List Char, cs.length = n ∧ cs.flatMap String.utf8EncodeChar = s := by
  constructor
  · intro h
    induction hn : s.length using Nat.strong_induction_on generalizing s n with
    | _ k ih =>
      cases s with
      | nil => exact ⟨[], Option.some.inj h, rfl⟩
      | cons a s =>
        obtain ⟨c, rest, m, hs, hm, rfl⟩ := utf8Count_head h
        have hlt : rest.length < k := by
          rw [← hn, hs, List.length_append, String.length_utf8EncodeChar]
          exact Nat.lt_add_of_pos_left c.utf8Size_pos
        obtain ⟨cs, rfl, rfl⟩ := ih rest.length hlt hm rfl
        exact ⟨c :: cs, rfl, hs.symm⟩
  · rintro ⟨cs, rfl, rfl⟩
    induction cs with
    | nil => rfl
    | cons c cs ih => rw [List.flatMap_cons, utf8Count_encode, ih, List.length_cons, Option.map_some]

theorem utf8Valid_iff {s : Bytes} :
    utf8Valid s = true ↔ ∃ cs : List Char, cs.flatMap String.utf8EncodeChar = s := by
  rw [utf8Valid, Option.isSome_iff_exists]
  simp only [utf8Count_iff]
  constructor
  · rintro ⟨_, cs, -, h⟩
    exact ⟨cs, h⟩
  · rintro ⟨cs, h⟩
    exact ⟨_, cs, rfl, h⟩

/-! ## The scanner -/

open Scanner

theorem sat_cons (f : UInt8 → Bool) (b : UInt8) (p : Bytes) :
    sat f (b :: p) = if f b then .ok (b, p) else .error .reject := by
  show (check (f b) p).bind (fun x => .ok (b, x.2)) = _
  cases f b <;> rfl

theorem contBytes_cons {k cp : Nat} {b : UInt8} {p : Bytes} : contBytes (k + 1) cp (b :: p) =
    if isCont b then contBytes k (addCont cp b) p else .error .reject := by
  show (sat isCont (b :: p)).bind (fun x => contBytes k (addCont cp x.1) x.2) = _
  rw [sat_cons]
  cases isCont b <;> rfl

theorem contBytes_zero {cp : Nat} {p : Bytes} : contBytes 0 cp p = .ok (cp, p) := rfl

/-- The terminator is no continuation byte: a truncated sequence is rejected there. -/
theorem contBytes_end {k cp : Nat} : contBytes (k + 1) cp [0] = .error .reject :=
  contBytes_cons

section
variable {a : UInt8} {p : Bytes}

theorem next_bind {β : Type} (m : UInt8 → Scanner.Scan UInt8 β) :
    (next >>= m) (a :: p) = m a p := rfl

theorem utf8Char_none (h : utf8Lead a = none) : utf8Char (a :: p) = .error .reject := by
  rw [utf8Char, next_bind, h]
  rfl

theorem utf8Char_some {need cp : Nat} (h : utf8Lead a = some (need, cp)) : utf8Char (a :: p) =
    (contBytes (need - 1) cp p).bind fun x =>
      if cpOk need x.1 then .ok ((), x.2) else .error .reject := by
  rw [utf8Char, next_bind, h]
  change (contBytes (need - 1) cp p).bind (fun x => check (cpOk need x.1) x.2) = _
  congr 1
  funext x
  cases cpOk need x.1 <;> rfl

end

theorem inText_iff {b : UInt8} : inText b = true ↔ b ≠ 0 := decide_eq_true_iff

/-- On `s` before the terminator the loop ends with the count `o`. -/
def Counts (s : Bytes) (o : Option Nat) : Prop :=
  0 ∉ s → ∀ k n, s.length < k → loopN inText utf8Step k n (s ++ [0]) =
    o.elim (.error .reject) fun m => .ok (n + m, [0])

section
variable {a : UInt8} {w s : Bytes} {o : Option Nat}

/-- A code point that is read counts one. -/
theorem Counts.step (h : Counts s o)
    (hrun : utf8Char (a :: (w ++ s) ++ [0]) = .ok ((), s ++ [0])) :
    Counts (a :: (w ++ s)) (o.map (· + 1)) := by
  intro h0 k n hk
  obtain _ | k := k
  · exact absurd hk (Nat.not_lt_zero _)
  have ha : a ≠ 0 := fun ha => h0 (ha ▸ List.mem_cons_self)
  have hs : 0 ∉ s := fun hm => h0 (List.mem_cons_of_mem a (List.mem_append_right w hm))
  have hlen : s.length < k := by
    rw [List.length_cons, List.length_append] at hk
    omega
  have hbody : utf8Step n (a :: (w ++ s) ++ [0]) = .ok (n + 1, s ++ [0]) := by
    change (utf8Char (a :: (w ++ s) ++ [0])).bind (fun x => .ok (n + 1, x.2)) = _
    rw [hrun]
    rfl
  refine (loopN_step (inText_iff.2 ha) hbody).trans ((h hs k (n + 1) hlen).trans ?_)
  cases o with
  | none => rfl
  | some m => exact congrArg (fun j => Except.ok (j, [0])) (Nat.add_right_comm n 1 m)

theorem Counts.malformed (hrun : utf8Char (a :: s ++ [0]) = .error .reject) :
    Counts (a :: s) none := by
  intro h0 k n hk
  obtain _ | k := k
  · exact absurd hk (Nat.not_lt_zero _)
  have ha : a ≠ 0 := fun ha => h0 (ha ▸ List.mem_cons_self)
  refine loopN_halt (inText_iff.2 ha) ?_
  change (utf8Char (a :: s ++ [0])).bind (fun x => .ok (n + 1, x.2)) = _
  rw [hrun]
  rfl

end

/-- The scanner against `utf8Count`, one code point after the other. -/
theorem counts_utf8Count (s : Bytes) : Counts s (utf8Count s) := by
  fun_induction utf8Count s
  case case1 =>
    intro _ k n hk
    obtain _ | k := k
    · exact absurd hk (Nat.not_lt_zero _)
    · exact loopN_done rfl
  case case2 a s ha ih =>
    refine ih.step (w := []) ?_
    rw [List.cons_append, utf8Char_some (if_pos ha)]
    have hok : cpOk 1 a.toNat = true := by
      rw [UInt8.lt_iff_toNat_lt] at ha
      rw [cpOk_iff]
      simp at ha
      omega
    simp only [contBytes_zero, Nat.sub_self, Except.bind, hok, if_true, List.nil_append]
  case case3 a ha1 ha2 b s h ih =>
    refine ih.step (w := [b]) ?_
    rw [List.cons_append, utf8Char_some ((if_neg ha1).trans (if_pos ha2))]
    simp only [List.cons_append, List.nil_append, contBytes_cons, contBytes_zero, Except.bind, h,
      if_true]
  case case4 a ha1 ha2 b s h =>
    refine .malformed ?_
    rw [List.cons_append, utf8Char_some ((if_neg ha1).trans (if_pos ha2))]
    simp only [List.cons_append, contBytes_cons, contBytes_zero]
    split
    · next hb => exact if_neg fun hok => h ⟨hb, hok⟩
    · rfl
  case case5 a s ha1 ha2 h =>
    refine .malformed ?_
    rw [List.cons_append, utf8Char_some ((if_neg ha1).trans (if_pos ha2))]
    match s with
    | [] => rfl
    | b :: s => exact absurd rfl (h b s)
  case case6 a ha1 ha2 ha3 b c s h ih =>
    refine ih.step (w := [b, c]) ?_
    rw [List.cons_append, utf8Char_some ((if_neg ha1).trans ((if_neg ha2).trans (if_pos ha3)))]
    simp only [List.cons_append, List.nil_append, contBytes_cons, contBytes_zero, Except.bind, h,
      if_true]
  case case7 a ha1 ha2 ha3 b c s h =>
    refine .malformed ?_
    rw [List.cons_append, utf8Char_some ((if_neg ha1).trans ((if_neg ha2).trans (if_pos ha3)))]
    simp only [List.cons_append, contBytes_cons, contBytes_zero]
    split
    · next hb =>
      split
      · next hc => exact if_neg fun hok => h ⟨hb, hc, hok⟩
      · rfl
    · rfl
  case case8 a s ha1 ha2 ha3 h =>
    refine .malformed ?_
    rw [List.cons_append, utf8Char_some ((if_neg ha1).trans ((if_neg ha2).trans (if_pos ha3)))]
    match s with
    | [] => rfl
    | [b] =>
      simp only [List.cons_append, List.nil_append, contBytes_cons, contBytes_end]
      cases isCont b <;> rfl
    | b :: c :: s => exact absurd rfl (h b c s)
  case case9 a ha1 ha2 ha3 ha4 b c d s h ih =>
    refine ih.step (w := [b, c, d]) ?_
    rw [List.cons_append, utf8Char_some
      ((if_neg ha1).trans ((if_neg ha2).trans ((if_neg ha3).trans (if_pos ha4))))]
    simp only [List.cons_append, List.nil_append, contBytes_cons, contBytes_zero, Except.bind, h,
      if_true]
  case case10 a ha1 ha2 ha3 ha4 b c d s h =>
    refine .malformed ?_
    rw [List.cons_append, utf8Char_some
      ((if_neg ha1).trans ((if_neg ha2).trans ((if_neg ha3).trans (if_pos ha4))))]
    simp only [List.cons_append, contBytes_cons, contBytes_zero]
    split
    · next hb =>
      split
      · next hc =>
        split
        · next hd => exact if_neg fun hok => h ⟨hb, hc, hd, hok⟩
        · rfl
      · rfl
    · rfl
  case case11 a s ha1 ha2 ha3 ha4 h =>
    refine .malformed ?_
    rw [List.cons_append, utf8Char_some
      ((if_neg ha1).trans ((if_neg ha2).trans ((if_neg ha3).trans (if_pos ha4))))]
    match s with
    | [] => rfl
    | [b] =>
      simp only [List.cons_append, List.nil_append, contBytes_cons, contBytes_end]
      cases isCont b <;> rfl
    | [b, c] =>
      simp only [List.cons_append, List.nil_append, contBytes_cons, contBytes_end]
      cases isCont b <;> cases isCont c <;> rfl
    | b :: c :: d :: s => exact absurd rfl (h b c d s)
  case case12 a s ha1 ha2 ha3 ha4 =>
    refine .malformed (utf8Char_none ?_)
    exact (if_neg ha1).trans ((if_neg ha2).trans ((if_neg ha3).trans (if_neg ha4)))

/-- `asper_utf8_count` computes `utf8Count`. -/
theorem asperUtf8Count_eq {s : Bytes} (h0 : 0 ∉ s) :
    asperUtf8Count (s ++ [0]) = (utf8Count s).elim (.error .reject) .ok := by
  have hrun := counts_utf8Count s h0 (s ++ [0]).length 0 (by simp)
  rw [asperUtf8Count, StateT.run'_eq, StateT.run]
  change Prod.fst <$> loopN inText utf8Step (s ++ [0]).length 0 (s ++ [0]) = _
  rw [hrun]
  cases utf8Count s with
  | none => rfl
  | some m => exact congrArg Except.ok (Nat.zero_add m)

/-- **The UTF-8 validator**: on the bytes of a C string it reads nothing past the terminator, it
accepts the encodings of the lists of Unicode scalar values and no other text, and it counts the
values. -/
theorem asperUtf8Count_spec (s : CStr) : asperUtf8Count (s.val ++ [0]) ≠ .error .overrun ∧
    ∀ n, asperUtf8Count (s.val ++ [0]) = .ok n ↔
      ∃ cs : List Char, cs.length = n ∧ cs.flatMap String.utf8EncodeChar = s.val := by
  rw [asperUtf8Count_eq s.2]
  refine ⟨?_, fun n => ?_⟩
  · cases utf8Count s.val <;> simp
  · rw [← utf8Count_iff]
    cases utf8Count s.val <;> simp

end Asper
