import Asper.Curator.Wrapper

/-! # The wrapper scanner reads its grammar

`wrapperValid_iff`: on every C string the scanner stays inside the buffer and accepts exactly
`Wrapper`. -/

namespace Asper

open Durable (Bytes)
open Scanner

/-! ## Strings -/

/-- A backslash and what it announces. -/
def Escaped (t r : Bytes) : Prop :=
  (∃ e ∈ ascii "\"\\/bfnrt", t = e :: r) ∨
    ∃ w, w.length = 4 ∧ (∀ b ∈ w, isHex b = true) ∧ w ≠ ascii "0000" ∧ t = 117 :: (w ++ r)

theorem mem_escapes {e : UInt8} : e ∈ ascii "\"\\/bfnrtu" ↔ e ∈ ascii "\"\\/bfnrt" ∨ e = 117 :=
  List.mem_append (s := ascii "\"\\/bfnrt") (t := [117]) |>.trans (by simp)

/-- The four digits are looked at only where the string is long enough to have them. -/
theorem reads_unicode {t : Bytes} (h0 : 0 ∉ t) : Scanner.Reads 0 t (do
    check (4 ≤ (← distance 0))
    check ((← Scanner.ahead 4) ≠ ascii "0000")
    let _ ← take isHex 4) fun _ r =>
      ∃ w, w.length = 4 ∧ (∀ b ∈ w, isHex b = true) ∧ w ≠ ascii "0000" ∧ t = w ++ r := by
  have hread : Scanner.Reads 0 t _ _ := (reads_distance h0).bind fun n s hs hn =>
    (reads_check (b := decide (4 ≤ n))).bind fun _ s' hs' hn' =>
    (reads_ahead (n := 4) (t := s') (by
      rw [hn'.2, hn.2, ← hn.1]
      exact of_decide_eq_true hn'.1)).bind fun w s'' _ _ =>
    (reads_check (b := decide (w ≠ ascii "0000"))).bind fun _ s3 _ _ =>
    (reads_take (f := isHex) rfl 4).bind fun _ s4 _ _ => reads_pure ()
  refine hread.congr fun _ r => ?_
  constructor
  · rintro ⟨n, s, ⟨rfl, rfl⟩, _, _, ⟨h4, rfl⟩, _, _, ⟨rfl, rfl⟩, _, _, ⟨hw, rfl⟩, w, _,
      ⟨hl, hx, rfl⟩, -, rfl⟩
    refine ⟨w, hl, hx, ?_, rfl⟩
    rintro rfl
    exact of_decide_eq_true hw rfl
  · rintro ⟨w, hl, hx, hw, rfl⟩
    have hlen : 4 ≤ (w ++ r).length := by
      rw [List.length_append, hl]
      omega
    have htake : (w ++ r).take 4 = w := by
      rw [← hl, List.take_left]
    exact ⟨_, _, ⟨rfl, rfl⟩, (), _, ⟨decide_eq_true hlen, rfl⟩, _, _, ⟨rfl, rfl⟩, (), _,
      ⟨decide_eq_true (by rwa [htake]), rfl⟩, w, r, ⟨hl, hx, rfl⟩, rfl, rfl⟩

theorem reads_escapeTail {t : Bytes} (h0 : 0 ∉ t) :
    Scanner.Reads 0 t escapeTail fun _ r => Escaped t r := by
  have hrest : ∀ (e : UInt8) (s : Bytes), s <:+ t → Scanner.Reads 0 s
      (if e = 117 then do
        check (4 ≤ (← distance 0))
        check ((← Scanner.ahead 4) ≠ ascii "0000")
        let _ ← take isHex 4
       else pure ()) fun _ r => if e = 117 then ∃ w, w.length = 4 ∧ (∀ b ∈ w, isHex b = true) ∧
          w ≠ ascii "0000" ∧ s = w ++ r else r = s := by
    intro e s hs
    split
    · exact reads_unicode fun h => h0 (hs.subset h)
    · exact (reads_pure ()).congr fun _ r => by simp
  have hread : Scanner.Reads 0 t escapeTail _ :=
    (reads_sat (f := fun e => (ascii "\"\\/bfnrtu").contains e) rfl).bind fun e s hs _ =>
      hrest e s hs
  refine hread.congr fun _ r => ?_
  constructor
  · rintro ⟨e, s, ⟨he, rfl⟩, h⟩
    rw [List.contains_iff_mem, mem_escapes] at he
    split at h
    · next hu =>
      obtain ⟨w, hl, hx, hw, rfl⟩ := h
      exact .inr ⟨w, hl, hx, hw, by rw [hu]⟩
    · next hu => exact .inl ⟨e, he.resolve_right hu, by rw [h]⟩
  · rintro (⟨e, he, rfl⟩ | ⟨w, hl, hx, hw, rfl⟩)
    · have hu : e ≠ 117 := fun h => absurd (h ▸ he) (by decide)
      exact ⟨e, r, ⟨List.contains_iff_mem.2 (mem_escapes.2 (.inl he)), rfl⟩, by rw [if_neg hu]⟩
    · exact ⟨117, w ++ r, ⟨rfl, rfl⟩, by rw [if_pos rfl]; exact ⟨w, hl, hx, hw, rfl⟩⟩

/-- One byte or one escape of a string. -/
def StringToken (t r : Bytes) : Prop :=
  (∃ b, 32 ≤ b ∧ b ≠ 34 ∧ b ≠ 92 ∧ t = b :: r) ∨ ∃ s, t = 92 :: s ∧ Escaped s r

theorem reads_stringStep {t : Bytes} (h0 : 0 ∉ t) (ht : inString (t.headD 0) = true) :
    Scanner.Reads 0 t stringStep fun _ r => StringToken t r := by
  obtain _ | ⟨a, t⟩ := t
  · cases ht
  have hrest : ∀ (v : UInt8) (s : Bytes), s <:+ t → Scanner.Reads 0 s (if v = 92 then escapeTail else pure ())
      fun _ r => if v = 92 then Escaped s r else r = s := by
    intro v s hs
    split
    · exact reads_escapeTail fun h => h0 (List.mem_cons_of_mem a (hs.subset h))
    · exact (reads_pure ()).congr fun _ r => by simp
  have hread : Scanner.Reads 0 (a :: t) stringStep _ := reads_next.bind fun v s _ hs =>
    (reads_check (b := decide (32 ≤ v))).bind fun _ s' hs' _ =>
    hrest v s' (by obtain ⟨-, rfl⟩ := hs; exact hs')
  refine hread.congr fun _ r => ?_
  have hquote : a ≠ 34 := (of_decide_eq_true ht).2
  constructor
  · rintro ⟨v, s, ⟨rfl, rfl⟩, _, _, ⟨h32, rfl⟩, h⟩
    split at h
    · next h92 => exact .inr ⟨_, by rw [h92], h⟩
    · next h92 => exact .inl ⟨v, of_decide_eq_true h32, hquote, h92, by rw [h]⟩
  · rintro (⟨b, h32, -, h92, hbr⟩ | ⟨s, hs, he⟩)
    · cases hbr
      exact ⟨a, t, ⟨rfl, rfl⟩, (), t, ⟨decide_eq_true h32, rfl⟩, by rw [if_neg h92]⟩
    · cases hs
      exact ⟨92, t, ⟨rfl, rfl⟩, (), t, ⟨rfl, rfl⟩, by rw [if_pos rfl]; exact he⟩

theorem StringToken.body {t r : Bytes} (h : StringToken t r) :
    ∃ w, t = w ++ r ∧ w ≠ [] ∧ ∀ s, StringBody s → StringBody (w ++ s) := by
  rcases h with ⟨b, h32, h34, h92, rfl⟩ | ⟨_, rfl, ⟨e, he, rfl⟩ | ⟨w, hl, hx, hw, rfl⟩⟩
  · exact ⟨[b], rfl, List.cons_ne_nil _ _, fun s => .raw h32 h34 h92⟩
  · exact ⟨[92, e], rfl, List.cons_ne_nil _ _, fun s => .escape he⟩
  · exact ⟨92 :: 117 :: w, rfl, List.cons_ne_nil _ _, fun s => .unicode hl hx hw⟩

/-- The loop over a string stops at the first byte that is no part of it. -/
theorem loop_string {t r : Bytes} {u v : Unit} :
    Loop 0 inString (fun _ t _ r => StringToken t r) u t v r ↔
      ∃ body, StringBody body ∧ t = body ++ r ∧ inString (r.headD 0) = false := by
  constructor
  · intro h
    induction h with
    | done hc => exact ⟨[], .nil, rfl, hc⟩
    | step _ hb _ ih =>
      obtain ⟨body, hbody, rfl, hr⟩ := ih
      obtain ⟨w, rfl, -, hw⟩ := hb.body
      exact ⟨w ++ body, hw body hbody, (List.append_assoc _ _ _).symm, hr⟩
  · rintro ⟨body, hbody, rfl, hr⟩
    induction hbody with
    | nil => exact .done hr
    | @raw b s h32 h34 h92 _ ih =>
      have hb0 : b ≠ 0 := by
        rintro rfl
        exact absurd h32 (by decide)
      exact .step (decide_eq_true ⟨hb0, h34⟩) (.inl ⟨b, h32, h34, h92, rfl⟩) ih
    | @escape e s he _ ih => exact .step rfl (.inr ⟨_, rfl, .inl ⟨e, he, rfl⟩⟩) ih
    | @unicode w s hl hx hw _ ih =>
      have htoken : StringToken (92 :: 117 :: (w ++ s) ++ r) (s ++ r) :=
        .inr ⟨117 :: (w ++ s ++ r), rfl, .inr ⟨w, hl, hx, hw, by rw [List.append_assoc]⟩⟩
      exact .step rfl htoken ih

/-! ## The property -/

theorem reads_token {t w : Bytes} {c : UInt8} (hc : isAsciiSpace c = false) (h0 : 0 ∉ c :: w) :
    Scanner.Reads 0 t (token (c :: w)) fun _ r => ∃ u, Spaces u ∧ t = u ++ ((c :: w) ++ r) := by
  have hread : Scanner.Reads 0 t (token (c :: w)) _ :=
    (reads_skipWhile (f := isAsciiSpace) rfl).bind fun _ s _ _ => reads_spell h0
  refine hread.congr fun _ r => ?_
  constructor
  · rintro ⟨_, _, ⟨u, hu, rfl, -⟩, rfl⟩
    exact ⟨u, hu, rfl⟩
  · rintro ⟨u, hu, rfl⟩
    exact ⟨(), (c :: w) ++ r, ⟨u, hu, rfl, hc⟩, rfl⟩

/-- Blanks up to the end. -/
theorem reads_end {t : Bytes} (h0 : 0 ∉ t) : Scanner.Reads 0 t (do
    skipWhile isAsciiSpace
    check ((← peek) = 0)) fun _ r => Spaces t ∧ r = [] := by
  have hread : Scanner.Reads 0 t (do
      skipWhile isAsciiSpace
      check ((← peek) = 0)) _ :=
    (reads_skipWhile (f := isAsciiSpace) rfl).bind fun _ s _ _ => reads_peek.bind fun v s' _ _ =>
      reads_check (b := decide (v = 0))
  refine hread.congr fun _ r => ?_
  constructor
  · rintro ⟨_, s, ⟨u, hu, rfl, -⟩, v, _, ⟨rfl, rfl⟩, hv, rfl⟩
    obtain rfl : r = [] := by
      cases r with
      | nil => rfl
      | cons b r =>
        have hb : b = 0 := of_decide_eq_true hv
        exact absurd (List.mem_append_right u (hb ▸ List.mem_cons_self)) h0
    exact ⟨by rwa [List.append_nil], rfl⟩
  · rintro ⟨hs, rfl⟩
    exact ⟨(), [], ⟨t, hs, (List.append_nil t).symm, rfl⟩, 0, [], ⟨rfl, rfl⟩, rfl, rfl⟩

theorem reads_wrapperScan {t : Bytes} (h0 : 0 ∉ t) :
    Scanner.Reads 0 t wrapperScan fun _ r => Wrapper t ∧ r = [] := by
  have hread : Scanner.Reads 0 t wrapperScan _ :=
    (reads_token (w := []) (c := 123) rfl (by decide)).bind fun _ s₁ h₁ _ =>
    (reads_token (w := ascii "output\"") (c := 34) rfl (by decide)).bind fun _ s₂ h₂ _ =>
    (reads_token (w := []) (c := 58) rfl (by decide)).bind fun _ s₃ h₃ _ =>
    (reads_token (w := []) (c := 34) rfl (by decide)).bind fun _ s₄ h₄ _ =>
    (reads_loop (c := inString) (I := fun _ => True) (fun _ u _ hu hc => reads_stringStep (fun h =>
        h0 (h₁.subset (h₂.subset (h₃.subset (h₄.subset (hu.subset h)))))) hc)
      (fun _ u _ r _ _ hb => ⟨trivial, by
        obtain ⟨w, rfl, hne, -⟩ := hb.body
        rw [List.length_append]
        exact Nat.lt_add_of_pos_left (List.length_pos_iff.2 hne)⟩) trivial).bind fun _ s₅ h₅ _ =>
    (reads_spell (w := ascii "\"") (by decide)).bind fun _ s₆ h₆ _ =>
    (reads_token (w := []) (c := 125) rfl (by decide)).bind fun _ s₇ h₇ _ =>
    reads_end fun h => h0 (h₁.subset (h₂.subset (h₃.subset (h₄.subset (h₅.subset (h₆.subset
      (h₇.subset h)))))))
  refine hread.congr fun _ r => ?_
  constructor
  · rintro ⟨_, _, ⟨w₀, hw₀, rfl⟩, _, _, ⟨w₁, hw₁, rfl⟩, _, _, ⟨w₂, hw₂, rfl⟩, _, _, ⟨w₃, hw₃, rfl⟩,
      _, _, hloop, _, _, rfl, _, _, ⟨w₄, hw₄, rfl⟩, hw₅, rfl⟩
    obtain ⟨body, hbody, rfl, -⟩ := loop_string.1 hloop
    refine ⟨⟨w₀, w₁, w₂, w₃, body, w₄, _, hw₀, hw₁, hw₂, hw₃, hbody, hw₄, hw₅, ?_⟩, rfl⟩
    simp only [List.append_assoc, List.cons_append, List.nil_append]
    rfl
  · rintro ⟨⟨w₀, w₁, w₂, w₃, body, w₄, w₅, hw₀, hw₁, hw₂, hw₃, hbody, hw₄, hw₅, rfl⟩, rfl⟩
    refine ⟨(), _, ⟨w₀, hw₀, ?_⟩, (), _, ⟨w₁, hw₁, rfl⟩, (), _, ⟨w₂, hw₂, rfl⟩, (), _,
      ⟨w₃, hw₃, rfl⟩, (), _, loop_string.2 ⟨body, hbody, rfl, rfl⟩, (), _, rfl, (), _,
      ⟨w₄, hw₄, rfl⟩, hw₅, rfl⟩
    simp only [List.append_assoc, List.cons_append, List.nil_append]
    rfl

theorem wrapper_reads (s : CStr) :
    ∃ b, wrapperValid (s.val ++ [0]) = some b ∧ (b = true ↔ Wrapper s.val) := by
  have h := reads_wrapperScan s.2
  have hok : wrapperScan.run' (s.val ++ [0]) = .ok () ↔ Wrapper s.val := by
    rw [h.ok_iff]
    simp
  have hsafe := fun e => h.safe (e := e)
  rw [wrapperValid]
  revert hok hsafe
  cases wrapperScan.run' (s.val ++ [0]) with
  | ok u => exact fun hok _ => ⟨true, rfl, by simpa using hok⟩
  | error e =>
    intro hok hsafe
    cases hsafe e rfl
    exact ⟨false, rfl, by simpa using hok⟩

/-- **The wrapper**: on every C string the scanner reads nothing past the terminator and accepts
the texts of the grammar, no others. -/
theorem wrapperValid_iff (s : CStr) : wrapperValid (s.val ++ [0]) ≠ none ∧
    (wrapperValid (s.val ++ [0]) = some true ↔ Wrapper s.val) := by
  obtain ⟨b, hb, hw⟩ := wrapper_reads s
  rw [hb]
  exact ⟨Option.some_ne_none b, by rw [Option.some.injEq, hw]⟩

end Asper
