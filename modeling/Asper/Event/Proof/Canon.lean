import Asper.Event.Proof.Damage

/-! # One encoding for each event

The reader accepts what the writer writes and nothing else: `frameRead_sound` inverts it, and
`frame_codec` states both directions at once. -/

namespace Asper

open Durable (Bytes)
open Decimal

theorem scanNumber_le {max n : Nat} {p r : Bytes} (h : scanNumber max p = some (n, r)) :
    n < 2 ^ 64 ∧ n ≤ max := by
  unfold scanNumber at h
  split at h
  · split at h
    · cases h
    · next hn =>
      obtain ⟨rfl, -⟩ := Prod.mk.inj (Option.some.inj h)
      simp only [not_or, not_le, not_lt] at hn
      exact ⟨hn.1, hn.2.1⟩
  · cases h

theorem scanTime_range {i : Int} {p r : Bytes} (h : scanTime p = some (i, r)) :
    -2 ^ 63 ≤ i ∧ i < 2 ^ 63 := by
  unfold scanTime at h
  split at h
  · split at h
    · cases h
    · next hi =>
      obtain ⟨rfl, -⟩ := Prod.mk.inj (Option.some.inj h)
      simp only [not_or, not_le, not_lt] at hi
      exact ⟨hi.1, hi.2.1⟩
  · cases h

/-- What a header that parses says. -/
structure FrameHead.Ok (h : FrameHead) : Prop where
  seq_pos : 0 < h.event.sequence
  seq_lt : h.event.sequence < 2 ^ 64
  at_ge : -2 ^ 63 ≤ h.event.at_
  at_lt : h.event.at_ < 2 ^ 63
  id_valid : uuidValid h.event.id = true
  object : h.objectBytes = 0 ∨ h.objectBytes = 71
  text : h.textBytes ≤ eventBytes

theorem parseHead_ok {D : Digest} {l : Bytes} {h : FrameHead} (hp : parseHead D l = some h) :
    h.Ok := by
  unfold parseHead at hp
  obtain ⟨-, hp⟩ := guard_bind hp
  obtain ⟨⟨seq, p1⟩, h1, hp⟩ := Option.bind_eq_some_iff.1 hp
  obtain ⟨hseq, hp⟩ := guard_bind hp
  obtain ⟨⟨at_, p2⟩, h2, hp⟩ := Option.bind_eq_some_iff.1 hp
  obtain ⟨⟨k, p3⟩, -, hp⟩ := Option.bind_eq_some_iff.1 hp
  obtain ⟨kind, -, hp⟩ := Option.bind_eq_some_iff.1 hp
  obtain ⟨⟨pin, p4⟩, -, hp⟩ := Option.bind_eq_some_iff.1 hp
  obtain ⟨-, hp⟩ := guard_bind hp
  obtain ⟨hid, hp⟩ := guard_bind hp
  obtain ⟨⟨obj, p5⟩, -, hp⟩ := Option.bind_eq_some_iff.1 hp
  obtain ⟨hobj, hp⟩ := guard_bind hp
  obtain ⟨⟨text, p6⟩, h6, hp⟩ := Option.bind_eq_some_iff.1 hp
  obtain ⟨-, hp⟩ := guard_bind hp
  obtain ⟨-, hp⟩ := guard_bind hp
  obtain ⟨-, hp⟩ := guard_bind hp
  obtain ⟨-, hp⟩ := guard_bind hp
  obtain rfl := Option.some.inj hp
  exact ⟨Nat.pos_of_ne_zero hseq, (scanNumber_le h1).1, (scanTime_range h2).1,
    (scanTime_range h2).2, hid, hobj, (scanNumber_le h6).2⟩

/-- **A frame that is read** is the frame of its event, and the event is one the store writes. -/
theorem frameRead_sound {D : Digest} {s rest : Bytes} {e : Event}
    (h : frameRead D s = .ok (e, rest)) : e.Ok ∧ s = frameBytes D e ++ rest := by
  unfold frameRead at h
  split at h
  · cases h
  next hd body hh =>
  obtain ⟨m, hs, -, hp⟩ := frameHead_sound hh
  have hok := parseHead_ok hp
  obtain ⟨head, rfl, -, -, hl⟩ := parseHead_sound hp
  dsimp only at h
  split at h
  · cases h
  next hobj =>
  split at h
  · cases h
  next hshape =>
  split at h
  · cases h
  next htext =>
  split at h
  · cases h
  next term rest' hdrop =>
  split at h
  · cases h
  next hgood =>
  split at h
  · next hhash =>
    obtain ⟨rfl, rfl⟩ := Prod.mk.inj (Except.ok.inj h)
    simp only [not_or, not_not, Bool.not_eq_false] at hgood
    obtain ⟨rfl, hnul, hutf⟩ := hgood
    have holen : (body.take hd.objectBytes).length = hd.objectBytes := by
      have := List.length_take_le hd.objectBytes body
      omega
    have htlen : ((body.drop hd.objectBytes).take hd.textBytes).length = hd.textBytes := by
      have := List.length_take_le hd.textBytes (body.drop hd.objectBytes)
      omega
    -- the contents are cut at the lengths of the header
    have hbody : body = body.take hd.objectBytes ++
        ((body.drop hd.objectBytes).take hd.textBytes ++ 10 :: rest') := by
      rw [← hdrop, ← List.drop_drop, List.take_append_drop, List.take_append_drop]
    constructor
    · refine ⟨⟨hok.at_ge, hok.at_lt, hok.id_valid, ?_, hnul, hutf, ?_⟩, hok.seq_pos, hok.seq_lt⟩
      · rcases hok.object with h0 | h0
        · exact .inl (List.length_eq_zero_iff.1 (holen.trans h0))
        · refine .inr ⟨holen.trans h0, ?_⟩
          by_contra hbad
          refine hshape ⟨fun he => ?_, by simpa using hbad⟩
          rw [he, h0] at holen
          cases holen
      · exact htlen.trans_le hok.text
    · rw [hs, frameBytes, headLine]
      dsimp only
      rw [holen, htlen]
      have hline : m ++ 10 :: body = (m ++ [10]) ++ body := by simp
      rw [hline, hl, hhash]
      generalize body.take hd.objectBytes = obj at *
      generalize (body.drop hd.objectBytes).take hd.textBytes = text at *
      rw [hbody]
      simp [headText]
  · cases h

/-- **The frame codec.** A stream is read as an event before `rest` exactly if it is what the writer
writes of the event, followed by `rest`. -/
theorem frame_codec (D : Digest) (s rest : Bytes) (e : Event) :
    frameRead D s = .ok (e, rest) ↔ e.Ok ∧ ∃ w, frameWrite D e = .ok w ∧ s = w ++ rest := by
  constructor
  · intro h
    obtain ⟨he, hs⟩ := frameRead_sound h
    exact ⟨he, _, frameWrite_ok D he, hs⟩
  · rintro ⟨he, w, hw, rfl⟩
    rw [frameWrite_ok D he] at hw
    rw [← Except.ok.inj hw]
    exact frameRead_frameBytes D he rest

end Asper
