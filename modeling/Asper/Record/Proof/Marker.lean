import Asper.Record.Marker
import Asper.Record.Proof.Transaction

/-! # A marker is read back exactly

* `relativeValid_iff`: the names that a marker may list.
* `compactParse_iff`: a text is accepted when it is the marker of proper rows, and of no others.
* `markerParse_eq`: `parse` reads only its buffer and gives what `compactParse` does.
* `marker_exact`: the two together, and that recovery reads every marker that is written. -/

namespace Asper

open Durable

/-! ## Names -/

theorem slugValid_bytes {slug : Bytes} (h : slugValid slug = true) :
    slug ≠ [] ∧ slug.length ≤ 64 ∧ ∀ b ∈ slug, 45 ≤ b ∧ b < 128 := by
  cases slug with
  | nil => cases h
  | cons a s =>
    simp only [slugValid, isLowerOrDigit, Bool.decide_and, Bool.decide_or, Bool.and_eq_true,
      Bool.or_eq_true, decide_eq_true_eq, List.all_eq_true] at h
    obtain ⟨ha, hlen, hs⟩ := h
    refine ⟨List.cons_ne_nil a s, by simp; omega, fun b hb => ?_⟩
    rcases List.mem_cons.1 hb with rfl | hb
    · simp only [UInt8.le_iff_toNat_le, UInt8.lt_iff_toNat_lt, UInt8.reduceToNat] at ha ⊢
      omega
    · have hb := hs b hb
      simp only [UInt8.le_iff_toNat_le, UInt8.lt_iff_toNat_lt, UInt8.reduceToNat,
        ← UInt8.toNat_inj] at hb ⊢
      omega

/-- The files that a marker may list. -/
inductive StoreFile : Bytes → Prop
  | identity : StoreFile (ascii "identity.xcdn")
  | context : StoreFile (ascii "context.xcdn")
  | journal : StoreFile (ascii "journal.xcdn")
  | project {slug : Bytes} (h : slugValid slug = true) :
    StoreFile (ascii "projects/" ++ (slug ++ ascii ".xcdn"))

theorem relativeValid_iff {rel : Bytes} : relativeValid rel = true ↔ StoreFile rel := by
  constructor
  · intro h
    rcases of_decide_eq_true h with rfl | rfl | rfl | ⟨hhead, hlen, htail, hslug⟩
    · exact .identity
    · exact .context
    · exact .journal
    · have hrest : rel.drop 9 = (rel.drop 9).take (rel.length - 14) ++ ascii ".xcdn" := by
        have hdrop : (rel.drop 9).drop (rel.length - 14) = ascii ".xcdn" := by
          rw [List.drop_drop, ← htail]
          exact congrArg (rel.drop ·) (by omega)
        rw [← hdrop, List.take_append_drop]
      have hrel : rel = ascii "projects/" ++ rel.drop 9 := by
        rw [← hhead, List.take_append_drop]
      rw [hrel, hrest]
      exact .project hslug
  · intro h
    cases h with
    | identity => decide
    | context => decide
    | journal => decide
    | @project slug h =>
      have hlen : (ascii "projects/" ++ (slug ++ ascii ".xcdn")).length = slug.length + 14 := by
        simp only [List.length_append]
        show 9 + (slug.length + 5) = _
        omega
      have hne := (slugValid_bytes h).1
      refine decide_eq_true (.inr (.inr (.inr ⟨rfl, ?_, ?_, ?_⟩)))
      · rw [hlen]
        have := List.length_pos_iff.2 hne
        omega
      · rw [hlen, ← List.append_assoc]
        exact List.drop_left' (by simp [ascii])
      · rw [hlen, List.drop_left' (by rfl), Nat.add_sub_cancel, List.take_left]
        exact h

/-- The names are short and of plain bytes. -/
theorem StoreFile.bytes {rel : Bytes} (h : StoreFile rel) :
    rel ≠ [] ∧ rel.length ≤ 78 ∧ ∀ b ∈ rel, 45 ≤ b ∧ b < 128 := by
  cases h with
  | identity => decide
  | context => decide
  | journal => decide
  | @project slug h =>
    obtain ⟨-, hlen, hslug⟩ := slugValid_bytes h
    refine ⟨by simp [ascii], ?_, fun b hb => ?_⟩
    · simp only [List.length_append]
      show 9 + (slug.length + 5) ≤ _
      omega
    · have h1 : ∀ b ∈ ascii "projects/", 45 ≤ b ∧ b < 128 := by decide
      have h2 : ∀ b ∈ ascii ".xcdn", 45 ≤ b ∧ b < 128 := by decide
      rcases List.mem_append.1 hb with hb | hb
      · exact h1 b hb
      · exact (List.mem_append.1 hb).elim (hslug b) (h2 b)

/-! ## Rows -/

/-- A row that a marker can hold. -/
structure CompactRow.Ok (row : CompactRow) : Prop where
  valid : relativeValid row.rel = true
  digest : row.existed = true → row.hash.length = 64 ∧ ∀ b ∈ row.hash, isLowerHex b = true
  missing : row.existed = false → row.hash = []

section
variable {row : CompactRow} {text : Bytes}

theorem CompactRow.text_existed (h : row.existed = true) :
    row.text = 69 :: 32 :: (row.hash ++ 32 :: row.rel) := by
  rw [CompactRow.text, if_pos h]
  simp [ascii]

theorem CompactRow.text_missing (h : row.existed = false) :
    row.text = 77 :: 32 :: 45 :: 32 :: row.rel := by
  rw [CompactRow.text, if_neg (by simp [h])]
  simp [ascii]

theorem CompactRow.Ok.plain (h : row.Ok) : Plain row.text := by
  have hrel : Plain row.rel := fun b hb => by
    obtain ⟨hle, hlt⟩ := (relativeValid_iff.1 h.valid).bytes.2.2 b hb
    exact ⟨UInt8.le_trans (show (32 : UInt8) ≤ 45 by decide) hle, hlt⟩
  cases he : row.existed with
  | false =>
    rw [CompactRow.text_missing he]
    exact .cons (by decide) (.cons (by decide) (.cons (by decide) (.cons (by decide) hrel)))
  | true =>
    rw [CompactRow.text_existed he]
    have hhash : Plain row.hash := fun b hb => by
      have hx := (h.digest he).2 b hb
      simp only [isLowerHex, decide_eq_true_eq, UInt8.le_iff_toNat_le, UInt8.lt_iff_toNat_lt,
        UInt8.reduceToNat] at hx ⊢
      omega
    exact .cons (by decide) (.cons (by decide) (hhash.append (.cons (by decide) hrel)))

theorem CompactRow.Ok.length_le (h : row.Ok) : row.text.length ≤ 145 := by
  have hrel := (relativeValid_iff.1 h.valid).bytes.2.1
  cases he : row.existed with
  | false =>
    rw [CompactRow.text_missing he]
    simp only [List.length_cons]
    omega
  | true =>
    rw [CompactRow.text_existed he]
    have hhash := (h.digest he).1
    simp only [List.length_cons, List.length_append]
    omega

/-- The columns of a row with a digest. -/
theorem digest_columns (hhead : text.head? = some 69) (h1 : text[1]? = some 32)
    (h66 : text[66]? = some 32) :
    text = 69 :: 32 :: ((text.drop 2).take 64 ++ 32 :: text.drop 67) := by
  cases text with
  | nil => cases hhead
  | cons a t =>
    cases t with
    | nil => cases h1
    | cons b s =>
      obtain rfl : a = 69 := Option.some.inj hhead
      obtain rfl : b = 32 := Option.some.inj h1
      have hcell : s[64]? = some 32 := h66
      obtain ⟨hlt, hget⟩ := List.getElem?_eq_some_iff.1 hcell
      have hdrop : s.drop 64 = 32 :: s.drop 65 := by
        rw [List.drop_eq_getElem_cons hlt, hget]
      show _ = 69 :: 32 :: (s.take 64 ++ 32 :: s.drop 65)
      rw [← hdrop, List.take_append_drop]

/-- **A row is read as it is written**, and no other text is read. -/
theorem compactRow_iff : compactRow text = some row ↔ row.Ok ∧ text = row.text := by
  constructor
  · intro h
    unfold compactRow at h
    split_ifs at h with h1 h2 h3
    · obtain ⟨hhead, hlen, h1, h66⟩ := h1
      obtain rfl := Option.some.inj h
      have hhash : ((text.drop 2).take 64).length = 64 := by
        rw [List.length_take, List.length_drop]
        omega
      refine ⟨⟨h2.2, fun _ => ⟨hhash, List.all_eq_true.1 h2.1⟩, nofun⟩, ?_⟩
      rw [CompactRow.text_existed rfl]
      exact digest_columns hhead h1 h66
    · obtain rfl := Option.some.inj h
      refine ⟨⟨h3.2, nofun, fun _ => rfl⟩, ?_⟩
      rw [CompactRow.text_missing rfl]
      exact (List.take_append_drop 4 text).symm.trans (by rw [h3.1]; rfl)
  · rintro ⟨hrow, rfl⟩
    obtain ⟨rel, hash, existed⟩ := row
    cases existed with
    | false =>
      obtain rfl : hash = [] := hrow.missing rfl
      rw [CompactRow.text_missing rfl, compactRow, if_neg (by simp),
        if_pos ⟨rfl, hrow.valid⟩]
      rfl
    | true =>
      obtain ⟨hlen, hhex⟩ := hrow.digest rfl
      have hrel := List.length_pos_iff.2 (relativeValid_iff.1 hrow.valid).bytes.1
      dsimp only at hlen hhex hrel
      have hdrop : (69 :: 32 :: (hash ++ 32 :: rel)).drop 67 = rel := by
        show (hash ++ 32 :: rel).drop 65 = rel
        rw [List.drop_append, List.drop_eq_nil_of_le (by omega), hlen]
        rfl
      have htake : ((69 :: 32 :: (hash ++ 32 :: rel)).drop 2).take 64 = hash :=
        List.take_left' hlen
      have h66 : (69 :: 32 :: (hash ++ 32 :: rel))[66]? = some 32 := by
        show (hash ++ 32 :: rel)[64]? = some 32
        rw [List.getElem?_append_right hlen.le, hlen]
        rfl
      rw [CompactRow.text_existed rfl, compactRow,
        if_pos ⟨rfl, by simp only [List.length_cons, List.length_append]; omega, rfl, h66⟩, hdrop,
        htake, if_pos ⟨List.all_eq_true.2 hhex, hrow.valid⟩]

end

/-- What a marker lists. -/
structure Marker (rows : List CompactRow) : Prop where
  nonempty : rows ≠ []
  fits : rows.length ≤ maxFiles
  ok : ∀ row ∈ rows, row.Ok
  distinct : (rows.map (·.rel)).Nodup

theorem compactRows_iff {texts : List Bytes} {acc rows : List CompactRow}
    (hfits : acc.length ≤ maxFiles) (hnodup : (acc.map (·.rel)).Nodup) :
    compactRows acc texts = .ok rows ↔ ∃ new : List CompactRow, rows = acc ++ new ∧
      texts = new.map CompactRow.text ∧ (∀ row ∈ new, row.Ok) ∧ rows.length ≤ maxFiles ∧
      (rows.map (·.rel)).Nodup := by
  induction texts generalizing acc with
  | nil =>
    constructor
    · intro h
      obtain rfl := Except.ok.inj h
      exact ⟨[], by simp, rfl, nofun, hfits, hnodup⟩
    · rintro ⟨new, rfl, hnil, -⟩
      rw [List.map_eq_nil_iff.1 hnil.symm, List.append_nil]
      rfl
  | cons text texts ih =>
    rw [compactRows]
    by_cases hfull : maxFiles ≤ acc.length
    · rw [if_pos hfull]
      refine ⟨nofun, ?_⟩
      rintro ⟨new, rfl, htexts, -, hle, -⟩
      have hlen := congrArg List.length htexts
      simp only [List.length_cons, List.length_map] at hlen
      rw [List.length_append] at hle
      omega
    rw [if_neg hfull]
    cases hrow : compactRow text with
    | none =>
      refine ⟨nofun, ?_⟩
      rintro ⟨new, -, htexts, hok, -⟩
      obtain ⟨row, new, rfl, ht, -⟩ := List.map_eq_cons_iff.1 htexts.symm
      rw [compactRow_iff.2 ⟨hok row (.head _), ht.symm⟩] at hrow
      cases hrow
    | some row =>
      dsimp only
      obtain ⟨hrok, rfl⟩ := compactRow_iff.1 hrow
      have hinj {r : CompactRow} (hr : r.Ok) (ht : r.text = row.text) : r = row :=
        Option.some.inj ((compactRow_iff.2 ⟨hr, ht.symm⟩).symm.trans hrow)
      by_cases hany : acc.any (·.rel = row.rel) = true
      · rw [if_pos hany]
        refine ⟨nofun, ?_⟩
        rintro ⟨new, rfl, htexts, hok, -, hnd⟩
        obtain ⟨r, new, rfl, ht, -⟩ := List.map_eq_cons_iff.1 htexts.symm
        obtain rfl := hinj (hok r (.head _)) ht
        obtain ⟨x, hx, hrel⟩ := List.any_eq_true.1 hany
        rw [List.map_append] at hnd
        exact absurd (of_decide_eq_true hrel) ((List.nodup_append.1 hnd).2.2 _
          (List.mem_map_of_mem hx) _ (List.mem_map_of_mem (.head _)))
      · rw [if_neg hany]
        have hnew : row.rel ∉ acc.map (·.rel) := fun hm => by
          obtain ⟨x, hx, hrel⟩ := List.mem_map.1 hm
          exact hany (List.any_eq_true.2 ⟨x, hx, decide_eq_true hrel⟩)
        rw [ih (by rw [List.length_append, List.length_singleton]; omega) (by
          rw [List.map_append]
          exact List.nodup_append'.2 ⟨hnodup, List.nodup_singleton _, by simpa using hnew⟩)]
        constructor
        · rintro ⟨new, hrows, rfl, hok, hle, hnd⟩
          refine ⟨row :: new, by rw [hrows]; simp, rfl, ?_, hle, hnd⟩
          exact List.forall_mem_cons.2 ⟨hrok, hok⟩
        · rintro ⟨new, hrows, htexts, hok, hle, hnd⟩
          obtain ⟨r, new, rfl, ht, rfl⟩ := List.map_eq_cons_iff.1 htexts.symm
          obtain ⟨hr, hok⟩ := List.forall_mem_cons.1 hok
          obtain rfl := hinj hr ht
          exact ⟨new, by rw [hrows]; simp, rfl, hok, hle, hnd⟩

theorem compactRows_error {texts : List Bytes} {acc : List CompactRow} {e : Err}
    (h : compactRows acc texts = .error e) : e = .parse := by
  induction texts generalizing acc with
  | nil => cases h
  | cons text texts ih =>
    rw [compactRows] at h
    split_ifs at h
    · exact (Except.error.inj h).symm
    · split at h
      · exact (Except.error.inj h).symm
      · split_ifs at h
        · exact (Except.error.inj h).symm
        · exact ih h

/-! ## Texts -/

theorem Marker.rows_plain {rows : List CompactRow} (h : Marker rows) :
    ∀ t ∈ rows.map CompactRow.text, Plain t := by
  intro t ht
  obtain ⟨row, hrow, rfl⟩ := List.mem_map.1 ht
  exact (h.ok row hrow).plain

theorem Marker.bytes {rows : List CompactRow} (h : Marker rows) :
    ∀ b ∈ markerText rows, b ≠ 0 ∧ b < 0x80 := by
  intro b hb
  obtain ⟨t, ht, hb⟩ := List.mem_flatMap.1 hb
  rcases List.mem_append.1 hb with hb | hb
  · obtain ⟨hle, hlt⟩ := h.rows_plain t ht b hb
    exact ⟨fun h0 => absurd (h0 ▸ hle) (by decide), hlt⟩
  · obtain rfl := List.mem_singleton.1 hb
    decide

theorem Marker.length_le {rows : List CompactRow} (h : Marker rows) :
    (markerText rows).length ≤ markerMax := by
  have hsum : (markerText rows).length ≤ rows.length * 146 := by
    have hok := h.ok
    clear h
    induction rows with
    | nil => simp [markerText]
    | cons row rows ih =>
      obtain ⟨hrow, hok⟩ := List.forall_mem_cons.1 hok
      have hlen := hrow.length_le
      have hrest := ih hok
      simp only [markerText, List.map_cons, joinRows_cons, List.length_append,
        List.length_cons] at hrest ⊢
      omega
  have hfits := h.fits
  unfold maxFiles at hfits
  unfold markerMax
  omega

/-- **A text is accepted when it is a marker.** -/
theorem compactParse_iff {text : Bytes} {rows : List CompactRow} :
    compactParse text = .ok rows ↔ Marker rows ∧ text = markerText rows := by
  have hrows : compactRows [] (splitRows text).1 = .ok rows ↔ _ :=
    compactRows_iff (Nat.zero_le _) List.nodup_nil
  constructor
  · intro h
    unfold compactParse at h
    split at h
    · cases h
    · next rows' hrows' =>
      split_ifs at h with hbad
      obtain rfl := Except.ok.inj h
      obtain ⟨hrest, hne⟩ := not_or.1 hbad
      obtain ⟨new, rfl, htexts, hok, hle, hnd⟩ := hrows.1 hrows'
      refine ⟨⟨hne, hle, hok, hnd⟩, ?_⟩
      have hjoin := joinRows_splitRows text
      rw [not_not.1 hrest, List.append_nil, htexts] at hjoin
      exact hjoin.symm
  · rintro ⟨h, rfl⟩
    have hsplit : splitRows (markerText rows) = (rows.map CompactRow.text, []) := by
      have hplain := h.rows_plain
      rw [← @splitRows_joinRows (rows.map CompactRow.text) []
        (fun t ht => (hplain t ht).not_mem (by decide)) List.not_mem_nil, List.append_nil]
      rfl
    rw [hsplit] at hrows
    rw [compactParse, hsplit, hrows.2 ⟨rows, rfl, rfl, h.ok, h.fits, h.distinct⟩]
    exact if_neg (not_or.2 ⟨not_not.2 rfl, h.nonempty⟩)

theorem compactParse_error {text : Bytes} {e : Err} (h : compactParse text = .error e) :
    e = .parse := by
  unfold compactParse at h
  split at h
  · next e' he =>
    obtain rfl := Except.error.inj h
    exact compactRows_error he
  · split_ifs at h
    exact (Except.error.inj h).symm

/-! ## The buffer -/

section
variable {mem t : Bytes} {p : Nat}

theorem markerExists_eq (h : Buffer.Stands 0 mem p t) : markerExists mem p =
    some (decide (t.head? = some 69 ∧ 68 ≤ t.length ∧ t[1]? = some 32 ∧ t[66]? = some 32)) := by
  have htext := h.text
  cases t with
  | nil =>
    have h0 : mem[p]? = some 0 := h.fin
    simp [markerExists, h0]
  | cons a t =>
    have h0 : mem[p]? = some a := h.cell (i := 0) (by simp)
    by_cases ha : a = 69
    · by_cases hlen : 67 ≤ t.length
      · -- long enough for every column that is read
        obtain ⟨b, hb⟩ : ∃ b, t[0]? = some b := ⟨_, List.getElem?_eq_getElem (by omega)⟩
        obtain ⟨c, hc⟩ : ∃ c, t[65]? = some c := ⟨_, List.getElem?_eq_getElem (by omega)⟩
        have h1 : mem[p + 1]? = some b := (h.cell (i := 1) (by simp; omega)).trans hb
        have h66 : mem[p + 66]? = some c := (h.cell (i := 66) (by simp; omega)).trans hc
        by_cases hb32 : b = 32
        · simp [markerExists, h0, ha, htext, hlen, h1, h66, hb, hc, hb32]
        · simp [markerExists, h0, ha, htext, hlen, h1, hb, hb32]
      · simp [markerExists, h0, ha, htext, hlen]
    · simp [markerExists, h0, ha]

theorem markerEntry_eq (h : Buffer.Stands 0 mem p t) : markerEntry mem p = some (
    if t.head? = some 69 ∧ 68 ≤ t.length ∧ t[1]? = some 32 ∧ t[66]? = some 32 then
      some (⟨p + 67, (t.drop 2).take 64, true⟩, ((t.drop 2).take 64).all isLowerHex)
    else if t.take 4 = ascii "M - " then some (⟨p + 4, [], false⟩, true)
    else none) := by
  rw [markerEntry, markerExists_eq h]
  by_cases hex : t.head? = some 69 ∧ 68 ≤ t.length ∧ t[1]? = some 32 ∧ t[66]? = some 32
  · have hcopy := (h.drop (n := 2) (by omega)).copy (n := 64) (by rw [List.length_drop]; omega)
    simp [hex, hcopy]
  · have hpre : (ascii "M - ").isPrefixOf t = decide (t.take 4 = ascii "M - ") := by
      rw [Bool.eq_iff_iff, List.isPrefixOf_iff_prefix, decide_eq_true_iff, List.prefix_iff_eq_take]
      exact eq_comm
    have hbegins := h.begins (w := ascii "M - ") (by decide)
    rw [hpre] at hbegins
    by_cases hm : t.take 4 = ascii "M - "
    · simp [hex, hbegins, hm]
    · simp [hex, hbegins, hm]

/-- The entry stands for the row: its name is in the buffer. -/
structure EntryOf (mem : Bytes) (entry : MarkerEntry) (row : CompactRow) : Prop where
  rel : Buffer.Stands 0 mem entry.rel row.rel
  hash : entry.hash = row.hash
  existed : entry.existed = row.existed

theorem EntryOf.append {entry : MarkerEntry} {row : CompactRow} (h : EntryOf mem entry row)
    (more : Bytes) : EntryOf (mem ++ more) entry row := ⟨h.rel.append more, h.hash, h.existed⟩

theorem EntryOf.read {entry : MarkerEntry} {row : CompactRow} (h : EntryOf mem entry row) :
    entry.read mem = some row := by
  simp [MarkerEntry.read, h.rel.text, h.hash, h.existed]

variable {entries : List MarkerEntry} {acc : List CompactRow} {row : CompactRow}

theorem listed_names (h : List.Forall₂ (EntryOf mem) entries acc) :
    entries.mapM (fun e => Buffer.text 0 mem e.rel) = some (acc.map (·.rel)) := by
  induction h with
  | nil => rfl
  | cons he _ ih => simp [List.mapM_cons, he.rel.text, ih]

theorem read_entries (h : List.Forall₂ (EntryOf mem) entries acc) :
    entries.mapM (·.read mem) = some acc := by
  induction h with
  | nil => rfl
  | cons he _ ih =>
    have hread := he.read
    simp [List.mapM_cons, hread, ih]

theorem markerRow_of {entry : MarkerEntry} {digest : Bool} {rel : Bytes}
    (hacc : List.Forall₂ (EntryOf mem) entries acc)
    (he : markerEntry mem p = some (some (entry, digest)))
    (hrel : Buffer.Stands 0 mem entry.rel rel) : markerRow entries mem p = some (
      if digest = true ∧ relativeValid rel = true ∧ rel ∉ acc.map (·.rel) then some entry
      else none) := by
  rw [markerRow, he]
  show ((Buffer.text 0 mem entry.rel).bind fun rel => _) = _
  rw [hrel.text]
  show ((entries.mapM fun e => Buffer.text 0 mem e.rel).bind fun listed => _) = _
  rw [listed_names hacc]
  rfl

theorem take_missing_length (h : t.take 4 = ascii "M - ") : 4 ≤ t.length := by
  have hlen : (t.take 4).length = 4 := by
    rw [h]
    rfl
  rw [List.length_take] at hlen
  omega

/-- A row that may be listed gives an entry for it, wherever else its text stands. -/
theorem markerRow_some (hacc : List.Forall₂ (EntryOf mem) entries acc)
    (h : Buffer.Stands 0 mem p t) (hrow : compactRow t = some row)
    (hnew : row.rel ∉ acc.map (·.rel)) :
    ∃ entry, markerRow entries mem p = some (some entry) ∧
      ∀ {mem' : Bytes}, Buffer.Stands 0 mem' p t → EntryOf mem' entry row := by
  have he := markerEntry_eq h
  unfold compactRow at hrow
  split_ifs at hrow with h1 h2 h3
  · rw [if_pos h1] at he
    obtain rfl := Option.some.inj hrow
    have hstands {mem' : Bytes} (h : Buffer.Stands 0 mem' p t) := h.drop (n := 67) (by omega)
    refine ⟨⟨p + 67, (t.drop 2).take 64, true⟩, ?_, fun h' => ⟨hstands h', rfl, rfl⟩⟩
    rw [markerRow_of hacc he (hstands h), if_pos ⟨h2.1, h2.2, hnew⟩]
  · rw [if_neg h1, if_pos h3.1] at he
    obtain rfl := Option.some.inj hrow
    have hstands {mem' : Bytes} (h : Buffer.Stands 0 mem' p t) :=
      h.drop (take_missing_length h3.1)
    refine ⟨⟨p + 4, [], false⟩, ?_, fun h' => ⟨hstands h', rfl, rfl⟩⟩
    rw [markerRow_of hacc he (hstands h), if_pos ⟨rfl, h3.2, hnew⟩]

/-- Any other line is refused, still inside the buffer. -/
theorem markerRow_none (hacc : List.Forall₂ (EntryOf mem) entries acc)
    (h : Buffer.Stands 0 mem p t)
    (hno : ∀ row, compactRow t = some row → row.rel ∈ acc.map (·.rel)) :
    markerRow entries mem p = some none := by
  have he := markerEntry_eq h
  unfold compactRow at hno
  by_cases h1 : t.head? = some 69 ∧ 68 ≤ t.length ∧ t[1]? = some 32 ∧ t[66]? = some 32
  · rw [if_pos h1] at he
    rw [markerRow_of hacc he (h.drop (n := 67) (by omega)), if_neg]
    rintro ⟨hhex, hvalid, hnew⟩
    exact hnew (hno ⟨t.drop 67, (t.drop 2).take 64, true⟩ (by rw [if_pos h1, if_pos ⟨hhex, hvalid⟩]))
  rw [if_neg h1] at he
  by_cases hm : t.take 4 = ascii "M - "
  · rw [if_pos hm] at he
    rw [markerRow_of hacc he (h.drop (take_missing_length hm)), if_neg]
    rintro ⟨-, hvalid, hnew⟩
    exact hnew (hno ⟨t.drop 4, [], false⟩ (by rw [if_neg h1, if_pos ⟨hm, hvalid⟩]))
  · rw [if_neg hm] at he
    rw [markerRow, he]
    rfl

end

/-! ## The loop -/

/-- What `compactParse` makes of the rest of a text, the rows in `acc` read already. -/
def compactRest (acc : List CompactRow) (s : Bytes) : Except Err (List CompactRow) :=
  match compactRows acc (splitRows s).1 with
  | .error e => .error e
  | .ok rows => if (splitRows s).2 = [] then .ok rows else .error .parse

section
variable {entries : List MarkerEntry} {acc : List CompactRow} {done : Bytes}

/-- What a turn comes to at a row with its name cut off at `fin`. -/
def cutTurn (entries : List MarkerEntry) (mem : Bytes) (p fin : Nat) : Option MarkerTurn :=
  if entries.length = maxFiles then some .refused
  else (markerRow entries mem p).map fun r => r.elim .refused fun entry => .row entry mem (fin + 1)

/-- A turn that is not at the terminator looks for the newline. -/
theorem markerTurn_going {b : UInt8} {mem : Bytes} {p : Nat} (hcell : mem[p]? = some b)
    (hb : b ≠ 0) : markerTurn entries mem p = (Buffer.find 0 mem 10 p).bind fun r =>
      r.elim (some .refused) fun fin => cutTurn entries (mem.set fin 0) p fin := by
  rw [markerTurn, hcell]
  show (if b = 0 then _ else (Buffer.find 0 mem 10 p).bind _) = _
  rw [if_neg hb]
  congr 1
  funext r
  cases r with
  | none => rfl
  | some fin =>
    show (if entries.length = maxFiles then _ else (markerRow entries (mem.set fin 0) p).bind _) = _
    dsimp only [Option.elim, cutTurn]
    split
    · rfl
    · cases markerRow entries (mem.set fin 0) p with
      | none => rfl
      | some r => cases r <;> rfl

/-- The loop ends at the terminator and at a row without a newline. -/
theorem markerParseFrom_stop {fuel : Nat} {s : Bytes} (hs : 0 ∉ s) (hrow : 10 ∉ s)
    (hacc : List.Forall₂ (EntryOf done) entries acc) :
    markerParseFrom (fuel + 1) entries (done ++ (s ++ [0])) done.length =
      some (compactRest acc s) := by
  have hrest : compactRest acc s = if s = [] then .ok acc else .error .parse := by
    rw [compactRest, splitRows_rest hrow]
    rfl
  rw [markerParseFrom, hrest]
  cases s with
  | nil =>
    have hend : (done ++ ([] ++ [0]))[done.length]? = some (0 : UInt8) := by simp
    have hread := read_entries (hacc.imp fun _ _ he => he.append ([] ++ [0]))
    have hturn : markerTurn entries (done ++ ([] ++ [0])) done.length = some .finished := by
      rw [markerTurn, hend]
      rfl
    rw [hturn]
    show (entries.mapM fun e : MarkerEntry => e.read (done ++ ([] ++ [0]))).bind _ = _
    rw [hread]
    rfl
  | cons b s =>
    have hb : b ≠ 0 := fun h0 => hs (h0 ▸ List.mem_cons_self)
    have hcell : (done ++ (b :: s ++ [0]))[done.length]? = some b := by simp
    have hfind := Buffer.find_none (z := 0) (c := 10) done [] hs hrow (by decide)
    have hturn : markerTurn entries (done ++ (b :: s ++ [0])) done.length = some .refused := by
      rw [markerTurn_going hcell hb, hfind]
      rfl
    rw [hturn]
    rfl

/-- A turn at a whole row cuts it off. -/
theorem markerTurn_row {l s : Bytes} (hl : 0 ∉ l) (hrow : 10 ∉ l) :
    markerTurn entries (done ++ (l ++ 10 :: s)) done.length =
      cutTurn entries (done ++ (l ++ 0 :: s)) done.length (done.length + l.length) := by
  obtain ⟨b, hcell, hb⟩ : ∃ b : UInt8, (done ++ (l ++ 10 :: s))[done.length]? = some b ∧ b ≠ 0 := by
    cases l with
    | nil => exact ⟨10, by simp, by decide⟩
    | cons b l => exact ⟨b, by simp, fun h0 => hl (h0 ▸ List.mem_cons_self)⟩
  rw [markerTurn_going hcell hb, Buffer.find_some done s hl hrow]
  exact congrArg (cutTurn entries · _ _) (Buffer.set_cut done l s)

theorem compactRest_row {l s : Bytes} (hrow : 10 ∉ l) (hfits : acc.length < maxFiles) :
    compactRest acc (l ++ 10 :: s) = (compactRow l).elim (.error .parse) fun row =>
      if acc.any (·.rel = row.rel) then .error .parse else compactRest (acc ++ [row]) s := by
  rw [compactRest, splitRows_row s hrow]
  dsimp only
  rw [compactRows, if_neg (Nat.not_le.2 hfits)]
  cases compactRow l with
  | none => rfl
  | some row =>
    by_cases hany : acc.any (·.rel = row.rel) = true
    · simp only [if_pos hany, Option.elim]
    · simp only [if_neg hany, Option.elim]
      rfl

theorem compactRest_full {l s : Bytes} (hrow : 10 ∉ l) (hfull : acc.length = maxFiles) :
    compactRest acc (l ++ 10 :: s) = .error .parse := by
  rw [compactRest, splitRows_row s hrow]
  dsimp only
  rw [compactRows, if_pos hfull.ge]

/-- **The loop stays in the buffer**, with `done` behind it: each turn cuts off one row. -/
theorem markerParseFrom_eq {fuel : Nat} {s : Bytes} (hs : 0 ∉ s)
    (hacc : List.Forall₂ (EntryOf done) entries acc) (hfits : acc.length ≤ maxFiles)
    (hfuel : acc.length + fuel = maxFiles + 1) :
    markerParseFrom fuel entries (done ++ (s ++ [0])) done.length = some (compactRest acc s) := by
  induction fuel generalizing entries acc done s with
  | zero => omega
  | succ fuel ih =>
    by_cases hrow : 10 ∈ s
    · obtain ⟨l, s, rfl, hl⟩ := List.eq_append_cons_of_mem hrow
      obtain ⟨hl0, hs⟩ := not_or.1 fun h => hs (List.mem_append.2 h)
      replace hs : 0 ∉ s := fun h => hs (List.mem_cons_of_mem _ h)
      have hturn : markerTurn entries (done ++ (l ++ 10 :: (s ++ [0]))) done.length = _ :=
        markerTurn_row hl0 hl
      have hstands := Buffer.stands_at done (s ++ [0]) hl0
      have hmem := hacc.imp fun _ _ he => he.append (l ++ 0 :: (s ++ [0]))
      rw [List.append_assoc l, List.cons_append, markerParseFrom, hturn, cutTurn, hacc.length_eq]
      by_cases hfull : acc.length = maxFiles
      · rw [if_pos hfull, compactRest_full hl hfull]
        rfl
      rw [if_neg hfull, compactRest_row hl (by omega)]
      by_cases hnew : ∃ row, compactRow l = some row ∧ row.rel ∉ acc.map (·.rel)
      · obtain ⟨row, hrow, hnew⟩ := hnew
        obtain ⟨entry, hentry, hof⟩ := markerRow_some hmem hstands hrow hnew
        have hany : ¬ acc.any (·.rel = row.rel) = true := fun h => by
          obtain ⟨x, hx, hrel⟩ := List.any_eq_true.1 h
          exact hnew (List.mem_map.2 ⟨x, hx, of_decide_eq_true hrel⟩)
        have hcut : (done ++ (l ++ [0])).length = done.length + l.length + 1 := by simp; omega
        have hnext := @ih (entries ++ [entry]) (acc ++ [row]) (done ++ (l ++ [0])) s hs
          (List.rel_append (hacc.imp fun _ _ he => he.append _)
            (.cons (hof (Buffer.stands_at done [] hl0)) .nil))
          (by simp; omega) (by simp; omega)
        rw [hentry, hrow]
        dsimp only [Option.elim]
        rw [if_neg hany, ← hnext, hcut, List.append_assoc, List.append_assoc]
        rfl
      · have hno : ∀ row, compactRow l = some row → row.rel ∈ acc.map (·.rel) := fun row hr =>
          by_contra fun hm => hnew ⟨row, hr, hm⟩
        rw [markerRow_none hmem hstands hno]
        cases hrow : compactRow l with
        | none => rfl
        | some row =>
          obtain ⟨x, hx, hrel⟩ := List.mem_map.1 (hno row hrow)
          dsimp only [Option.elim]
          rw [if_pos (List.any_eq_true.2 ⟨x, hx, decide_eq_true hrel⟩)]
          rfl
    · exact markerParseFrom_stop hs hrow hacc

end

/-- **`parse` stays in its buffer** and gives what `compactParse` gives. -/
theorem markerParse_eq (text : CStr) :
    markerParse (text.val ++ [0]) = some (compactParse text.val) := by
  have hloop : markerParseFrom (maxFiles + 1) [] (text.val ++ [0]) 0 =
      some (compactRest [] text.val) :=
    @markerParseFrom_eq [] [] [] _ text.val text.2 .nil (Nat.zero_le _) (Nat.zero_add _)
  rw [markerParse, hloop, compactParse, compactRest]
  cases hrows : compactRows [] (splitRows text.val).1 with
  | error e => rfl
  | ok rows =>
    dsimp only
    by_cases hrest : (splitRows text.val).2 = []
    · rw [if_pos hrest]
      by_cases hnil : rows = []
      · rw [if_pos (.inr hnil)]
        exact congrArg some (if_pos hnil)
      · rw [if_neg (not_or.2 ⟨not_not.2 hrest, hnil⟩)]
        exact congrArg some (if_neg hnil)
    · rw [if_neg hrest, if_pos (.inl hrest)]
      rfl

/-! ## The marker -/

/-- The event that a checked file with the text is written as. -/
def markerEvent (id : Uuid) (rows : List CompactRow) : Event :=
  ⟨1, 0, .diagnostic, false, id.val, [], markerText rows⟩

theorem Marker.event_ok {rows : List CompactRow} (h : Marker rows) (id : Uuid) :
    (markerEvent id rows).Ok where
  at_ge := show (-2 : Int) ^ 63 ≤ 0 by decide
  at_lt := show (0 : Int) < 2 ^ 63 by decide
  id_valid := id.valid
  object := .inl rfl
  no_nul := fun hm => (h.bytes 0 hm).1 rfl
  utf8 := utf8Valid_ascii fun b hb => (h.bytes b hb).2
  size := h.length_le.trans (by decide)
  seq_pos := show 0 < 1 by decide
  seq_lt := show 1 < 2 ^ 64 by decide

/-- **Markers are exact.** Recovery reads back the text of every marker that is written and takes
from it the rows it was written for; whatever else the text is, `parse` refuses it whole, and on no
text does it read past the terminator. -/
theorem marker_exact (D : Digest) (id : Uuid) :
    (∀ rows, Marker rows → (markerText rows).length ≤ markerMax ∧
      checkedText D markerMax (frameBytes D (markerEvent id rows)) = .ok (markerText rows) ∧
      markerParse (markerText rows ++ [0]) = some (.ok rows)) ∧
    ∀ text : CStr,
      (∃ rows, Marker rows ∧ text.val = markerText rows ∧
        markerParse (text.val ++ [0]) = some (.ok rows)) ∨
      (∀ rows, Marker rows → text.val ≠ markerText rows) ∧
        markerParse (text.val ++ [0]) = some (.error .parse) := by
  constructor
  · intro rows h
    have hparse := markerParse_eq ⟨markerText rows, fun hm => (h.bytes 0 hm).1 rfl⟩
    refine ⟨h.length_le, checkedText_frameBytes (h.event_ok id) h.length_le, hparse.trans ?_⟩
    exact congrArg some (compactParse_iff.2 ⟨h, rfl⟩)
  · intro text
    rw [markerParse_eq]
    cases hparse : compactParse text.val with
    | ok rows =>
      obtain ⟨h, htext⟩ := compactParse_iff.1 hparse
      exact .inl ⟨rows, h, htext, rfl⟩
    | error e =>
      obtain rfl := compactParse_error hparse
      refine .inr ⟨fun rows h htext => ?_, rfl⟩
      rw [compactParse_iff.2 ⟨h, htext⟩] at hparse
      cases hparse

theorem pairRows_marker : Marker pairRows where
  nonempty := by decide
  fits := by decide
  ok := by
    intro row hrow
    refine ⟨?_, ?_, ?_⟩ <;> revert row <;> decide +kernel
  distinct := by decide

theorem marker_exact_pair :
    markerParse (markerText pairRows ++ [0]) = some (.ok pairRows) :=
  ((marker_exact padDigest (uuidV4 fun _ => 0)).1 pairRows pairRows_marker).2.2

end Asper
