import Asper.Curator.Grammar
import Mathlib.Data.List.DropRight

/-! # The parser takes lines for what they say

`Cop.row` is the line that says an operation and `Cop.trimmed` what the parser makes of it: the same
with the blanks around the text cut off. `parseLine_row` is the round trip for one line,
`asperProtocolParse_rows` for an answer. -/

namespace Asper

open Durable
open Decimal (dec isDigit digit dec_digits dec_ne_nil dec_cons)

/-! ## Trimming -/

theorem rdropWhile_append {α : Type} (p : α → Bool) (a b : List α) :
    (a ++ b).rdropWhile p =
      if b.rdropWhile p = [] then a.rdropWhile p else a ++ b.rdropWhile p := by
  unfold List.rdropWhile
  rw [List.reverse_append, List.dropWhile_append]
  by_cases h : b.reverse.dropWhile p = []
  · simp [h]
  · simp [h]

theorem strTrim_eq (s : Bytes) :
    strTrim s = (s.rdropWhile isAsciiSpace).dropWhile isAsciiSpace := rfl

/-- A text without blanks at its ends. -/
def Trimmed (s : Bytes) : Prop :=
  (∀ b ∈ s.head?, isAsciiSpace b = false) ∧ ∀ b ∈ s.getLast?, isAsciiSpace b = false

theorem Trimmed.rdropWhile {s : Bytes} (h : Trimmed s) : s.rdropWhile isAsciiSpace = s := by
  rw [List.rdropWhile_eq_self_iff]
  intro hne
  rw [h.2 _ (List.getLast?_eq_some_getLast hne)]
  decide

theorem Trimmed.dropWhile {s : Bytes} (h : Trimmed s) : s.dropWhile isAsciiSpace = s := by
  cases s with
  | nil => rfl
  | cons b s => rw [List.dropWhile_cons_of_neg (by rw [h.1 b rfl]; decide)]

theorem Trimmed.strTrim {s : Bytes} (h : Trimmed s) : strTrim s = s := by
  rw [strTrim_eq, h.rdropWhile, h.dropWhile]

theorem strTrim_trimmed (s : Bytes) : Trimmed (strTrim s) := by
  rw [strTrim_eq]
  constructor
  · intro b hb
    have := List.head?_dropWhile_not isAsciiSpace (s.rdropWhile isAsciiSpace)
    rw [Option.mem_def.1 hb] at this
    simpa using this
  · intro b hb
    have hs := List.dropWhile_suffix (l := s.rdropWhile isAsciiSpace) isAsciiSpace
    have hne : (s.rdropWhile isAsciiSpace).dropWhile isAsciiSpace ≠ [] := by
      rintro h
      rw [h] at hb
      cases hb
    obtain ⟨a, ha⟩ := hs
    have hlast : b ∈ (s.rdropWhile isAsciiSpace).getLast? := by
      rw [← ha, List.getLast?_append_of_ne_nil _ hne]
      exact hb
    have hne' : s.rdropWhile isAsciiSpace ≠ [] := by
      rintro h
      rw [h] at hlast
      cases hlast
    have := List.rdropWhile_last_not isAsciiSpace s hne'
    rw [List.getLast?_eq_some_getLast hne'] at hlast
    cases hlast
    simpa using this

theorem mem_strTrim {s : Bytes} {b : UInt8} (h : b ∈ strTrim s) : b ∈ s :=
  (List.rdropWhile_prefix isAsciiSpace s).subset ((List.dropWhile_suffix _).subset h)

/-- What trimming leaves of a blank and the text after it. -/
def trimmedTail (text : Bytes) : Bytes :=
  if text.rdropWhile isAsciiSpace = [] then [] else 32 :: text.rdropWhile isAsciiSpace

theorem strTrim_append {w : Bytes} (h : Trimmed w) (hne : w ≠ []) (text : Bytes) :
    strTrim (w ++ 32 :: text) = w ++ trimmedTail text := by
  have htail : (32 :: text).rdropWhile isAsciiSpace = trimmedTail text := by
    rw [← List.singleton_append, rdropWhile_append, trimmedTail]
    rfl
  have hdrop : ∀ u, (w ++ u).dropWhile isAsciiSpace = w ++ u := by
    intro u
    cases w with
    | nil => exact absurd rfl hne
    | cons b w => rw [List.cons_append, List.dropWhile_cons_of_neg (by rw [h.1 b rfl]; decide)]
  rw [strTrim_eq, rdropWhile_append, htail, h.rdropWhile]
  split
  · next he => rw [he, List.append_nil, h.dropWhile]
  · exact hdrop _

theorem strTrim_trimmedTail (text : Bytes) : strTrim (trimmedTail text) = strTrim text := by
  unfold trimmedTail
  split
  · next h =>
    rw [strTrim_eq text, h]
    rfl
  · next h =>
    have hr : (text.rdropWhile isAsciiSpace).rdropWhile isAsciiSpace =
        text.rdropWhile isAsciiSpace := List.rdropWhile_idempotent isAsciiSpace text
    rw [strTrim_eq, ← List.singleton_append, rdropWhile_append, hr, if_neg h, strTrim_eq]
    rfl

/-! ## The parts of a line -/

theorem wordPrefix_append {w s : Bytes} {b : UInt8} (hb : isBlank b = false) :
    wordPrefix (w ++ 32 :: b :: s) w = some (b :: s) := by
  have h32 : isBlank 32 = true := by decide
  rw [wordPrefix, List.take_left, if_pos rfl, List.drop_left]
  dsimp only
  rw [if_pos h32, List.dropWhile_cons_of_pos h32,
    List.dropWhile_cons_of_neg (by rw [hb]; decide)]

theorem strstr_bar {w : Bytes} (h : 124 ∉ w) (v : Bytes) :
    strstr (ascii " | ") (w ++ (ascii " | " ++ v)) = some w.length := by
  induction w with
  | nil => rfl
  | cons b w ih =>
    have hne : (ascii " | ").isPrefixOf (b :: (w ++ (ascii " | " ++ v))) = false := by
      cases w with
      | nil => simp [ascii, List.isPrefixOf]
      | cons c w =>
        have hc : c ≠ 124 := fun he => h (he ▸ .tail _ (.head _))
        simp [ascii, List.isPrefixOf, hc.symm]
    rw [List.cons_append, strstr, hne, if_neg (by decide), ih fun hm => h (.tail _ hm)]
    rfl

theorem strstr_none {w : Bytes} (h : 124 ∉ w) : strstr (ascii " | ") (w ++ ascii " |") = none := by
  induction w with
  | nil => rfl
  | cons b w ih =>
    have hne : (ascii " | ").isPrefixOf (b :: (w ++ ascii " |")) = false := by
      cases w with
      | nil => simp [ascii, List.isPrefixOf]
      | cons c w =>
        have hc : c ≠ 124 := fun he => h (he ▸ .tail _ (.head _))
        simp [ascii, List.isPrefixOf, hc.symm]
    rw [List.cons_append, strstr, hne, if_neg (by decide), ih fun hm => h (.tail _ hm)]
    rfl

/-- **The separator is found** when no other bar stands in the line. -/
theorem findSep_tail {w text : Bytes} (hw : 124 ∉ w) (ht : 124 ∉ text) :
    findSep (w ++ (ascii " |" ++ trimmedTail text)) = some w.length := by
  by_cases h : text.rdropWhile isAsciiSpace = []
  · rw [trimmedTail, if_pos h, List.append_nil, findSep, strstr_none hw]
    have hlen : (w ++ ascii " |").length = w.length + 2 := List.length_append
    dsimp only
    rw [hlen, Nat.add_sub_cancel, List.drop_left, if_pos ⟨by omega, rfl⟩]
  · rw [trimmedTail, if_neg h, findSep]
    have hs := strstr_bar hw (text.rdropWhile isAsciiSpace)
    have he : w ++ (ascii " |" ++ 32 :: text.rdropWhile isAsciiSpace) =
        w ++ (ascii " | " ++ text.rdropWhile isAsciiSpace) := rfl
    rw [he, hs, if_neg]
    rintro ⟨-, hd⟩
    -- the last byte of the text is no bar
    have hlast : 124 ∈ (w ++ (ascii " | " ++ text.rdropWhile isAsciiSpace)).getLast? := by
      rw [← List.take_append_drop ((w ++ (ascii " | " ++ text.rdropWhile isAsciiSpace)).length - 2)
        (w ++ (ascii " | " ++ text.rdropWhile isAsciiSpace)), hd]
      simp [ascii]
    rw [List.getLast?_append_of_ne_nil _ (by simp [h]), List.getLast?_append_of_ne_nil _ h] at hlast
    exact ht ((List.rdropWhile_prefix _ _).subset (List.mem_of_getLast? hlast))

theorem handleDigits_digits {ds : Bytes} (hd : ∀ b ∈ ds, isDigit b = true) (v : Nat)
    (h : ds.foldl (fun a b => 10 * a + (b.toNat - 48)) v ≤ 1000000) :
    handleDigits v ds = some (ds.foldl (fun a b => 10 * a + (b.toNat - 48)) v, []) := by
  induction ds generalizing v with
  | nil => rfl
  | cons b ds ih =>
    have hmono : ∀ (xs : Bytes) (a : Nat), a ≤ xs.foldl (fun a b => 10 * a + (b.toNat - 48)) a := by
      intro xs
      induction xs with
      | nil => exact fun a => le_rfl
      | cons x xs ih => exact fun a => le_trans (show a ≤ 10 * a + (x.toNat - 48) by omega) (ih _)
    rw [List.foldl_cons] at h
    have hv := (hmono ds _).trans h
    rw [handleDigits, if_pos (hd b (.head _)), if_neg (by omega), mul_comm v,
      ih (fun c hc => hd c (.tail _ hc)) _ h]
    rfl

/-- **A handle is read back.** -/
theorem parseHandle_dec {n h : Nat} (h1 : 1 ≤ h) (hn : h ≤ n) (hm : h ≤ 1000000) :
    parseHandle (ascii "M" ++ dec h) n = some h := by
  obtain ⟨b, s, hb, hdig⟩ := dec_cons h
  have hnum := Decimal.number_dec h
  have hd := handleDigits_digits (dec_digits h) 0 (by
    rw [Decimal.number] at hnum
    rw [hnum]
    exact hm)
  rw [Decimal.number] at hnum
  rw [hnum, hb] at hd
  rw [hb]
  show parseHandle (77 :: b :: s) n = some h
  rw [parseHandle, if_pos hdig, hd]
  dsimp only
  rw [if_neg (by omega)]

theorem dec_not_blank (h : Nat) :
    ∀ b ∈ ascii "M" ++ dec h, isBlank b = false ∧ isAsciiSpace b = false := by
  intro b hb
  rcases List.mem_append.1 hb with hb | hb
  · rw [List.mem_singleton.1 (show b ∈ [(77 : UInt8)] from hb)]
    decide
  · have := dec_digits h b hb
    have hd : 48 ≤ b.toNat ∧ b.toNat ≤ 57 := by simpa [isDigit] using this
    constructor
    · simp only [isBlank, decide_eq_false_iff_not]
      rintro (rfl | rfl) <;> revert hd <;> decide
    · simp only [isAsciiSpace, decide_eq_false_iff_not]
      rintro (rfl | rfl | rfl | rfl | rfl | rfl) <;> revert hd <;> decide

theorem parseHandleToken_dec {n h : Nat} (h1 : 1 ≤ h) (hn : h ≤ n) (hm : h ≤ 1000000) :
    parseHandleToken (ascii "M" ++ dec h) n = some h := by
  have ht : (ascii "M" ++ dec h).takeWhile (fun b => !isBlank b) = ascii "M" ++ dec h := by
    rw [List.takeWhile_eq_self_iff]
    intro b hb
    rw [(dec_not_blank h b hb).1]
    rfl
  rw [parseHandleToken, ht, parseHandle_dec h1 hn hm]

/-! ## Lines -/

/-- A text that a line can hold. -/
def Writable (t : CStr) : Prop := t.val ≠ [] ∧ ∀ b ∈ t.val, b ∉ ([124, 10, 13] : Bytes)

namespace Cop

/-- The line that says this, without its newline. -/
def row : Cop → Bytes
  | .noop => ascii "NOOP"
  | .nomem => ascii "NOMEM"
  | .insert s t => ascii "INSERT " ++ (sectionName s ++ (ascii " | " ++ t.val))
  | .update h t => ascii "UPDATE " ++ ((ascii "M" ++ dec h) ++ (ascii " | " ++ t.val))
  | .setDeprecated h t => ascii "DEPRECATE " ++ ((ascii "M" ++ dec h) ++ (ascii " | " ++ t.val))
  | .keep h => ascii "KEEP " ++ (ascii "M" ++ dec h)
  | .cite h => ascii "CITE " ++ (ascii "M" ++ dec h)
  | .answer t => ascii "ANSWER | " ++ t.val

/-- The operation with the blanks around its text cut off. -/
def trimmed : Cop → Cop
  | .insert s t => .insert s (cstr (strTrim t.val))
  | .update h t => .update h (cstr (strTrim t.val))
  | .setDeprecated h t => .setDeprecated h (cstr (strTrim t.val))
  | .answer t => .answer (cstr (strTrim t.val))
  | op => op

/-- Its text is one that a line can hold. -/
def Plain : Cop → Prop
  | .insert _ t | .update _ t | .setDeprecated _ t | .answer t => Writable t
  | _ => True

end Cop

theorem trimmed_line {w : Bytes} {b : UInt8} (hb : isAsciiSpace b = false) (hw : w.head? = some b) :
    Trimmed (w ++ ascii " |") := by
  constructor
  · intro c hc
    rw [List.head?_append, hw] at hc
    cases hc
    exact hb
  · intro c hc
    rw [List.getLast?_append_of_ne_nil _ (by decide)] at hc
    cases hc
    decide

/-- What trimming leaves of a line with a text. -/
theorem strTrim_line {w : Bytes} {b : UInt8} (hb : isAsciiSpace b = false) (hw : w.head? = some b)
    (text : Bytes) :
    strTrim (w ++ (ascii " | " ++ text)) = w ++ (ascii " |" ++ trimmedTail text) := by
  have h := strTrim_append (trimmed_line hb hw) (by simp [ascii]) text
  rw [List.append_assoc, List.append_assoc] at h
  exact h

theorem trimmed_mark {w : Bytes} {b : UInt8} (hb : isAsciiSpace b = false) (hw : w.head? = some b)
    (h : Nat) : Trimmed (w ++ (ascii "M" ++ dec h)) := by
  constructor
  · intro c hc
    rw [List.head?_append, hw] at hc
    cases hc
    exact hb
  · intro c hc
    rw [List.getLast?_append_of_ne_nil _ (by simp [ascii])] at hc
    exact (dec_not_blank h c (List.mem_of_getLast? hc)).2

theorem parseChange_tail {n h : Nat} {op : Nat → CStr → Cop} {t : CStr} (h1 : 1 ≤ h) (hn : h ≤ n)
    (hm : h ≤ 1000000) (ht : Writable t) :
    parseChange n op ((ascii "M" ++ dec h) ++ (ascii " |" ++ trimmedTail t.val)) =
      some (op h (cstr (strTrim t.val))) := by
  have hw : 124 ∉ ascii "M" ++ dec h := by
    intro hm
    rcases List.mem_append.1 hm with hm | hm
    · exact absurd hm (by decide)
    · exact absurd (dec_digits h _ hm) (by decide)
  have hsep := findSep_tail hw (fun hm => ht.2 _ hm (by decide))
  have htrim : Trimmed (ascii "M" ++ dec h) :=
    ⟨fun b hb => (dec_not_blank h b (List.mem_of_head? hb)).2,
      fun b hb => (dec_not_blank h b (List.mem_of_getLast? hb)).2⟩
  have hdrop : ((ascii "M" ++ dec h) ++ (ascii " |" ++ trimmedTail t.val)).drop
      ((ascii "M" ++ dec h).length + 2) = trimmedTail t.val := by
    rw [← List.drop_drop, List.drop_left]
    rfl
  rw [parseChange, hsep]
  simp only [Option.bind_eq_bind, Option.bind_some, List.take_left, htrim.strTrim,
    parseHandleToken_dec h1 hn hm, hdrop, strTrim_trimmedTail, Option.pure_def]

theorem parseInsert_tail {s : Section} {t : CStr} (ht : Writable t) :
    parseInsert (sectionName s ++ (ascii " |" ++ trimmedTail t.val)) =
      some (.insert s (cstr (strTrim t.val))) := by
  have hsep := findSep_tail (w := sectionName s) (by cases s <;> decide)
    (fun hm => ht.2 _ hm (by decide))
  have hdrop : (sectionName s ++ (ascii " |" ++ trimmedTail t.val)).drop
      ((sectionName s).length + 2) = trimmedTail t.val := by
    rw [← List.drop_drop, List.drop_left]
    rfl
  have hsec : sectionParse (strTrim (sectionName s)) = some s := by cases s <;> decide
  rw [parseInsert, hsep]
  simp only [Option.bind_eq_bind, Option.bind_some, List.take_left, hsec, hdrop,
    strTrim_trimmedTail, Option.pure_def]

/-- **A line is taken for what it says.** -/
theorem parseLine_row {n : Nat} {op : Cop} (hp : op.Plain) (hf : op.fits n = true)
    (hn : n ≤ 1000000) : parseLine (strTrim op.row) n = some op.trimmed := by
  cases op with
  | noop => rfl
  | nomem => rfl
  | insert s t =>
    have hrow : strTrim (Cop.insert s t).row =
        ascii "INSERT " ++ (sectionName s ++ (ascii " |" ++ trimmedTail t.val)) := by
      have := strTrim_line (w := ascii "INSERT " ++ sectionName s) (b := 73) (by decide) rfl t.val
      rwa [List.append_assoc, List.append_assoc] at this
    rw [hrow, Cop.trimmed, ← parseInsert_tail hp]
    cases s <;> rfl
  | update h t =>
    have hfit : 1 ≤ h ∧ h ≤ n := by simpa [Cop.fits] using hf
    have hrow : strTrim (Cop.update h t).row =
        ascii "UPDATE " ++ ((ascii "M" ++ dec h) ++ (ascii " |" ++ trimmedTail t.val)) := by
      have := strTrim_line (w := ascii "UPDATE " ++ (ascii "M" ++ dec h)) (b := 85) (by decide) rfl
        t.val
      rwa [List.append_assoc, List.append_assoc] at this
    rw [hrow, Cop.trimmed, ← parseChange_tail hfit.1 hfit.2 (by omega) hp]
    rfl
  | setDeprecated h t =>
    have hfit : 1 ≤ h ∧ h ≤ n := by simpa [Cop.fits] using hf
    have hrow : strTrim (Cop.setDeprecated h t).row =
        ascii "DEPRECATE " ++ ((ascii "M" ++ dec h) ++ (ascii " |" ++ trimmedTail t.val)) := by
      have := strTrim_line (w := ascii "DEPRECATE " ++ (ascii "M" ++ dec h)) (b := 68) (by decide)
        rfl t.val
      rwa [List.append_assoc, List.append_assoc] at this
    rw [hrow, Cop.trimmed, ← parseChange_tail hfit.1 hfit.2 (by omega) hp]
    rfl
  | keep h =>
    have hfit : 1 ≤ h ∧ h ≤ n := by simpa [Cop.fits] using hf
    rw [Cop.row, (trimmed_mark (b := 75) (by decide) rfl h).strTrim]
    have hp : parseLine (ascii "KEEP " ++ (ascii "M" ++ dec h)) n =
        (parseHandleToken (ascii "M" ++ dec h) n).map .keep := rfl
    rw [hp, parseHandleToken_dec hfit.1 hfit.2 (by omega)]
    rfl
  | cite h =>
    have hfit : 1 ≤ h ∧ h ≤ n := by simpa [Cop.fits] using hf
    rw [Cop.row, (trimmed_mark (b := 67) (by decide) rfl h).strTrim]
    have hp : parseLine (ascii "CITE " ++ (ascii "M" ++ dec h)) n =
        (parseHandleToken (ascii "M" ++ dec h) n).map .cite := rfl
    rw [hp, parseHandleToken_dec hfit.1 hfit.2 (by omega)]
    rfl
  | answer t =>
    have hrow : strTrim (Cop.answer t).row = ascii "ANSWER" ++ (ascii " |" ++ trimmedTail t.val) :=
      strTrim_line (w := ascii "ANSWER") (b := 65) (by decide) rfl t.val
    have hp : parseLine (ascii "ANSWER" ++ (ascii " |" ++ trimmedTail t.val)) n =
        some (.answer (cstr (strTrim (trimmedTail t.val)))) := rfl
    rw [hrow, hp, strTrim_trimmedTail]
    rfl

theorem row_no_newline {op : Cop} (hp : op.Plain) : 10 ∉ op.row := by
  have htext : ∀ {w : Bytes} {t : CStr}, 10 ∉ w → Writable t → 10 ∉ w ++ t.val := by
    intro w t hw ht hm
    exact (List.mem_append.1 hm).elim hw fun hm => ht.2 _ hm (by decide)
  have hhandle : ∀ {w : Bytes} (h : Nat), 10 ∉ w → 10 ∉ w ++ (ascii "M" ++ dec h) := by
    intro w h hw hm
    refine (List.mem_append.1 hm).elim hw fun hm => ?_
    exact absurd (dec_not_blank h 10 hm).2 (by decide)
  have hbar : ∀ {w : Bytes}, 10 ∉ w → 10 ∉ w ++ ascii " | " := fun hw hm =>
    (List.mem_append.1 hm).elim hw fun hm => absurd hm (by decide)
  cases op with
  | noop => exact show (10 : UInt8) ∉ ascii "NOOP" by decide
  | nomem => exact show (10 : UInt8) ∉ ascii "NOMEM" by decide
  | insert s t =>
    have hw : 10 ∉ ascii "INSERT " ++ sectionName s ++ ascii " | " := by cases s <;> decide
    simpa only [Cop.row, List.append_assoc] using htext hw hp
  | update h t =>
    simpa only [Cop.row, List.append_assoc] using
      htext (hbar (hhandle (w := ascii "UPDATE ") h (by decide))) hp
  | setDeprecated h t =>
    simpa only [Cop.row, List.append_assoc] using
      htext (hbar (hhandle (w := ascii "DEPRECATE ") h (by decide))) hp
  | keep h => exact hhandle h (by decide)
  | cite h => exact hhandle h (by decide)
  | answer t => exact htext (by decide) hp

theorem textRows_joinRows {rows : List Bytes} (h : ∀ r ∈ rows, 10 ∉ r) :
    textRows (joinRows rows) = rows := by
  have := splitRows_joinRows h (List.not_mem_nil (a := 10))
  rw [List.append_nil] at this
  rw [textRows, this, if_pos rfl]

theorem foldl_parseRow {n : Nat} {ls : List Cop} (h : ∀ op ∈ ls, op.Plain ∧ op.fits n = true)
    (hn : n ≤ 1000000) (acc : List Cop × Nat) :
    (ls.map Cop.row).foldl (parseRow n) acc = (acc.1 ++ ls.map Cop.trimmed, acc.2) := by
  induction ls generalizing acc with
  | nil => simp
  | cons op ls ih =>
    have hline := parseLine_row (h op (.head _)).1 (h op (.head _)).2 hn
    have hne : strTrim op.row ≠ [] := by
      intro he
      rw [he] at hline
      cases hline
    rw [List.map_cons, List.foldl_cons, parseRow, if_neg hne, hline,
      ih fun x hx => h x (.tail _ hx)]
    simp

/-- **Lines are taken for what they say**, none is dropped. -/
theorem asperProtocolParse_rows {n : Nat} {ls : List Cop}
    (h : ∀ op ∈ ls, op.Plain ∧ op.fits n = true) (hn : n ≤ 1000000) {s : CStr}
    (hs : s.val = joinRows (ls.map Cop.row)) :
    asperProtocolParse s n = (ls.map Cop.trimmed, 0) := by
  have hrows : ∀ r ∈ ls.map Cop.row, 10 ∉ r := by
    intro r hr
    obtain ⟨op, hop, rfl⟩ := List.mem_map.1 hr
    exact row_no_newline (h op hop).1
  rw [asperProtocolParse, hs, textRows_joinRows hrows, foldl_parseRow h hn]
  rfl

end Asper
