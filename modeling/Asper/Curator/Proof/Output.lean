import Asper.Base.Proof.Utf8
import Asper.Curator.Output
import Asper.Curator.Proof.Answers
import Asper.Curator.Proof.Wrapper
import Asper.Lib.JsonEscape

/-! # What the schema admits and what is decoded

A text that conforms to the schema and is within the byte limit of `asper_output_decode` comes
back as the bytes of its characters, one that is longer is lost (`asperOutputDecode_iff`). The
schema counts characters, the decoder counts bytes (`conforming_lost`). -/

namespace Asper

open Durable
open JsonEscape

def encodeChars (cs : List Char) : Bytes := cs.flatMap String.utf8EncodeChar

/-! ## Bytes of characters -/

/-- A character is one ASCII byte, or bytes above ASCII only. -/
theorem encode_bytes (c : Char) : (c.toNat < 128 ∧ String.utf8EncodeChar c = [UInt8.ofNat c.toNat]) ∨
    128 ≤ c.toNat ∧ ∀ b ∈ String.utf8EncodeChar c, 128 ≤ b.toNat := by
  have hr := char_range c
  by_cases h1 : c.toNat < 0x80
  · exact .inl ⟨h1, encode_one h1⟩
  refine .inr ⟨Nat.not_lt.1 h1, fun b hb => ?_⟩
  by_cases h2 : c.toNat < 0x800
  · rw [encode_two (Nat.not_lt.1 h1) h2] at hb
    simp only [List.mem_cons, List.not_mem_nil, or_false] at hb
    rcases hb with rfl | rfl <;> rw [toNat_ofNat_lt (by omega)] <;> omega
  by_cases h3 : c.toNat < 0x10000
  · rw [encode_three (Nat.not_lt.1 h2) h3] at hb
    simp only [List.mem_cons, List.not_mem_nil, or_false] at hb
    rcases hb with rfl | rfl | rfl <;> rw [toNat_ofNat_lt (by omega)] <;> omega
  · rw [encode_four (Nat.not_lt.1 h3)] at hb
    simp only [List.mem_cons, List.not_mem_nil, or_false] at hb
    rcases hb with rfl | rfl | rfl | rfl <;> rw [toNat_ofNat_lt (by omega)] <;> omega

theorem encodeChars_noNul {cs : List Char} (h : ∀ c ∈ cs, c.toNat ≠ 0) : 0 ∉ encodeChars cs := by
  intro h0
  obtain ⟨c, hc, h0⟩ := List.mem_flatMap.1 h0
  rcases encode_bytes c with ⟨hlt, he⟩ | ⟨-, he⟩
  · rw [he, List.mem_singleton] at h0
    have := congrArg UInt8.toNat h0
    rw [toNat_ofNat_lt (by omega)] at this
    exact h c hc this.symm
  · exact absurd (he 0 h0) (by decide)

theorem length_le_encodeChars (cs : List Char) : cs.length ≤ (encodeChars cs).length := by
  induction cs with
  | nil => exact Nat.le_refl _
  | cons c cs ih =>
    rw [encodeChars, List.flatMap_cons, List.length_append, String.length_utf8EncodeChar, List.length_cons]
    exact Nat.add_comm 1 _ ▸ Nat.add_le_add c.utf8Size_pos ih

/-! ## JSON texts pass the wrapper -/

theorem isHex_of_value {b : UInt8} (h : (hexValue b).isSome = true) : isHex b = true := by
  rw [hexValue] at h
  simp only [isHex, isLowerHex, decide_eq_true_eq, Bool.or_eq_true, Bool.decide_or]
  split at h
  · next hd => exact .inl (.inl hd)
  · split at h
    · next hd => exact .inl (.inr hd)
    · split at h
      · next hd => exact .inr hd
      · cases h

/-- An escape of a code unit other than 0 is one the wrapper knows. -/
theorem escape_body {n : Nat} {w s : Bytes} (h : Escape n w) (hn : n ≠ 0) (hs : StringBody s) :
    StringBody (w ++ s) := by
  cases h with
  | @short e he =>
    refine .escape ?_ hs
    have hall : ∀ x ∈ shortEscapes, x.1 ∈ ascii "\"\\/bfnrt" := by decide
    exact hall _ he
  | @unicode w hl hw =>
    refine .unicode hl (fun b hb => isHex_of_value (hexNumber_digits hw b hb)) ?_ hs
    rintro rfl
    exact hn (Option.some.inj hw).symm

theorem raw_body {c : Char} {s : Bytes} (h32 : 32 ≤ c.toNat) (h34 : c.toNat ≠ 34)
    (h92 : c.toNat ≠ 92) (hs : StringBody s) : StringBody (String.utf8EncodeChar c ++ s) := by
  rcases encode_bytes c with ⟨hlt, he⟩ | ⟨-, he⟩
  · have hb : (UInt8.ofNat c.toNat).toNat = c.toNat := toNat_ofNat_lt (by omega)
    rw [he]
    refine .raw ?_ (fun h => h34 ?_) (fun h => h92 ?_) hs
    · rw [UInt8.le_iff_toNat_le, hb]
      exact h32
    · rw [← hb, h]
      rfl
    · rw [← hb, h]
      rfl
  · generalize String.utf8EncodeChar c = w at he
    induction w with
    | nil => exact hs
    | cons b w ih =>
      obtain ⟨hb, hw⟩ := List.forall_mem_cons.1 he
      refine .raw ?_ (fun h => ?_) (fun h => ?_) (ih hw)
      · rw [UInt8.le_iff_toNat_le]
        exact Nat.le_trans (by decide) hb
      · exact absurd (h ▸ hb) (by decide)
      · exact absurd (h ▸ hb) (by decide)

theorem chars_body {cs : List Char} {s : Bytes} (h : Chars cs s) (h0 : ∀ c ∈ cs, c.toNat ≠ 0) :
    StringBody s := by
  induction h with
  | nil => exact .nil
  | raw h32 h34 h92 _ ih => exact raw_body h32 h34 h92 (ih fun c hc => h0 c (.tail _ hc))
  | escape he _ ih => exact escape_body he (h0 _ (.head _)) (ih fun c hc => h0 c (.tail _ hc))
  | pair _ h₁ h₂ _ ih =>
    rw [List.append_assoc]
    exact escape_body h₁ (by omega) (escape_body h₂ (by omega) (ih fun c hc => h0 c (.tail _ hc)))

theorem blank_spaces {w : Bytes} (h : Blank w) : Spaces w := by
  intro b hb
  rcases h b hb with rfl | rfl | rfl | rfl <;> rfl

theorem oneMember_wrapper {cs : List Char} {text : Bytes} (h : OneMember (ascii "output") cs text)
    (h0 : ∀ c ∈ cs, c.toNat ≠ 0) : Wrapper text := by
  obtain ⟨w₀, w₁, w₂, w₃, s, w₄, w₅, hw₀, hw₁, hw₂, hw₃, hs, hw₄, hw₅, rfl⟩ := h
  refine ⟨w₀, w₁, w₂, w₃, s, w₄, w₅, blank_spaces hw₀, blank_spaces hw₁, blank_spaces hw₂,
    blank_spaces hw₃, chars_body hs h0, blank_spaces hw₄, blank_spaces hw₅, ?_⟩
  simp only [List.append_assoc]
  rfl

/-! ## The decoder -/

/-- `cs` satisfies the string schema of the contract. The pattern is matched on the bytes: it names
ASCII characters only, so this is the match on the characters. -/
structure Conforms (kind : GrammarKind) (handles : Nat) (cs : List Char) : Prop where
  emitted : (asperOutputSchema kind handles).isSome = true
  noNul : ∀ c ∈ cs, c.toNat ≠ 0
  min : schemaMin ≤ cs.length
  max : cs.length ≤ schemaMax
  matched : ∃ L, regexLanguage (pattern kind handles) = some L ∧ encodeChars cs ∈ L

/-- The tree of the object with the one member `output`. -/
def outputDoc (cs : List Char) : XNode :=
  XValue.node (.object [(ascii "output", XValue.node (.string (encodeChars cs)))])

theorem outputValue_doc {cs : List Char} (h0 : ∀ c ∈ cs, c.toNat ≠ 0) (h5 : 5 ≤ cs.length) :
    outputValue (outputDoc cs).value =
      if (encodeChars cs).length ≤ 32768 then some ⟨encodeChars cs, encodeChars_noNul h0⟩
      else none := by
  have hself : (cstr (encodeChars cs)).val = encodeChars cs := cstr_self (encodeChars_noNul h0)
  have hlen : 5 ≤ (encodeChars cs).length := h5.trans (length_le_encodeChars cs)
  have hvalid : utf8Valid (encodeChars cs) = true := utf8Valid_iff.2 ⟨cs, rfl⟩
  have hkey : strcmp (cstr (ascii "output")).val (ascii "output") = .eq := by decide
  change (if strcmp (cstr (ascii "output")).val (ascii "output") = .eq ∧
    5 ≤ (cstr (encodeChars cs)).val.length ∧ (cstr (encodeChars cs)).val.length ≤ 32768 ∧
    utf8Valid (cstr (encodeChars cs)).val then some (cstr (encodeChars cs)) else none) = _
  rw [hself]
  refine if_congr ?_ (congrArg some (Subtype.ext hself)) rfl
  exact ⟨fun h => h.2.2.1, fun h => ⟨hkey, hlen, h, hvalid⟩⟩

section
variable {xcdnParse : Bytes → Option (List XNode)} {cs : List Char} {text : CStr}

theorem wrapperValid_oneMember (h0 : ∀ c ∈ cs, c.toNat ≠ 0)
    (ht : OneMember (ascii "output") cs text.val) :
    wrapperValid (text.val ++ [0]) = some true := by
  obtain ⟨b, hb, hw⟩ := wrapper_reads text
  rw [hb, hw.2 (oneMember_wrapper ht h0)]

theorem asperOutputDecode_oneMember (h0 : ∀ c ∈ cs, c.toNat ≠ 0) (h5 : 5 ≤ cs.length)
    (ht : OneMember (ascii "output") cs text.val)
    (hparse : xcdnParse text.val = some [outputDoc cs]) :
    asperOutputDecode xcdnParse text = if (encodeChars cs).length ≤ 32768 then
      .ok ⟨encodeChars cs, encodeChars_noNul h0⟩ else .error .parse := by
  rw [asperOutputDecode, if_pos (wrapperValid_oneMember h0 ht), hparse]
  dsimp only
  rw [outputValue_doc h0 h5]
  by_cases hlen : (encodeChars cs).length ≤ 32768
  · rw [if_pos hlen, if_pos hlen]
  · rw [if_neg hlen, if_neg hlen]

end

/-! ## Characters and bytes -/

def accents (n : Nat) : Bytes := (List.replicate n ([195, 169] : Bytes)).flatten

def accentLine (n : Nat) : List Char := List.replicate n 'é' ++ ['\n']

/-- An answer of `n` accented letters. -/
def accented (n : Nat) : List Char := "ANSWER | ".toList ++ accentLine n

/-- The JSON text of it without blanks. -/
def accentedText (n : Nat) : Bytes :=
  ascii "\x7b\"output\":\"ANSWER | " ++ accents n ++ ascii "\\n\"\x7d"

theorem length_accents (n : Nat) : (accents n).length = 2 * n := by
  rw [accents, List.length_flatten, List.map_replicate, List.sum_replicate_nat]
  exact Nat.mul_comm n 2

theorem encodeChars_accentLine (n : Nat) : encodeChars (accentLine n) = accents n ++ [10] := by
  rw [accentLine, encodeChars, List.flatMap_append, List.flatMap_replicate]
  rfl

theorem encodeChars_accented (n : Nat) :
    encodeChars (accented n) = ascii "ANSWER | " ++ (accents n ++ [10]) := by
  rw [← encodeChars_accentLine]
  exact List.flatMap_append

theorem accents_mem {n : Nat} {b : UInt8} (h : b ∈ accents n) : b = 195 ∨ b = 169 := by
  obtain ⟨w, hw, hb⟩ := List.mem_flatten.1 h
  rw [(List.mem_replicate.1 hw).2] at hb
  simpa using hb

theorem chars_replicate (n : Nat) {cs : List Char} {s : Bytes} (h : Chars cs s) :
    Chars (List.replicate n 'é' ++ cs) (accents n ++ s) := by
  induction n with
  | zero => exact h
  | succ n ih => exact .raw (by decide) (by decide) (by decide) ih

theorem chars_raw {cs ds : List Char} {s : Bytes}
    (hcs : ∀ c ∈ cs, 32 ≤ c.toNat ∧ c.toNat ≠ 34 ∧ c.toNat ≠ 92) (h : Chars ds s) :
    Chars (cs ++ ds) (encodeChars cs ++ s) := by
  induction cs with
  | nil => exact h
  | cons c cs ih =>
    obtain ⟨⟨h32, h34, h92⟩, hcs⟩ := List.forall_mem_cons.1 hcs
    rw [encodeChars, List.flatMap_cons, List.append_assoc]
    exact .raw h32 h34 h92 (ih hcs)

theorem accentedText_oneMember (n : Nat) :
    OneMember (ascii "output") (accented n) (accentedText n) := by
  have hend : Chars ['\n'] (ascii "\\n" ++ []) := .escape (.short (by decide)) .nil
  have hbody : Chars (accented n) (ascii "ANSWER | " ++ (accents n ++ (ascii "\\n" ++ []))) :=
    chars_raw (by decide) (chars_replicate n hend)
  refine ⟨[], [], [], [], _, [], [], nofun, nofun, nofun, nofun, hbody, nofun, nofun, ?_⟩
  simp only [List.append_assoc, List.append_nil, List.nil_append]
  rfl

theorem accented_matched {n : Nat} (hn : n ≠ 0) :
    encodeChars (accented n) ∈ answerLang .recall 0 := by
  have hne : accents n ≠ [] := fun h => hn (by
    have := length_accents n
    rw [h, List.length_nil] at this
    omega)
  have hbyte : ∀ b ∈ accents n, b ∉ ([124, 10, 13] : Bytes) := by
    intro b hb
    rcases accents_mem hb with rfl | rfl <;> decide
  have hline : accents n ++ [10] ∈ textLang * newline :=
    mem_mul_newline.2 ⟨_, mem_textLang.2 ⟨hne, hbyte⟩, rfl⟩
  have hanswer : ascii "ANSWER | " ++ (accents n ++ [10]) ∈
      ({ascii "ANSWER | "} : Language UInt8) * (textLang * newline) :=
    mem_singleton_mul.2 ⟨_, hline, rfl⟩
  rw [encodeChars_accented]
  refine .inr (Language.mem_mul.2 ⟨_, hanswer, [], ?_, List.append_nil _⟩)
  exact Language.nil_mem_kstar _

theorem length_accented (n : Nat) : (accented n).length = n + 10 := by
  have hline : (accentLine n).length = n + 1 := by
    rw [accentLine, List.length_append, List.length_replicate]
    rfl
  have happ : (accented n).length = "ANSWER | ".toList.length + (accentLine n).length :=
    List.length_append
  rw [happ, hline]
  exact Nat.add_comm 9 (n + 1)

theorem accented_noNul (n : Nat) : ∀ c ∈ accented n, c.toNat ≠ 0 := by
  intro c hc
  have hword : ∀ c ∈ "ANSWER | ".toList, c.toNat ≠ 0 := by decide
  rcases List.mem_append.1 hc with hc | hc
  · exact hword c hc
  · rcases List.mem_append.1 hc with hc | hc
    · rw [(List.mem_replicate.1 hc).2]
      decide
    · rw [List.mem_singleton.1 hc]
      decide

theorem accented_conforms {n : Nat} (hn : n ≠ 0) (hmax : n + 10 ≤ schemaMax) :
    Conforms .recall 0 (accented n) := by
  have hlen := length_accented n
  refine ⟨rfl, accented_noNul n, ?_, hlen ▸ hmax, _, regexLanguage_pattern .recall 0,
    accented_matched hn⟩
  rw [hlen]
  exact Nat.le_add_left 5 (n + 5)

theorem accentedText_noNul (n : Nat) : 0 ∉ accentedText n := by
  have hhead : (0 : UInt8) ∉ ascii "\x7b\"output\":\"ANSWER | " := by decide
  have htail : (0 : UInt8) ∉ ascii "\\n\"\x7d" := by decide
  intro h
  rcases List.mem_append.1 h with h | h
  · rcases List.mem_append.1 h with h | h
    · exact hhead h
    · rcases accents_mem h with h | h <;> exact absurd h (by decide)
  · exact htail h

/-- The wrapped answer of `n` accented letters. -/
def accentedOutput (n : Nat) : CStr := ⟨accentedText n, accentedText_noNul n⟩

section
variable {xcdnParse : Bytes → Option (List XNode)} {cs : List Char} {text : CStr}

/-- **Conforming outputs are decodable**, those of at most 32768 bytes: for every text of a
string that satisfies the schema. -/
theorem asperOutputDecode_iff {kind : GrammarKind} {handles : Nat} (h : Conforms kind handles cs)
    (ht : OneMember (ascii "output") cs text.val)
    (hparse : xcdnParse text.val = some [outputDoc cs]) :
    (wrapperValid (text.val ++ [0]) = some true ∧
      ∃ out, asperOutputDecode xcdnParse text = .ok out ∧ out.val = encodeChars cs) ↔
        (encodeChars cs).length ≤ 32768 := by
  rw [asperOutputDecode_oneMember h.noNul h.min ht hparse]
  constructor
  · rintro ⟨-, out, hout, -⟩
    by_contra hlen
    rw [if_neg hlen] at hout
    cases hout
  · intro hlen
    exact ⟨wrapperValid_oneMember h.noNul ht, _, if_pos hlen, rfl⟩

theorem asperOutputDecode_iff_short :
    Conforms .recall 0 (accented 1) ∧
      OneMember (ascii "output") (accented 1) (accentedOutput 1).val ∧
      ((wrapperValid ((accentedOutput 1).val ++ [0]) = some true ∧
        ∃ out, asperOutputDecode (fun _ => some [outputDoc (accented 1)]) (accentedOutput 1) =
          .ok out ∧ out.val = encodeChars (accented 1)) ↔
        (encodeChars (accented 1)).length ≤ 32768) :=
  ⟨accented_conforms Nat.one_ne_zero (by decide), accentedText_oneMember 1,
    asperOutputDecode_iff (accented_conforms Nat.one_ne_zero (by decide))
      (accentedText_oneMember 1) rfl⟩

end

theorem accented_lost {n : Nat} (h : 16380 ≤ n) :
    asperOutputDecode (fun _ => some [outputDoc (accented n)]) (accentedOutput n) =
      .error .parse := by
  have hlen : ¬ (encodeChars (accented n)).length ≤ 32768 := by
    rw [encodeChars_accented, List.length_append, List.length_append, length_accents]
    change ¬ 9 + (2 * n + 1) ≤ 32768
    omega
  have h5 : 5 ≤ (accented n).length := by
    rw [length_accented]
    exact Nat.le_add_left 5 (n + 5)
  exact (asperOutputDecode_oneMember (accented_noNul n) h5 (accentedText_oneMember n) rfl).trans
    (if_neg hlen)

/-- An answer of 20010 characters, within the schema, is 40010 bytes: it is lost. -/
theorem conforming_lost : Conforms .recall 0 (accented 20000) ∧
    OneMember (ascii "output") (accented 20000) (accentedOutput 20000).val ∧
    ¬ (wrapperValid ((accentedOutput 20000).val ++ [0]) = some true ∧
      ∃ out, asperOutputDecode (fun _ => some [outputDoc (accented 20000)])
        (accentedOutput 20000) = .ok out ∧ out.val = encodeChars (accented 20000)) := by
  refine ⟨accented_conforms (by omega) (by decide), accentedText_oneMember 20000, ?_⟩
  rintro ⟨-, out, hout, -⟩
  rw [accented_lost (by omega)] at hout
  cases hout

end Asper
