import Asper.Knowledge.Codec
import Mathlib.Data.List.Monad

/-! # Groundings are read back as written

* `KnowledgeEntry.Fits`: what `knowledgeDecode` checks of an entry (`knowledgeDecode_fits`).
* `knowledgeDecode_encode`: an entry that fits is read back as written, by a JSON library that
  reads back what it writes. -/

namespace Asper

open Durable (Bytes)

/-- The library reads back what it writes. -/
def JsonText.RoundTrips (J : JsonText) : Prop :=
  ∀ v text, J.write v = some text → J.parse text.val = some v

/-- All texts of the value are UTF-8. -/
inductive Json.Utf8 : Json → Prop where
  | null : Utf8 .null
  | bool (b : Bool) : Utf8 (.bool b)
  | int (n : Int) : Utf8 (.int n)
  | string {s : Bytes} (h : utf8Valid s = true) : Utf8 (.string s)
  | array {xs : List Json} (h : ∀ x ∈ xs, Utf8 x) : Utf8 (.array xs)
  | object {fields : List (Bytes × Json)} (hk : ∀ f ∈ fields, utf8Valid f.1 = true)
      (hv : ∀ f ∈ fields, Utf8 f.2) : Utf8 (.object fields)

/-- The library writes UTF-8 from UTF-8. -/
def JsonText.WritesUtf8 (J : JsonText) : Prop :=
  ∀ v text, v.Utf8 → J.write v = some text → utf8Valid text.val = true

/-- A text that fits a `char` array of `size` bytes with its terminator. -/
def FitsText (size : Nat) (s : Bytes) : Prop := 0 ∉ s ∧ s.length < size

instance (size : Nat) (s : Bytes) : Decidable (FitsText size s) :=
  inferInstanceAs (Decidable (_ ∧ _))

def SourceSpan.Fits (s : SourceSpan) : Prop := FitsText 65 s.scope ∧ FitsText 37 s.eventId

def Dependency.Fits (d : Dependency) : Prop := FitsText 256 d.resource ∧ FitsText 129 d.version

def KnowledgeLink.Fits (l : KnowledgeLink) : Prop :=
  FitsText 37 l.recordId ∧ FitsText 65 l.contentSha256

instance : DecidablePred SourceSpan.Fits := fun _ => inferInstanceAs (Decidable (_ ∧ _))
instance : DecidablePred Dependency.Fits := fun _ => inferInstanceAs (Decidable (_ ∧ _))
instance : DecidablePred KnowledgeLink.Fits := fun _ => inferInstanceAs (Decidable (_ ∧ _))

structure Grounding.Fits (g : Grounding) : Prop where
  sources : g.sources.length ≤ knowledgeItems ∧ ∀ s ∈ g.sources, s.Fits
  dependencies : g.dependencies.length ≤ knowledgeItems ∧ ∀ d ∈ g.dependencies, d.Fits
  links : g.links.length ≤ knowledgeItems ∧ ∀ l ∈ g.links, l.Fits
  reason : FitsText 256 g.reason

/-- What the reader checks of an entry. -/
structure KnowledgeEntry.Fits (D : Digest) (e : KnowledgeEntry) : Prop where
  revision : e.revision ≠ 0
  id : uuidValid e.id = true ∧ FitsText 37 e.id
  hash : knowledgeHash e.hash = true ∧ FitsText 65 e.hash
  content : e.content ≠ [] ∧ e.content.length ≤ knowledgeContent ∧ 0 ∉ e.content
  same : contentHash D e.content = e.hash
  grounding : e.grounding.Fits

/-! ## Fields -/

theorem stringField_some {o : Json} {key s : Bytes} {size : Nat}
    (h : stringField o key size = some s) : FitsText size s := by
  unfold stringField at h
  split at h
  · split at h
    · cases h
    · next hn =>
      cases h
      exact ⟨fun h0 => hn (.inl h0), Nat.lt_of_not_le fun hl => hn (.inr hl)⟩
  · cases h

theorem stringField_eq {o : Json} {key s : Bytes} (h : o.get key = some (.string s)) (size : Nat) :
    stringField o key size = if FitsText size s then some s else none := by
  unfold stringField
  rw [h]
  by_cases hf : FitsText size s
  · rw [if_pos hf]
    exact if_neg fun hn => hn.elim hf.1 fun hl => Nat.not_le.2 hf.2 hl
  · rw [if_neg hf]
    refine if_pos ?_
    by_cases h0 : 0 ∈ s
    · exact .inl h0
    · exact .inr (Nat.le_of_not_lt fun hl => hf ⟨h0, hl⟩)

theorem jsonNumber_some {n : Nat} {v : Json} (h : jsonNumber n = some v) :
    v = .int n ∧ n ≤ 2 ^ 63 - 1 := by
  unfold jsonNumber at h
  split at h
  · cases h
  · next hn =>
    cases h
    exact ⟨rfl, Nat.le_of_not_lt hn⟩

theorem integerField_eq {o : Json} {key : Bytes} {n : Nat} (h : o.get key = some (.int n)) :
    integerField o key = some n := by
  unfold integerField
  rw [h]
  simp

theorem boolField_eq {o : Json} {key : Bytes} {b : Bool} (h : o.get key = some (.bool b)) :
    boolField o key = some b := by
  rw [boolField, h]

theorem stringField_back {o : Json} {key s s' : Bytes} {size : Nat}
    (ho : o.get key = some (.string s)) (h : stringField o key size = some s') : s' = s := by
  rw [stringField_eq ho] at h
  split at h
  · exact (Option.some.inj h).symm
  · cases h

theorem option_bind_some {α β : Type} {m : Option α} {f : α → Option β} {b : β}
    (h : (m >>= f) = some b) : ∃ a, m = some a ∧ f a = some b := by
  cases m with
  | none => cases h
  | some a => exact ⟨a, rfl, h⟩

theorem guard_some {p : Prop} [Decidable p] {u : Unit} (h : (guard p : Option Unit) = some u) : p := by
  by_contra hp
  rw [guard, if_neg hp] at h
  cases h

theorem guard_pos {p : Prop} [Decidable p] (h : p) : (guard p : Option Unit) = some () := if_pos h

/-- A list read item by item as it was written. -/
theorem mapM_back {α β : Type} {f : α → Option β} {p : β → Option α} {F : α → Prop}
    [DecidablePred F] (h : ∀ x y, f x = some y → p y = if F x then some x else none) :
    ∀ {xs : List α} {ys : List β}, xs.mapM f = some ys →
      ys.length = xs.length ∧ ys.mapM p = if ∀ x ∈ xs, F x then some xs else none
  | [], ys, hm => by
    cases hm
    simp
  | x :: xs, ys, hm => by
    rw [List.mapM_cons] at hm
    obtain ⟨y, hy, hm⟩ := option_bind_some hm
    obtain ⟨ys', hys, hm⟩ := option_bind_some hm
    cases hm
    obtain ⟨hl, hb⟩ := mapM_back h hys
    refine ⟨by simp [hl], ?_⟩
    rw [List.mapM_cons, h x y hy, hb]
    by_cases hx : F x
    · rw [if_pos hx]
      by_cases hxs : ∀ z ∈ xs, F z
      · rw [if_pos hxs, if_pos (List.forall_mem_cons.2 ⟨hx, hxs⟩)]
        rfl
      · rw [if_neg hxs, if_neg fun hn => hxs (List.forall_mem_cons.1 hn).2]
        rfl
    · rw [if_neg hx, if_neg fun hn => hx (List.forall_mem_cons.1 hn).1]
      rfl

theorem mapM_sound {α β : Type} {p : β → Option α} {F : α → Prop}
    (h : ∀ y x, p y = some x → F x) : ∀ {ys : List β} {xs : List α}, ys.mapM p = some xs →
      xs.length = ys.length ∧ ∀ x ∈ xs, F x
  | [], xs, hm => by
    cases hm
    simp
  | y :: ys, xs, hm => by
    rw [List.mapM_cons] at hm
    obtain ⟨x, hx, hm⟩ := option_bind_some hm
    obtain ⟨xs', hxs, hm⟩ := option_bind_some hm
    cases hm
    obtain ⟨hl, hf⟩ := mapM_sound h hxs
    exact ⟨by simp [hl], List.forall_mem_cons.2 ⟨h y x hx, hf⟩⟩

/-! ## Items -/

theorem parseSpan_value {s : SourceSpan} {v : Json} (h : spanValue s = some v) :
    parseSpan v = if s.Fits then some s else none := by
  unfold spanValue at h
  obtain ⟨n1, h1, h⟩ := option_bind_some h
  obtain ⟨n2, h2, h⟩ := option_bind_some h
  obtain ⟨n3, h3, h⟩ := option_bind_some h
  obtain ⟨n4, h4, h⟩ := option_bind_some h
  obtain ⟨n5, h5, h⟩ := option_bind_some h
  obtain ⟨rfl, -⟩ := jsonNumber_some h1
  obtain ⟨rfl, -⟩ := jsonNumber_some h2
  obtain ⟨rfl, -⟩ := jsonNumber_some h3
  obtain ⟨rfl, -⟩ := jsonNumber_some h4
  obtain ⟨rfl, -⟩ := jsonNumber_some h5
  cases h
  unfold parseSpan
  rw [stringField_eq (s := s.scope) rfl, stringField_eq (s := s.eventId) rfl,
    integerField_eq (n := s.sequence) rfl, integerField_eq (n := s.sourceBegin) rfl,
    integerField_eq (n := s.sourceEnd) rfl, integerField_eq (n := s.claimBegin) rfl,
    integerField_eq (n := s.claimEnd) rfl]
  by_cases hs : FitsText 65 s.scope
  · by_cases he : FitsText 37 s.eventId
    · rw [if_pos hs, if_pos he, if_pos ⟨hs, he⟩]
      rfl
    · rw [if_pos hs, if_neg he, if_neg fun hn => he hn.2]
      rfl
  · have hf : ¬ s.Fits := fun hn => hs hn.1
    rw [if_neg hs, if_neg hf]
    rfl

theorem parseSpan_fits {v : Json} {s : SourceSpan} (h : parseSpan v = some s) : s.Fits := by
  unfold parseSpan at h
  obtain ⟨-, -, h⟩ := option_bind_some h
  obtain ⟨scope, hs, h⟩ := option_bind_some h
  obtain ⟨event, he, h⟩ := option_bind_some h
  obtain ⟨_, -, h⟩ := option_bind_some h
  obtain ⟨_, -, h⟩ := option_bind_some h
  obtain ⟨_, -, h⟩ := option_bind_some h
  obtain ⟨_, -, h⟩ := option_bind_some h
  obtain ⟨_, -, h⟩ := option_bind_some h
  cases h
  exact ⟨stringField_some hs, stringField_some he⟩

theorem parseDependency_value (d : Dependency) :
    parseDependency (dependencyValue d) = if d.Fits then some d else none := by
  unfold parseDependency
  rw [stringField_eq (s := d.resource) rfl, stringField_eq (s := d.version) rfl]
  by_cases hs : FitsText 256 d.resource
  · by_cases he : FitsText 129 d.version
    · rw [if_pos hs, if_pos he, if_pos ⟨hs, he⟩]
      rfl
    · rw [if_pos hs, if_neg he, if_neg fun hn => he hn.2]
      rfl
  · have hf : ¬ d.Fits := fun hn => hs hn.1
    rw [if_neg hs, if_neg hf]
    rfl

theorem parseDependency_fits {v : Json} {d : Dependency} (h : parseDependency v = some d) :
    d.Fits := by
  unfold parseDependency at h
  obtain ⟨-, -, h⟩ := option_bind_some h
  obtain ⟨resource, hs, h⟩ := option_bind_some h
  obtain ⟨version, he, h⟩ := option_bind_some h
  cases h
  exact ⟨stringField_some hs, stringField_some he⟩

theorem RelationKind.ofCode_code (k : RelationKind) : RelationKind.ofCode k.code = some k := by
  cases k <;> rfl

theorem parseLink_value (l : KnowledgeLink) :
    parseLink (linkValue l) = if l.Fits then some l else none := by
  unfold parseLink
  rw [stringField_eq (s := l.recordId) rfl, stringField_eq (s := l.contentSha256) rfl,
    integerField_eq (n := l.kind.code) rfl]
  have hk : RelationKind.ofCode (l.kind.code : Nat) = some l.kind := l.kind.ofCode_code
  by_cases hs : FitsText 37 l.recordId
  · by_cases he : FitsText 65 l.contentSha256
    · rw [if_pos hs, if_pos he, if_pos ⟨hs, he⟩]
      simp only [Option.bind_eq_bind, Option.bind_some, hk]
      rfl
    · rw [if_pos hs, if_neg he, if_neg fun hn => he hn.2]
      simp only [Option.bind_eq_bind, Option.bind_some, hk]
      rfl
  · have hf : ¬ l.Fits := fun hn => hs hn.1
    rw [if_neg hs, if_neg hf]
    simp only [Option.bind_eq_bind, Option.bind_some, hk]
    rfl

theorem parseLink_fits {v : Json} {l : KnowledgeLink} (h : parseLink v = some l) : l.Fits := by
  unfold parseLink at h
  obtain ⟨-, -, h⟩ := option_bind_some h
  obtain ⟨_, -, h⟩ := option_bind_some h
  obtain ⟨_, -, h⟩ := option_bind_some h
  obtain ⟨id, hs, h⟩ := option_bind_some h
  obtain ⟨hash, he, h⟩ := option_bind_some h
  cases h
  exact ⟨stringField_some hs, stringField_some he⟩

/-! ## Entries -/

theorem parseItems_eq {α : Type} {o : Json} {key : Bytes} {parse : Json → Option α}
    {ys : List Json} {xs : List α} (ho : o.get key = some (.array ys))
    (hl : ys.length ≤ knowledgeItems) (hp : ys.mapM parse = some xs) :
    parseItems o key parse = some xs := by
  unfold parseItems
  rw [ho]
  dsimp only
  rw [if_neg (Nat.not_lt.2 hl), hp]

theorem parseItems_sound {α : Type} {F : α → Prop} {o : Json} {key : Bytes}
    {parse : Json → Option α} {xs : List α} (h : parseItems o key parse = some xs)
    (hp : ∀ y x, parse y = some x → F x) : xs.length ≤ knowledgeItems ∧ ∀ x ∈ xs, F x := by
  unfold parseItems at h
  split at h
  · split at h
    · cases h
    · next hl =>
      obtain ⟨hlen, hf⟩ := mapM_sound hp h
      exact ⟨hlen ▸ Nat.le_of_not_lt hl, hf⟩
  · cases h

/-- Items that are read are those written. -/
theorem parseItems_back {α : Type} {F : α → Prop} [DecidablePred F] {o : Json} {key : Bytes}
    {parse : Json → Option α} {ys : List Json} {xs xs' : List α}
    (ho : o.get key = some (.array ys))
    (hp : ys.mapM parse = if ∀ x ∈ xs, F x then some xs else none)
    (h : parseItems o key parse = some xs') : xs' = xs := by
  unfold parseItems at h
  rw [ho] at h
  dsimp only at h
  split at h
  · cases h
  · rw [hp] at h
    split at h
    · exact (Option.some.inj h).symm
    · cases h

theorem parseContent_back {o : Json} {s s' : Bytes} (ho : o.get (ascii "content") = some (.string s))
    (h : parseContent o = some s') : s' = s := by
  unfold parseContent at h
  rw [ho] at h
  dsimp only at h
  split at h
  · cases h
  · exact (Option.some.inj h).symm

theorem parseContent_eq {o : Json} {s : Bytes} (ho : o.get (ascii "content") = some (.string s))
    (h : s ≠ [] ∧ s.length ≤ knowledgeContent ∧ 0 ∉ s) : parseContent o = some s := by
  unfold parseContent
  rw [ho]
  exact if_neg fun hn => hn.elim h.1 fun hn => hn.elim (Nat.not_lt.2 h.2.1) h.2.2

theorem parseContent_sound {o : Json} {s : Bytes} (h : parseContent o = some s) :
    s ≠ [] ∧ s.length ≤ knowledgeContent ∧ 0 ∉ s := by
  unfold parseContent at h
  split at h
  · split at h
    · cases h
    · next hn =>
      cases h
      rw [not_or, not_or] at hn
      exact ⟨hn.1, Nat.le_of_not_lt hn.2.1, hn.2.2⟩
  · cases h

theorem mapM_all {α β : Type} {p : α → Option β} {g : α → β} :
    ∀ {xs : List α}, (∀ x ∈ xs, p x = some (g x)) → xs.mapM p = some (xs.map g)
  | [], _ => rfl
  | x :: xs, h => by
    rw [List.mapM_cons, h x (.head _), mapM_all fun y hy => h y (.tail _ hy)]
    rfl

theorem dependencies_back (ds : List Dependency) :
    (ds.map dependencyValue).mapM parseDependency =
      if ∀ d ∈ ds, d.Fits then some ds else none :=
  (mapM_back (F := Dependency.Fits) (f := fun d => some (dependencyValue d))
    (fun d _ h => Option.some.inj h ▸ parseDependency_value d) (mapM_all fun _ _ => rfl)).2

theorem links_back (ls : List KnowledgeLink) :
    (ls.map linkValue).mapM parseLink = if ∀ l ∈ ls, l.Fits then some ls else none :=
  (mapM_back (F := KnowledgeLink.Fits) (f := fun l => some (linkValue l))
    (fun l _ h => Option.some.inj h ▸ parseLink_value l) (mapM_all fun _ _ => rfl)).2

/-- The reader takes an entry that fits for what it is; the state of its sources is not written. -/
theorem parseEntry_value {D : Digest} {e : KnowledgeEntry} {v : Json} (he : e.Fits D)
    (h : entryValue e = some v) : parseEntry D v = some { e with sourcesOk := false } := by
  unfold entryValue at h
  obtain ⟨n, hn, h⟩ := option_bind_some h
  obtain ⟨ss, hs, h⟩ := option_bind_some h
  obtain ⟨rfl, -⟩ := jsonNumber_some hn
  cases h
  have hg := he.grounding
  obtain ⟨hlen, hback⟩ := mapM_back (F := SourceSpan.Fits) (fun _ _ => parseSpan_value) hs
  have hd := dependencies_back e.grounding.dependencies
  have hl := links_back e.grounding.links
  rw [if_pos hg.sources.2] at hback
  rw [if_pos hg.dependencies.2] at hd
  rw [if_pos hg.links.2] at hl
  unfold parseEntry
  rw [integerField_eq (n := 1) rfl, integerField_eq (n := e.revision) rfl,
    stringField_eq (s := e.id) rfl, stringField_eq (s := e.hash) rfl,
    stringField_eq (s := e.grounding.reason) rfl, boolField_eq (b := e.grounding.revoked) rfl,
    parseItems_eq rfl (hlen ▸ hg.sources.1) hback,
    parseItems_eq rfl (by rw [List.length_map]; exact hg.dependencies.1) hd,
    parseItems_eq rfl (by rw [List.length_map]; exact hg.links.1) hl,
    parseContent_eq (s := e.content) rfl he.content, if_pos he.id.2, if_pos he.hash.2,
    if_pos hg.reason]
  simp only [Option.bind_eq_bind, Option.bind_some, guard_pos he.revision, guard_pos he.id.1,
    guard_pos he.hash.1, guard_pos he.same]
  rfl

/-- What the reader takes the text of an entry for is the entry. -/
theorem parseEntry_back {D : Digest} {e e' : KnowledgeEntry} {v : Json}
    (h : entryValue e = some v) (hp : parseEntry D v = some e') :
    e' = { e with sourcesOk := false } := by
  unfold entryValue at h
  obtain ⟨n, hn, h⟩ := option_bind_some h
  obtain ⟨ss, hs, h⟩ := option_bind_some h
  obtain ⟨rfl, -⟩ := jsonNumber_some hn
  cases h
  obtain ⟨-, hback⟩ := mapM_back (F := SourceSpan.Fits) (fun _ _ => parseSpan_value) hs
  unfold parseEntry at hp
  obtain ⟨-, -, hp⟩ := option_bind_some hp
  obtain ⟨_, -, hp⟩ := option_bind_some hp
  obtain ⟨-, -, hp⟩ := option_bind_some hp
  obtain ⟨revision, hrev, hp⟩ := option_bind_some hp
  obtain ⟨-, -, hp⟩ := option_bind_some hp
  obtain ⟨id, hid, hp⟩ := option_bind_some hp
  obtain ⟨-, -, hp⟩ := option_bind_some hp
  obtain ⟨hash, hhash, hp⟩ := option_bind_some hp
  obtain ⟨-, -, hp⟩ := option_bind_some hp
  obtain ⟨reason, hreason, hp⟩ := option_bind_some hp
  obtain ⟨revoked, hrevoked, hp⟩ := option_bind_some hp
  obtain ⟨sources, hs', hp⟩ := option_bind_some hp
  obtain ⟨dependencies, hd, hp⟩ := option_bind_some hp
  obtain ⟨links, hl, hp⟩ := option_bind_some hp
  obtain ⟨content, hc, hp⟩ := option_bind_some hp
  obtain ⟨-, -, hp⟩ := option_bind_some hp
  cases hp
  rw [integerField_eq (n := e.revision) rfl] at hrev
  rw [boolField_eq (b := e.grounding.revoked) rfl] at hrevoked
  cases hrev
  cases hrevoked
  rw [stringField_back (s := e.id) rfl hid, stringField_back (s := e.hash) rfl hhash,
    stringField_back (s := e.grounding.reason) rfl hreason, parseItems_back rfl hback hs',
    parseItems_back rfl (dependencies_back _) hd, parseItems_back rfl (links_back _) hl,
    parseContent_back (s := e.content) rfl hc]

theorem parseEntry_fits {D : Digest} {v : Json} {e : KnowledgeEntry}
    (h : parseEntry D v = some e) : e.Fits D ∧ e.sourcesOk = false := by
  unfold parseEntry at h
  obtain ⟨-, -, h⟩ := option_bind_some h
  obtain ⟨_, -, h⟩ := option_bind_some h
  obtain ⟨-, -, h⟩ := option_bind_some h
  obtain ⟨revision, -, h⟩ := option_bind_some h
  obtain ⟨_, hrev, h⟩ := option_bind_some h
  obtain ⟨id, hid, h⟩ := option_bind_some h
  obtain ⟨_, huuid, h⟩ := option_bind_some h
  obtain ⟨hash, hhash, h⟩ := option_bind_some h
  obtain ⟨_, hhex, h⟩ := option_bind_some h
  obtain ⟨reason, hreason, h⟩ := option_bind_some h
  obtain ⟨_, -, h⟩ := option_bind_some h
  obtain ⟨sources, hs, h⟩ := option_bind_some h
  obtain ⟨dependencies, hd, h⟩ := option_bind_some h
  obtain ⟨links, hl, h⟩ := option_bind_some h
  obtain ⟨content, hc, h⟩ := option_bind_some h
  obtain ⟨_, hsame, h⟩ := option_bind_some h
  cases h
  exact ⟨{
    revision := guard_some hrev
    id := ⟨guard_some huuid, stringField_some hid⟩
    hash := ⟨guard_some hhex, stringField_some hhash⟩
    content := parseContent_sound hc
    same := guard_some hsame
    grounding := {
      sources := parseItems_sound hs fun _ _ => parseSpan_fits
      dependencies := parseItems_sound hd fun _ _ => parseDependency_fits
      links := parseItems_sound hl fun _ _ => parseLink_fits
      reason := stringField_some hreason } }, rfl⟩

/-! ## Texts -/

def SourceSpan.Utf8 (s : SourceSpan) : Prop := utf8Valid s.scope = true ∧ utf8Valid s.eventId = true

def Dependency.Utf8 (d : Dependency) : Prop :=
  utf8Valid d.resource = true ∧ utf8Valid d.version = true

def KnowledgeLink.Utf8 (l : KnowledgeLink) : Prop :=
  utf8Valid l.recordId = true ∧ utf8Valid l.contentSha256 = true

structure Grounding.Utf8 (g : Grounding) : Prop where
  sources : ∀ s ∈ g.sources, s.Utf8
  dependencies : ∀ d ∈ g.dependencies, d.Utf8
  links : ∀ l ∈ g.links, l.Utf8
  reason : utf8Valid g.reason = true

/-- The keys of the objects that are written. -/
def knowledgeKeys : List Bytes :=
  [ascii "scope", ascii "event", ascii "sequence", ascii "source_begin", ascii "source_end",
    ascii "claim_begin", ascii "claim_end", ascii "resource", ascii "version", ascii "kind",
    ascii "id", ascii "hash", ascii "schema", ascii "revision", ascii "content", ascii "reason",
    ascii "revoked", ascii "sources", ascii "dependencies", ascii "links"]

theorem knowledgeKeys_utf8 : ∀ key ∈ knowledgeKeys, utf8Valid key = true := by decide +kernel

theorem Json.Utf8.keyed {fields : List (Bytes × Json)} (hk : ∀ f ∈ fields, f.1 ∈ knowledgeKeys)
    (hv : ∀ f ∈ fields, f.2.Utf8) : (Json.object fields).Utf8 :=
  .object (fun f hf => knowledgeKeys_utf8 _ (hk f hf)) hv

theorem jsonNumber_utf8 {n : Nat} {v : Json} (h : jsonNumber n = some v) : v.Utf8 := by
  obtain ⟨rfl, -⟩ := jsonNumber_some h
  exact .int _

theorem spanValue_utf8 {s : SourceSpan} {v : Json} (hs : s.Utf8) (h : spanValue s = some v) :
    v.Utf8 := by
  unfold spanValue at h
  obtain ⟨n1, h1, h⟩ := option_bind_some h
  obtain ⟨n2, h2, h⟩ := option_bind_some h
  obtain ⟨n3, h3, h⟩ := option_bind_some h
  obtain ⟨n4, h4, h⟩ := option_bind_some h
  obtain ⟨n5, h5, h⟩ := option_bind_some h
  cases h
  refine .keyed (by simp [knowledgeKeys]) ?_
  simp only [List.forall_mem_cons]
  exact ⟨.string hs.1, .string hs.2, jsonNumber_utf8 h1, jsonNumber_utf8 h2, jsonNumber_utf8 h3,
    jsonNumber_utf8 h4, jsonNumber_utf8 h5, fun _ hn => absurd hn List.not_mem_nil⟩

theorem dependencyValue_utf8 {d : Dependency} (hd : d.Utf8) : (dependencyValue d).Utf8 := by
  refine .keyed (by simp [knowledgeKeys]) ?_
  simp only [List.forall_mem_cons]
  exact ⟨.string hd.1, .string hd.2, fun _ hn => absurd hn List.not_mem_nil⟩

theorem linkValue_utf8 {l : KnowledgeLink} (hl : l.Utf8) : (linkValue l).Utf8 := by
  refine .keyed (by simp [knowledgeKeys]) ?_
  simp only [List.forall_mem_cons]
  exact ⟨.int _, .string hl.1, .string hl.2, fun _ hn => absurd hn List.not_mem_nil⟩

theorem knowledgeHash_utf8 {s : Bytes} (h : knowledgeHash s = true) : utf8Valid s = true := by
  refine utf8Valid_ascii fun b hb => ?_
  have hh := List.all_eq_true.1 (of_decide_eq_true h).2 b hb
  simp only [isLowerHex, decide_eq_true_eq, UInt8.le_iff_toNat_le, UInt8.lt_iff_toNat_lt] at hh ⊢
  simp only [UInt8.reduceToNat] at hh ⊢
  omega

theorem uuidValid_utf8 {s : Bytes} (h : uuidValid s = true) : utf8Valid s = true :=
  utf8Valid_ascii fun _ hb => (uuidValid_byte h hb).2

theorem mapM_forall {α β : Type} {f : α → Option β} {P : β → Prop} :
    ∀ {xs : List α} {ys : List β}, (∀ x ∈ xs, ∀ y, f x = some y → P y) → xs.mapM f = some ys →
      ∀ y ∈ ys, P y
  | [], ys, _, hm => by
    cases hm
    simp
  | x :: xs, ys, h, hm => by
    rw [List.mapM_cons] at hm
    obtain ⟨y, hy, hm⟩ := option_bind_some hm
    obtain ⟨ys', hys, hm⟩ := option_bind_some hm
    cases hm
    exact List.forall_mem_cons.2 ⟨h x (.head _) y hy,
      mapM_forall (fun z hz => h z (.tail _ hz)) hys⟩

theorem entryValue_utf8 {D : Digest} {e : KnowledgeEntry} {v : Json} (he : e.Fits D)
    (hc : utf8Valid e.content = true) (hg : e.grounding.Utf8) (h : entryValue e = some v) :
    v.Utf8 := by
  unfold entryValue at h
  obtain ⟨n, hn, h⟩ := option_bind_some h
  obtain ⟨ss, hs, h⟩ := option_bind_some h
  cases h
  refine .keyed (by simp [knowledgeKeys]) ?_
  simp only [List.forall_mem_cons]
  refine ⟨.int _, .string (uuidValid_utf8 he.id.1), .string (knowledgeHash_utf8 he.hash.1),
    jsonNumber_utf8 hn, .string hc, .string hg.reason, .bool _,
    .array (mapM_forall (fun s hm _ => spanValue_utf8 (hg.sources s hm)) hs), .array ?_,
    .array ?_, fun _ hx => absurd hx List.not_mem_nil⟩
  · intro x hx
    obtain ⟨d, hd, rfl⟩ := List.mem_map.1 hx
    exact dependencyValue_utf8 (hg.dependencies d hd)
  · intro x hx
    obtain ⟨l, hl, rfl⟩ := List.mem_map.1 hx
    exact linkValue_utf8 (hg.links l hl)

theorem knowledgeEncode_utf8 {J : JsonText} {D : Digest} (hJ : J.WritesUtf8) {e : KnowledgeEntry}
    {text : CStr} (he : e.Fits D) (hc : utf8Valid e.content = true) (hg : e.grounding.Utf8)
    (h : knowledgeEncode J e = some text) : utf8Valid text.val = true := by
  obtain ⟨v, hv, hw⟩ := Option.bind_eq_some_iff.1 h
  exact hJ v text (entryValue_utf8 he hc hg hv) hw

/-! ## The text of an entry -/

section
variable {J : JsonText} {D : Digest}

/-- **An entry that fits is read back as written.** -/
theorem knowledgeDecode_encode (hJ : J.RoundTrips) {e : KnowledgeEntry} {text : CStr}
    (he : e.Fits D) (h : knowledgeEncode J e = some text) :
    knowledgeDecode J D false text.val = .ok { e with sourcesOk := false } := by
  obtain ⟨v, hv, hw⟩ := Option.bind_eq_some_iff.1 h
  unfold knowledgeDecode
  rw [hJ v text hw]
  dsimp only
  rw [if_neg (by decide), parseEntry_value he hv]

theorem knowledgeDecode_fits {nomem : Bool} {text : Bytes} {e : KnowledgeEntry}
    (h : knowledgeDecode J D nomem text = .ok e) : e.Fits D ∧ e.sourcesOk = false := by
  unfold knowledgeDecode at h
  split at h
  · cases h
  · split at h
    · cases h
    · split at h
      · cases h
      · next he =>
        cases h
        exact parseEntry_fits he

/-- What is written and read again is the entry itself. -/
theorem knowledgeDecode_same (hJ : J.RoundTrips) {nomem : Bool} {e e' : KnowledgeEntry}
    {text : CStr} (h : knowledgeEncode J e = some text)
    (hd : knowledgeDecode J D nomem text.val = .ok e') :
    e' = { e with sourcesOk := false } := by
  obtain ⟨v, hv, hw⟩ := Option.bind_eq_some_iff.1 h
  unfold knowledgeDecode at hd
  rw [hJ v text hw] at hd
  dsimp only at hd
  split at hd
  · cases hd
  · split at hd
    · cases hd
    · next he =>
      cases hd
      exact parseEntry_back hv he

end

end Asper
