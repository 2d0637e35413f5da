import Asper.Knowledge.Store
import Asper.Lib.Reach
import Asper.Knowledge.Proof.Codec

/-! # What the checks of a grounding say

* `knowledgeValidate_none`: what passes at commit passes when the log is read back.
* `knowledgeValidate_avoids`: from what a record is supported by, the supports on file do not lead
  back to the record. -/

namespace Asper

open Durable
open Relation

/-! ## The supports on file -/

/-- The latest grounding of `a` rests on `b`. -/
def Supports (k : Knowledge) (a b : Bytes) : Prop :=
  ∃ e, knowledgeFind k a = some e ∧ ∃ l ∈ e.grounding.links, l.kind = .supports ∧ l.recordId = b

section
variable {k : Knowledge} {goal : Bytes}

/-- The id needs no more visits. -/
def Explored (k : Knowledge) (v : Visited) (id : Bytes) : Prop := knowledgeFind k id = none ∨ v id ≠ 0

/-- The supports of the id lead to explored ids, and not to the goal. -/
def Closed (k : Knowledge) (goal : Bytes) (v : Visited) (id : Bytes) : Prop :=
  ∀ b, Supports k id b → b ≠ goal ∧ Explored k v b

/-- What a search that does not find the goal leaves. -/
structure Searched (k : Knowledge) (goal : Bytes) (v v' : Visited) : Prop where
  mono : ∀ x, v x ≠ 0 → v' x ≠ 0
  closed : ∀ x, v x = 0 → v' x ≠ 0 → Closed k goal v' x

theorem Explored.mono {v v' : Visited} {id : Bytes} (h : Explored k v id)
    (hv : ∀ x, v x ≠ 0 → v' x ≠ 0) : Explored k v' id := h.imp_right (hv id)

theorem Closed.mono {v v' : Visited} {id : Bytes} (h : Closed k goal v id)
    (hv : ∀ x, v x ≠ 0 → v' x ≠ 0) : Closed k goal v' id := fun b hb =>
  ⟨(h b hb).1, (h b hb).2.mono hv⟩

theorem Searched.refl (v : Visited) : Searched k goal v v :=
  ⟨fun _ h => h, fun _ h h' => absurd h h'⟩

theorem Searched.trans {v v' v'' : Visited} (h : Searched k goal v v')
    (h' : Searched k goal v' v'') : Searched k goal v v'' where
  mono x hx := h'.mono x (h.mono x hx)
  closed x hx hx'' := by
    by_cases hx' : v' x = 0
    · exact h'.closed x hx' hx''
    · exact (h.closed x hx hx').mono h'.mono

/-- The links in turn, when each search among them that fails leaves its id explored. -/
theorem reachesLinks_searched {reach : Bytes → Visited → Bool × Visited}
    (hr : ∀ id v v', reach id v = (false, v') → Searched k goal v v' ∧ id ≠ goal ∧ Explored k v' id) :
    ∀ {ls : List KnowledgeLink} {v v' : Visited}, reachesLinks reach ls v = (false, v') →
      Searched k goal v v' ∧
        ∀ l ∈ ls, l.kind = .supports → l.recordId ≠ goal ∧ Explored k v' l.recordId
  | [], v, v', h => by
    cases h
    exact ⟨.refl v, fun _ hl => absurd hl List.not_mem_nil⟩
  | l :: ls, v, v', h => by
    rw [reachesLinks] at h
    split at h
    · next hk =>
      dsimp only at h
      split at h
      · next hf => rw [h] at hf; cases hf
      · next hf =>
        obtain ⟨h1, hne, hset⟩ := hr l.recordId v (reach l.recordId v).2
          (Prod.ext (Bool.eq_false_of_not_eq_true hf) rfl)
        obtain ⟨h2, hls⟩ := reachesLinks_searched hr h
        refine ⟨h1.trans h2, fun x hx hxk => ?_⟩
        rcases List.mem_cons.1 hx with rfl | hx
        · exact ⟨hne, hset.mono h2.mono⟩
        · exact hls x hx hxk
    · next hk =>
      obtain ⟨h2, hls⟩ := reachesLinks_searched hr h
      refine ⟨h2, fun x hx hxk => ?_⟩
      rcases List.mem_cons.1 hx with rfl | hx
      · exact absurd hxk hk
      · exact hls x hx hxk

/-- A search that does not find the goal has explored where it started. -/
theorem reaches_searched : ∀ {left : Nat} {id : Bytes} {v v' : Visited},
    reaches k goal left id v = (false, v') → Searched k goal v v' ∧ id ≠ goal ∧ Explored k v' id
  | 0, _, _, _, h => by cases h
  | left + 1, id, v, v', h => by
    rw [reaches] at h
    split at h
    · cases h
    · next hne =>
      split at h
      · next hf =>
        cases h
        exact ⟨.refl v, hne, .inl hf⟩
      · next e he =>
        dsimp only at h
        split at h
        · next hv =>
          cases h
          exact ⟨.refl v, hne, .inr (by omega)⟩
        · obtain ⟨hs, hls⟩ := reachesLinks_searched (fun _ _ _ => reaches_searched) h
          have hid : v' id ≠ 0 := hs.mono id (by rw [Function.update_self]; omega)
          refine ⟨⟨fun x hx => hs.mono x ?_, fun x hx hx' => ?_⟩, hne, .inr hid⟩
          · by_cases hxi : x = id
            · rw [hxi, Function.update_self]
              omega
            · rwa [Function.update_of_ne hxi]
          · by_cases hxi : x = id
            · -- the links of the id itself have all been followed
              rintro b ⟨e', he', l, hl, hk, rfl⟩
              rw [hxi, he] at he'
              cases he'
              exact hls l hl hk
            · exact hs.closed x (by rwa [Function.update_of_ne hxi]) hx'

/-- **A search that does not find the goal** shows that it cannot be reached. -/
theorem reaches_sound {left : Nat} {id : Bytes}
    (h : (reaches k goal left id fun _ => 0).1 = false) :
    ¬ ReflTransGen (Supports k) id goal := by
  obtain ⟨hs, hne, hset⟩ := reaches_searched
    (show reaches k goal left id (fun _ => 0) = (false, _) from Prod.ext h rfl)
  refine not_reaches_of_closed (C := fun x => x ≠ goal ∧ Explored k _ x) (fun a b ha hab => ?_)
    ⟨hne, hset⟩ fun hg => hg.1 rfl
  rcases ha.2 with hn | hv
  · obtain ⟨e, he, -⟩ := hab
    rw [hn] at he
    cases he
  · exact hs.closed a rfl hv b hab

end

/-! ## What passes -/

section
variable {D : Digest} {t : Table} {k : Knowledge} {r : Option Record} {g : RawGrounding}

/-- What the checks ask of a grounding, whether there is a record or not. -/
structure RawGrounding.Sound (g : RawGrounding) : Prop where
  sources : g.sources.length ≤ knowledgeItems ∧ g.sources.all (spanCheck none) = true
  dependencies : g.dependencies.length ≤ knowledgeItems ∧ dependenciesCheck [] g.dependencies = true
  items : g.links.length ≤ knowledgeItems
  revoked : g.revoked = 0 ∨ g.revoked = 1
  reason : textOk g.reason (g.revoked = 0) = true

theorem spanCheck_none {s : RawSpan} (h : spanCheck r s = true) : spanCheck none s = true := by
  unfold spanCheck at h ⊢
  rw [Bool.and_eq_true] at h ⊢
  exact ⟨h.1, rfl⟩

theorem knowledgeValidate_ok (h : knowledgeValidate D t k r g = .ok ()) :
    g.Sound ∧ linksCheck D t k r [] g.links = .ok () := by
  unfold knowledgeValidate at h
  split at h
  · cases h
  · next hc =>
    split at h
    · cases h
    · split at h
      · cases h
      · next hs =>
        split at h
        · cases h
        · next hd =>
          simp only [not_or, Nat.not_lt, Bool.not_eq_false] at hc hs hd
          obtain ⟨h1, h2, h3, h4, h5⟩ := hc
          refine ⟨⟨⟨h1, List.all_eq_true.2 fun s hm => ?_⟩, ⟨h2, hd⟩, h3, by omega, h5⟩, h⟩
          exact spanCheck_none (List.all_eq_true.1 hs s hm)

theorem RawGrounding.Sound.validate (h : g.Sound) (hl : linksCheck D t k none [] g.links = .ok ()) :
    knowledgeValidate D t k none g = .ok () := by
  have h1 := h.sources.1
  have h2 := h.dependencies.1
  have h3 := h.items
  have h4 := h.revoked
  unfold knowledgeValidate
  rw [if_neg, if_neg, if_neg, if_neg]
  · exact hl
  · rw [h.dependencies.2]
    exact Bool.noConfusion
  · rw [h.sources.2]
    exact Bool.noConfusion
  · exact Bool.noConfusion
  · rw [h.reason]
    simp only [not_or, Nat.not_lt, Bool.true_eq_false, not_false_eq_true, and_true]
    exact ⟨h1, h2, h3, by omega⟩

/-- What a link must look like by itself. -/
def linkShape (before : List (Option Bytes)) (l : RawLink) : Prop :=
  ¬ (l.kind < 0 ∨ 2 < l.kind ∨ textOk l.recordId false = false ∨
    l.recordId.any uuidValid = false ∨ textOk l.contentSha256 false = false ∨
    l.contentSha256.any knowledgeHash = false ∨ l.recordId ∈ before)

theorem linksCheck_cons {before : List (Option Bytes)} {l : RawLink} {ls : List RawLink}
    (h : linksCheck D t k r before (l :: ls) = .ok ()) :
    linkShape before l ∧ (∀ x, r = some x → linkTarget D t k l x = .ok ()) ∧
      linksCheck D t k r (before ++ [l.recordId]) ls = .ok () := by
  unfold linksCheck at h
  split at h
  · cases h
  · next hs =>
    refine ⟨hs, ?_⟩
    cases r with
    | none => exact ⟨fun _ hx => (nomatch hx), h⟩
    | some x =>
      dsimp only at h
      cases hl : linkTarget D t k l x with
      | error e => rw [hl] at h; cases h
      | ok u =>
        rw [hl] at h
        exact ⟨fun y hy => Option.some.inj hy ▸ hl, h⟩

theorem linksCheck_none {t' : Table} {k' : Knowledge} : ∀ {ls : List RawLink}
    {before : List (Option Bytes)}, linksCheck D t k r before ls = .ok () →
      linksCheck D t' k' none before ls = .ok ()
  | [], _, _ => rfl
  | l :: ls, before, h => by
    obtain ⟨hs, -, hr⟩ := linksCheck_cons h
    rw [linksCheck, if_neg hs]
    exact linksCheck_none hr

/-- **What passes at commit passes when the log is read back.** -/
theorem knowledgeValidate_none (h : knowledgeValidate D t k r g = .ok ()) (t' : Table)
    (k' : Knowledge) : knowledgeValidate D t' k' none g = .ok () := by
  obtain ⟨hs, hl⟩ := knowledgeValidate_ok h
  exact hs.validate (linksCheck_none hl)

theorem linkTarget_avoids {x : Record} {l : RawLink} (h : linkTarget D t k l x = .ok ())
    (hk : l.kind = 0) {id : Bytes} (hid : l.recordId = some id) :
    ¬ ReflTransGen (Supports k) id x.id := by
  unfold linkTarget at h
  rw [hid] at h
  dsimp only at h
  split at h
  · cases h
  · split at h
    · cases h
    · split at h
      · cases h
      · split at h
        · cases h
        · next hr => exact reaches_sound (Bool.eq_false_of_not_eq_true fun hn => hr ⟨hk, hn⟩)

theorem linksCheck_avoids {x : Record} : ∀ {ls : List RawLink} {before : List (Option Bytes)},
    linksCheck D t k (some x) before ls = .ok () → ∀ l ∈ ls, l.kind = 0 →
      ∀ id, l.recordId = some id → ¬ ReflTransGen (Supports k) id x.id
  | [], _, _, _, hl => absurd hl List.not_mem_nil
  | l :: ls, before, h, l', hl' => by
    obtain ⟨-, ht, hr⟩ := linksCheck_cons h
    rcases List.mem_cons.1 hl' with rfl | hl'
    · exact fun hk id hid => linkTarget_avoids (ht x rfl) hk hid
    · exact linksCheck_avoids hr l' hl'

/-- **From what a record is supported by**, the supports on file do not lead back to it. -/
theorem knowledgeValidate_avoids {x : Record} (h : knowledgeValidate D t k (some x) g = .ok ())
    {l : RawLink} (hl : l ∈ g.links) (hk : l.kind = 0) {id : Bytes} (hid : l.recordId = some id) :
    ¬ ReflTransGen (Supports k) id x.id :=
  linksCheck_avoids (knowledgeValidate_ok h).2 l hl hk id hid

end

/-! ## Reading what the host gives -/

theorem RelationKind.code_ofCode {n : Int} {kind : RelationKind} (h : RelationKind.ofCode n = some kind) :
    (kind.code : Int) = n := by
  unfold RelationKind.ofCode at h
  split at h
  · next hn => cases h; exact hn.symm
  · split at h
    · next hn => cases h; exact hn.symm
    · split at h
      · next hn => cases h; exact hn.symm
      · cases h

theorem mapM_map_back {α β : Type} {f : α → Option β} {g : β → α} (h : ∀ a b, f a = some b → g b = a) :
    ∀ {as : List α} {bs : List β}, as.mapM f = some bs → bs.map g = as
  | [], bs, hm => by
    cases hm
    rfl
  | a :: as, bs, hm => by
    rw [List.mapM_cons] at hm
    obtain ⟨b, hb, hm⟩ := option_bind_some hm
    obtain ⟨bs', hbs, hm⟩ := option_bind_some hm
    cases hm
    rw [List.map_cons, h a b hb, mapM_map_back h hbs]

/-- A grounding of the store is the one the host gave. -/
theorem RawGrounding.read_raw {g : RawGrounding} {g' : Grounding} (h : g.read = some g')
    (hr : g.revoked = 0 ∨ g.revoked = 1) : g'.raw = g := by
  unfold read at h
  obtain ⟨ss, hs, h⟩ := option_bind_some h
  obtain ⟨ds, hd, h⟩ := option_bind_some h
  obtain ⟨ls, hl, h⟩ := option_bind_some h
  obtain ⟨reason, hreason, h⟩ := option_bind_some h
  cases h
  have h1 := mapM_map_back (g := fun s : SourceSpan => (⟨some s.scope, some s.eventId, s.sequence,
    s.sourceBegin, s.sourceEnd, s.claimBegin, s.claimEnd⟩ : RawSpan)) (fun a b hab => by
      obtain ⟨scope, hscope, hab⟩ := option_bind_some hab
      obtain ⟨event, hevent, hab⟩ := option_bind_some hab
      cases hab
      rw [← hscope, ← hevent]) hs
  have h2 := mapM_map_back (g := fun d : Dependency => (⟨some d.resource, some d.version⟩ :
    RawDependency)) (fun a b hab => by
      obtain ⟨resource, hresource, hab⟩ := option_bind_some hab
      obtain ⟨version, hversion, hab⟩ := option_bind_some hab
      cases hab
      rw [← hresource, ← hversion]) hd
  have h3 := mapM_map_back (g := fun l : KnowledgeLink => (⟨l.kind.code, some l.recordId,
    some l.contentSha256⟩ : RawLink)) (fun a b hab => by
      obtain ⟨kind, hkind, hab⟩ := option_bind_some hab
      obtain ⟨id, hid, hab⟩ := option_bind_some hab
      obtain ⟨hash, hhash, hab⟩ := option_bind_some hab
      cases hab
      rw [← hid, ← hhash, RelationKind.code_ofCode hkind]) hl
  have hrev : ((decide (g.revoked ≠ 0)).toNat : Int) = g.revoked := by
    rcases hr with hr | hr <;> rw [hr] <;> rfl
  unfold Grounding.raw
  rw [h1, h2, h3, ← hreason]
  dsimp only
  rw [hrev]

/-! ## Texts -/

theorem textOk_utf8 {s : Bytes} {allowEmpty : Bool} (h : textOk (some s) allowEmpty = true) :
    utf8Valid s = true := by
  unfold textOk at h
  exact ((Bool.and_eq_true _ _).mp h).2

theorem dependenciesCheck_mem : ∀ {ds : List RawDependency} {before : List (Option Bytes)},
    dependenciesCheck before ds = true →
      ∀ d ∈ ds, textOk d.resource false = true ∧ textOk d.version false = true
  | [], _, _, _, hd => absurd hd List.not_mem_nil
  | d :: ds, before, h, d', hd' => by
    simp only [dependenciesCheck, Bool.and_eq_true] at h
    rcases List.mem_cons.1 hd' with rfl | hd'
    · exact h.1.1
    · exact dependenciesCheck_mem h.2 d' hd'

theorem linksCheck_mem {D : Digest} {t : Table} {k : Knowledge} {r : Option Record} :
    ∀ {ls : List RawLink} {before : List (Option Bytes)}, linksCheck D t k r before ls = .ok () →
      ∀ l ∈ ls, textOk l.recordId false = true ∧ textOk l.contentSha256 false = true
  | [], _, _, _, hl => absurd hl List.not_mem_nil
  | l :: ls, before, h, l', hl' => by
    obtain ⟨hs, -, hr⟩ := linksCheck_cons h
    rcases List.mem_cons.1 hl' with rfl | hl'
    · simp only [linkShape, not_or, Bool.not_eq_false] at hs
      exact ⟨hs.2.2.1, hs.2.2.2.2.1⟩
    · exact linksCheck_mem hr l' hl'

/-- The texts of a grounding that passes are UTF-8. -/
theorem knowledgeValidate_utf8 {D : Digest} {t : Table} {k : Knowledge} {r : Option Record}
    {g : Grounding} (h : knowledgeValidate D t k r g.raw = .ok ()) : g.Utf8 := by
  obtain ⟨hs, hl⟩ := knowledgeValidate_ok h
  refine ⟨fun s hm => ?_, fun d hm => ?_, fun l hm => ?_, textOk_utf8 hs.reason⟩
  · have hc := List.all_eq_true.1 hs.sources.2 _ (List.mem_map_of_mem hm)
    simp only [spanCheck, Bool.and_eq_true] at hc
    exact ⟨textOk_utf8 hc.1.1.1.1.1.1.1, textOk_utf8 hc.1.1.1.1.1.2⟩
  · obtain ⟨h1, h2⟩ := dependenciesCheck_mem hs.dependencies.2 _ (List.mem_map_of_mem hm)
    exact ⟨textOk_utf8 h1, textOk_utf8 h2⟩
  · obtain ⟨h1, h2⟩ := linksCheck_mem hl _ (List.mem_map_of_mem hm)
    exact ⟨textOk_utf8 h1, textOk_utf8 h2⟩

end Asper
