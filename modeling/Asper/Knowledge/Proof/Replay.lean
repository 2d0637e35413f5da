import Asper.Lib.Versions
import Asper.Knowledge.Proof.Validate
import Asper.Event.Proof.Log
import Asper.Source.Proof.Touch

/-! # The log of groundings is read back

`GoodLog D es`: the entries `es` could be committed one after the other. A store that `Recalls` them
has the last entry of each id and rests on supports without a cycle (`GoodLog.acyclic`); a log
with them can be opened, and the store then recalls them (`knowledgeOpen_run`). -/

namespace Asper

open Durable
open Relation

/-- The entry as the log has it. -/
def KnowledgeEntry.bare (e : KnowledgeEntry) : KnowledgeEntry := { e with sourcesOk := false }

/-- The last entry of an id. -/
abbrev latestEntry (es : List KnowledgeEntry) (id : Bytes) : Option KnowledgeEntry :=
  latest KnowledgeEntry.id es id

theorem latestEntry_concat (es : List KnowledgeEntry) (e : KnowledgeEntry) (id : Bytes) :
    latestEntry (es ++ [e]) id = if e.id = id then some e else latestEntry es id :=
  latest_concat es e id

/-- The last entry of `a` rests on `b`. -/
def SupportsIn (es : List KnowledgeEntry) (a b : Bytes) : Prop :=
  ∃ e, latestEntry es a = some e ∧ ∃ l ∈ e.grounding.links, l.kind = .supports ∧ l.recordId = b

/-- What is checked of an entry that comes after `es`. -/
structure NextEntry (D : Digest) (es : List KnowledgeEntry) (e : KnowledgeEntry) : Prop where
  fits : e.Fits D
  bare : e.sourcesOk = false
  sound : ∀ t k, knowledgeValidate D t k none e.grounding.raw = .ok ()
  revision : e.revision = nextRev KnowledgeEntry.id KnowledgeEntry.revision es e.id
  room : latestEntry es e.id = none → keys KnowledgeEntry.id es < knowledgeRecords
  avoids : ∀ l ∈ e.grounding.links, l.kind = .supports →
    ¬ ReflTransGen (SupportsIn es) l.recordId e.id

inductive GoodLog (D : Digest) : List KnowledgeEntry → Prop where
  | nil : GoodLog D []
  | snoc {es : List KnowledgeEntry} {e : KnowledgeEntry} (h : GoodLog D es)
      (he : NextEntry D es e) : GoodLog D (es ++ [e])

/-- The store has the last entry of each id. -/
structure Recalls (k : Knowledge) (es : List KnowledgeEntry) : Prop where
  find : ∀ id, (knowledgeFind k id).map KnowledgeEntry.bare = latestEntry es id
  size : k.entries.length = keys KnowledgeEntry.id es

section
variable {D : Digest} {k : Knowledge} {es : List KnowledgeEntry} {e : KnowledgeEntry}

theorem GoodLog.versioned (h : GoodLog D es) :
    Versioned KnowledgeEntry.id KnowledgeEntry.revision es := by
  induction h with
  | nil => exact .nil
  | snoc _ he ih => exact ih.snoc he.revision

theorem GoodLog.split (h : GoodLog D (es ++ [e])) : GoodLog D es ∧ NextEntry D es e := by
  generalize hl : es ++ [e] = l at h
  cases h with
  | nil => simp at hl
  | snoc h he =>
    obtain ⟨rfl, h'⟩ := List.append_inj' hl rfl
    rw [← List.singleton_inj.1 h'] at he
    exact ⟨h, he⟩

theorem GoodLog.take {es' : List KnowledgeEntry} (h : GoodLog D (es ++ es')) : GoodLog D es := by
  induction es' using List.reverseRecOn with
  | nil => rwa [List.append_nil] at h
  | append_singleton es' e ih =>
    rw [← List.append_assoc] at h
    exact ih h.split.1

/-- **The supports of the last entries** have no cycle. -/
theorem GoodLog.acyclic (h : GoodLog D es) : Acyclic (SupportsIn es) := by
  induction h with
  | nil =>
    intro a ha
    obtain ⟨b, hab, -⟩ := TransGen.head'_iff.1 ha
    obtain ⟨e, he, -⟩ := hab
    cases he
  | @snoc es e _ he ih =>
    refine ih.redirect (r := e.id) (fun a b ha hab => ?_) fun b hb => ?_
    · obtain ⟨e', he', hl⟩ := hab
      rw [latestEntry_concat, if_neg (Ne.symm ha)] at he'
      exact ⟨e', he', hl⟩
    · obtain ⟨e', he', l, hl, hk, rfl⟩ := hb
      rw [latestEntry_concat, if_pos rfl] at he'
      cases he'
      exact he.avoids l hl hk

/-! ## A store that recalls a log -/

theorem Recalls.supports (h : Recalls k es) (a b : Bytes) : Supports k a b ↔ SupportsIn es a b := by
  unfold Supports SupportsIn
  rw [← h.find a]
  constructor
  · rintro ⟨e, he, hl⟩
    exact ⟨e.bare, by rw [he]; rfl, hl⟩
  · rintro ⟨e, he, hl⟩
    obtain ⟨e', he', rfl⟩ := Option.map_eq_some_iff.1 he
    exact ⟨e', he', hl⟩

theorem Recalls.supports_eq (h : Recalls k es) : Supports k = SupportsIn es :=
  funext fun a => funext fun b => propext (h.supports a b)

theorem Recalls.revision (h : Recalls k es) (id : Bytes) :
    ((knowledgeFind k id).map (·.revision)).getD 0 =
      ((latestEntry es id).map (·.revision)).getD 0 := by
  rw [← h.find id, Option.map_map]
  rfl

theorem Recalls.isNone (h : Recalls k es) (id : Bytes) :
    (knowledgeFind k id).isNone = (latestEntry es id).isNone := by
  rw [← h.find id, Option.isNone_map]

theorem Recalls.empty : Recalls Knowledge.empty [] := by
  refine ⟨fun id => ?_, rfl⟩
  cases hf : knowledgeFind Knowledge.empty id with
  | none => rfl
  | some e => exact absurd (knowledgeFind_eq_some.1 hf).1 List.not_mem_nil

/-- Stores with the same entries, up to the state of their sources. -/
theorem Recalls.congr {k' : Knowledge} (h : Recalls k es)
    (hf : ∀ id, (knowledgeFind k' id).map KnowledgeEntry.bare =
      (knowledgeFind k id).map KnowledgeEntry.bare)
    (hl : k'.entries.length = k.entries.length) : Recalls k' es :=
  ⟨fun id => (hf id).trans (h.find id), hl.trans h.size⟩

theorem length_replace (k : Knowledge) (e : KnowledgeEntry) (he : uuidValid e.id = true) :
    (k.replace e he).entries.length =
      if knowledgeFind k e.id = none then k.entries.length + 1 else k.entries.length := by
  have hle : k.lowerBound e.id ≤ k.entries.length := (Search.lowerBound_within (k.splits e.id)).len
  show (k.entries.take (k.lowerBound e.id) ++ e :: k.entries.drop (k.upperBound e.id)).length = _
  rw [List.length_append, List.length_cons, List.length_take, List.length_drop]
  unfold Knowledge.upperBound
  cases hf : knowledgeFind k e.id with
  | none =>
    rw [if_pos rfl, if_neg (show ¬ (none : Option KnowledgeEntry).isSome = true from Bool.noConfusion)]
    omega
  | some x =>
    rw [if_neg (Option.some_ne_none x), if_pos (show (some x).isSome = true from rfl)]
    have hlt : k.lowerBound e.id < k.entries.length := by
      unfold knowledgeFind at hf
      split at hf
      · next he => exact (List.getElem?_eq_some_iff.1 he).1
      · cases hf
    omega

/-- Storing the next entry. -/
theorem Recalls.store (h : Recalls k es) (he : uuidValid e.id = true) (hb : e.sourcesOk = false)
    (ok : Bool) : Recalls (k.store { e with sourcesOk := ok }) (es ++ [e]) := by
  have hbare : KnowledgeEntry.bare { e with sourcesOk := ok } = e := by
    cases e
    simp_all [KnowledgeEntry.bare]
  rw [Knowledge.store, dif_pos he]
  constructor
  · intro id
    rw [latestEntry_concat]
    split
    · next hid =>
      subst hid
      rw [Knowledge.find_replace_self k { e with sourcesOk := ok } he]
      exact congrArg some hbare
    · next hid =>
      have hf := k.find_replace_other (e := { e with sourcesOk := ok }) he (Ne.symm hid)
      exact (congrArg _ hf).trans (h.find id)
  · have hn : knowledgeFind k e.id = none ↔ latestEntry es e.id = none := by
      rw [← h.find, Option.map_eq_none_iff]
    rw [length_replace, keys_concat, h.size]
    exact if_congr hn rfl rfl

end

/-! ## The log on the disk -/

def knowledgeName : Bytes := ascii "knowledge.events"

/-- The event logs the entry. -/
structure Logged (J : JsonText) (D : Digest) (event : Event) (e : KnowledgeEntry) : Prop where
  kind : event.kind = .diagnostic
  wrote : ∃ text, knowledgeEncode J e = some text ∧ event.text = text.val
  text : knowledgeDecode J D false event.text = .ok e

/-- The log has the events. -/
def KeepsLog (D : Digest) (events : List Event) (d : Disk) : Prop :=
  ∃ t, LogAt D d [] knowledgeName events t

/-- The log has the entries. -/
def LogHolds (J : JsonText) (D : Digest) (d : Disk) (es : List KnowledgeEntry) : Prop :=
  ∃ events, KeepsLog D events d ∧ List.Forall₂ (Logged J D) events es

theorem not_sourceArea_log {p : Path} (h : p ∈ logFiles [] knowledgeName) : ¬ sourceArea p := by
  have hne : ∀ x ∈ [knowledgeName, knowledgeName ++ ascii ".idx",
      knowledgeName ++ ascii ".idx" ++ ascii ".tmp"], x ≠ ascii "scopes" ∧ x ≠ ascii "objects" := by
    decide
  rw [logFiles, indexPath_concat, indexTmp_concat] at h
  simp only [List.nil_append] at h
  obtain ⟨x, hx, rfl⟩ : ∃ x ∈ [knowledgeName, knowledgeName ++ ascii ".idx",
      knowledgeName ++ ascii ".idx" ++ ascii ".tmp"], p = [x] := by
    simp only [List.mem_cons, List.not_mem_nil, or_false] at h
    rcases h with rfl | rfl | rfl <;> simp
  rintro (⟨q, hq⟩ | hq | ⟨n, hq⟩)
  · exact (hne x hx).1 (List.cons.inj hq).1
  · exact (hne x hx).2 (List.cons.inj hq).1
  · exact absurd (congrArg List.length hq) (by simp [objectsDir])

section
variable {J : JsonText} {D : Digest} {t : Table} {k : Knowledge} {d d' : Disk}
  {events : List Event} {es : List KnowledgeEntry}

/-- Changes elsewhere leave the log. -/
theorem KeepsLog.congr (h : KeepsLog D events d)
    (hf : ∀ p ∈ logFiles [] knowledgeName, d' p = d p) : KeepsLog D events d' :=
  h.imp fun _ h => h.congr rfl hf

theorem LogHolds.congr (h : LogHolds J D d es)
    (hf : ∀ p ∈ logFiles [] knowledgeName, d' p = d p) : LogHolds J D d' es :=
  h.imp fun _ h => ⟨h.1.congr hf, h.2⟩

/-- Wherever the writes stop, the log has the events. -/
abbrev LogStays (D : Digest) (events : List Event) (d : Disk) (ws : List Write) : Prop :=
  Steps (fun _ _ => False) d ws (KeepsLog D events) (KeepsLog D events)

/-- What stays in the files of the scopes leaves the log. -/
theorem source_logStays {α : Type} {m : Io α} (hm : Act.Confined sourceArea m)
    (h : KeepsLog D events d) : LogStays D events d (m.writes d) where
  crash hc _ := h.congr fun _ hp => hm.crash_other hc (not_sourceArea_log hp)
  final := h.congr fun _ hp => hm.final_other d (not_sourceArea_log hp)

theorem confined_spanSource (s : SourceSpan) : Act.Confined sourceArea (spanSource D s) := by
  refine .bind (confined_require _) fun _ =>
    .bind (confined_eventPage D (scopeIn_source s.scope) [] _ 1) fun (es, next) => ?_
  dsimp only
  split
  · exact confined_require _
  · exact .fail _

theorem confined_knowledgeSources (g : Grounding) :
    Act.Confined sourceArea (knowledgeSources D g) := by
  unfold knowledgeSources
  induction g.sources with
  | nil => exact .pure _
  | cons s ss ih => exact .bind (confined_spanSource s) fun _ => ih

/-! ## Opening -/

theorem openEntry_ok (hr : Recalls k es) {e : KnowledgeEntry} {event : Event}
    (hl : Logged J D event e) (he : NextEntry D es e) : openEntry J D t k event = .ok e := by
  have hrev : ((knowledgeFind k e.id).map (·.revision + 1)).getD 1 =
      nextRev KnowledgeEntry.id KnowledgeEntry.revision es e.id := by
    rw [nextRev, ← hr.revision e.id]
    cases knowledgeFind k e.id <;> rfl
  unfold openEntry
  rw [if_neg (not_not.2 hl.kind), hl.text]
  show (knowledgeValidate D t k none e.grounding.raw >>= _) = _
  rw [he.sound t k]
  dsimp only [bind, Except.bind]
  rw [hrev, if_neg (not_not.2 he.revision)]
  split
  · next hn =>
    rw [hr.isNone, Option.isNone_iff_eq_none] at hn
    unfold knowledgeReserve
    rw [hr.size, if_neg (Nat.not_le.2 (he.room hn))]
    rfl
  · rfl

theorem openEvents_run :
    ∀ {evs : List Event} {es' es : List KnowledgeEntry} {k : Knowledge} {d : Disk},
      KeepsLog D events d → List.Forall₂ (Logged J D) evs es' → Recalls k es →
      GoodLog D (es ++ es') →
      ∃ ws k', openEvents J D t evs k d = ⟨ws, .ok k'⟩ ∧ Recalls k' (es ++ es') ∧
        LogStays D events d ws
  | [], _, es, k, d, h, .nil, hr, _ => ⟨[], k, rfl, by rwa [List.append_nil], .nil h h⟩
  | event :: evs, e :: es', es, k, d, h, .cons hl hls, hr, hg => by
    have hg' : GoodLog D (es ++ [e] ++ es') := by rwa [List.append_assoc]
    have he := hg'.take.split.2
    have hs := source_logStays (confined_knowledgeSources (D := D) e.grounding) h
    obtain ⟨ws, k', hrun, hr', hstay⟩ := openEvents_run hs.final hls
      (hr.store he.fits.id.1 he.bare ((knowledgeSources D e.grounding).result d).isOk) hg'
    refine ⟨(knowledgeSources D e.grounding).writes d ++ ws, k', ?_, ?_, hs.append hstay⟩
    · have hlift : (Act.lift (openEntry J D t k event) : Io KnowledgeEntry) d = ⟨[], .ok e⟩ := by
        rw [openEntry_ok hr hl he]
        rfl
      have hsources : (knowledgeSources D e.grounding).attempt d =
          ⟨(knowledgeSources D e.grounding).writes d, .ok ((knowledgeSources D e.grounding).result d)⟩ :=
        Act.attempt_run rfl
      exact Act.bind_run_run (w := []) hlift (Act.bind_run_run hsources hrun)
    · rwa [List.append_assoc] at hr'

theorem LogRun.stays {ws : List Write}
    (h : LogRun d [] knowledgeName ws (KeepsLog D events) fun d' => LogAt D d' [] knowledgeName events []) :
    LogStays D events d ws := ⟨fun hc _ => h.crash hc, ⟨[], h.final⟩⟩

theorem openPages_run (hl : List.Forall₂ (Logged J D) events es) (hg : GoodLog D es) :
    ∀ {fuel next : Nat} {k : Knowledge} {d : Disk}, KeepsLog D events d →
      Recalls k (es.take next) → events.length - next < fuel →
      ∃ ws k', openPages J D t fuel next k d = ⟨ws, .ok k'⟩ ∧ Recalls k' es ∧
        LogStays D events d ws
  | 0, _, _, _, _, _, hf => absurd hf (Nat.not_lt_zero _)
  | fuel + 1, next, k, d, ⟨tail, h⟩, hr, hf => by
    have hlen := hl.length_eq
    obtain ⟨ws, hpage, hrun⟩ := eventLogPage_run h next knowledgePage
    have hstay := hrun.stays
    -- the entries of the page
    have hpl : List.Forall₂ (Logged J D) ((events.drop next).take knowledgePage)
        ((es.drop next).take knowledgePage) := List.forall₂_take _ (List.forall₂_drop _ hl)
    have htake : es.take next ++ (es.drop next).take knowledgePage =
        es.take (next + ((events.drop next).take knowledgePage).length) := by
      rw [List.take_add, hpl.length_eq, List.length_take, ← List.take_eq_take_min]
    have hgood : GoodLog D (es.take next ++ (es.drop next).take knowledgePage) := by
      rw [htake]
      have hall := List.take_append_drop (next + ((events.drop next).take knowledgePage).length) es
      exact GoodLog.take (hall.symm ▸ hg)
    obtain ⟨vs, k', hev, hr', hstay'⟩ := openEvents_run (t := t) hstay.final hpl hr hgood
    by_cases he : (events.drop next).take knowledgePage = []
    · have hdone : events.length ≤ next := by
        rw [List.take_eq_nil_iff, List.drop_eq_nil_iff] at he
        exact he.resolve_left (by decide)
      refine ⟨ws ++ vs, k', ?_, ?_, hstay.append hstay'⟩
      · have hend : (if (events.drop next).take knowledgePage = [] then pure k' else
            openPages J D t fuel (next + ((events.drop next).take knowledgePage).length) k' :
            Io Knowledge) (applyAll vs (applyAll ws d)) = ⟨[], .ok k'⟩ := by
          rw [if_pos he]
          rfl
        have hrest : openPages J D t (fuel + 1) next k d = ⟨ws ++ (vs ++ []), .ok k'⟩ :=
          Act.bind_run_run hpage (Act.bind_run_run hev hend)
        rwa [List.append_nil] at hrest
      · rwa [htake, List.take_of_length_le (by omega)] at hr'
    · have hpos : 0 < ((events.drop next).take knowledgePage).length := List.length_pos_of_ne_nil he
      have hle : ((events.drop next).take knowledgePage).length ≤ events.length - next := by
        rw [List.length_take, List.length_drop]
        exact Nat.min_le_right _ _
      rw [htake] at hr'
      have hf' : events.length - (next + ((events.drop next).take knowledgePage).length) < fuel := by
        omega
      obtain ⟨us, k'', hrest, hr'', hstay''⟩ := openPages_run hl hg hstay'.final hr' hf'
      refine ⟨ws ++ (vs ++ us), k'', ?_, hr'', hstay.append (hstay'.append hstay'')⟩
      have hgo : (if (events.drop next).take knowledgePage = [] then pure k' else
          openPages J D t fuel (next + ((events.drop next).take knowledgePage).length) k' :
          Io Knowledge) (applyAll vs (applyAll ws d)) = ⟨us, .ok k''⟩ := by
        rw [if_neg he]
        exact hrest
      exact Act.bind_run_run hpage (Act.bind_run_run hev hgo)

theorem revalidated_bare (e : KnowledgeEntry) : (revalidated D t k e).bare = e.bare := by
  unfold revalidated
  split
  · rfl
  · split <;> rfl

theorem find_revalidate (id : Bytes) :
    knowledgeFind (k.revalidate D t) id = (knowledgeFind k id).map (revalidated D t k) := by
  refine Option.ext fun x => ?_
  rw [knowledgeFind_eq_some, Option.map_eq_some_iff]
  constructor
  · rintro ⟨hx, rfl⟩
    obtain ⟨e, he, rfl⟩ := List.mem_map.1 hx
    exact ⟨e, knowledgeFind_eq_some.2 ⟨he, (revalidated_id D t k e).symm⟩, rfl⟩
  · rintro ⟨e, he, rfl⟩
    obtain ⟨hm, hid⟩ := knowledgeFind_eq_some.1 he
    exact ⟨List.mem_map.2 ⟨e, hm, rfl⟩, (revalidated_id D t k e).trans hid⟩

theorem Recalls.revalidate (h : Recalls k es) : Recalls (k.revalidate D t) es :=
  h.congr (fun id => by
    rw [find_revalidate, Option.map_map]
    congr 1
    exact funext fun e => revalidated_bare e) (List.length_map _)

/-- **A log of good entries can be opened**, and the store recalls them. -/
theorem knowledgeOpen_run (h : KeepsLog D events d) (hl : List.Forall₂ (Logged J D) events es)
    (hg : GoodLog D es) :
    ∃ ws k', knowledgeOpen J D t d = ⟨ws, .ok k'⟩ ∧ Recalls k' es ∧ LogStays D events d ws := by
  have hfuel : events.length - 0 < eventLogBytes + 1 := by
    obtain ⟨tail, h⟩ := h
    have h1 := h.size
    have h2 := length_le_logBytes D events
    rw [List.length_append] at h1
    omega
  have h0 : Recalls Knowledge.empty (es.take 0) := Recalls.empty
  obtain ⟨ws, k', hrun, hr, hstay⟩ := openPages_run (t := t) hl hg h h0 hfuel
  refine ⟨ws, k'.revalidate D t, ?_, hr.revalidate, hstay⟩
  rw [knowledgeOpen, Act.bind_run_run hrun rfl, List.append_nil]

end

end Asper
