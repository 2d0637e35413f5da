import Asper.Knowledge.Grounding
import Asper.Knowledge.Proof.Replay

/-! # Groundings over time

`Grounded`: the log has good entries, which the store in memory recalls; a store whose append
failed may lack the last of them. Every step keeps this (`step_grounded`). -/

namespace Asper

open Durable
open Relation

section
variable {J : JsonText} {D : Digest} {t : Table} {k : Knowledge} {d : Disk} {w : GroundDraw}
  {poisoned : Bool} {c : GroundCall} {e : KnowledgeEntry} {text : CStr}

/-! ## Up to the append -/

theorem groundCheck_ok {id hash : Bytes} {expected : Nat} {g : GroundingInput} {r : Record}
    {g' : Grounding} (h : groundCheck D poisoned t k id hash expected g = .ok (r, g')) :
    t.get id = some r ∧ expected = ((knowledgeFind k id).map (·.revision)).getD 0 ∧
      knowledgeValidate D t k (some r) g.val = .ok () ∧ g.val.read = some g' := by
  unfold groundCheck at h
  split at h
  · cases h
  · split at h
    · cases h
    · next r' hr =>
      split at h
      · cases h
      · split at h
        · cases h
        · next hex =>
          split at h
          · cases h
          · split at h
            · cases h
            · cases h
            · next u g'' hv hg =>
              cases h
              exact ⟨hr, not_not.1 hex, hv, hg⟩

theorem groundCopy_ok (hJ : J.RoundTrips) {id hash : Bytes} {expected : Nat} {r : Record}
    {g : Grounding} (h : groundCopy J D w id hash expected r g = .ok e) :
    e = ⟨id, hash, r.content, expected + 1, g, false⟩ ∧ e.Fits D := by
  unfold groundCopy at h
  split at h
  · cases h
  · next text ht =>
    split at ht
    · cases ht
    · exact ⟨knowledgeDecode_same hJ ht h, (knowledgeDecode_fits h).1⟩

theorem commitText_ok (h : commitText J w k e = .ok text) :
    k.poisoned = false ∧ knowledgeEncode J e = some text ∧
      (knowledgeFind k e.id = none → k.entries.length < knowledgeRecords) := by
  unfold commitText at h
  split at h
  · cases h
  · next hp =>
    split at h
    · cases h
    · next hreserve =>
      split at h
      · cases h
      · next htext =>
        cases h
        split at htext
        · cases htext
        · refine ⟨Bool.eq_false_of_not_eq_true hp, htext, fun hf => ?_⟩
          rw [hf, if_pos (show (none : Option KnowledgeEntry).isNone = true from rfl)] at hreserve
          unfold knowledgeReserve at hreserve
          split at hreserve
          · cases hreserve
          · next hr => exact Nat.lt_of_not_le hr

/-- What the checks of a call say of the entry and its text. -/
structure Prepared (J : JsonText) (D : Digest) (t : Table) (k : Knowledge) (c : GroundCall)
    (e : KnowledgeEntry) (text : CStr) : Prop where
  record : ∃ r, t.get e.id = some r ∧ e.content = r.content ∧
    knowledgeValidate D t k (some r) e.grounding.raw = .ok ()
  id : e.id = c.id.val
  revision : e.revision = c.expected + 1
  expected : c.expected = ((knowledgeFind k e.id).map (·.revision)).getD 0
  fits : e.Fits D
  bare : e.sourcesOk = false
  sound : k.poisoned = false
  text : knowledgeEncode J e = some text
  room : knowledgeFind k e.id = none → k.entries.length < knowledgeRecords

theorem groundPrepare_ok (hJ : J.RoundTrips)
    (h : (groundPrepare J D w poisoned t k c).result d = .ok (e, text)) :
    Prepared J D t k c e text := by
  obtain ⟨_, -, h⟩ := Act.bind_eq_ok h
  obtain ⟨⟨r, g⟩, hcheck, h⟩ := Act.bind_eq_ok h
  obtain ⟨_, -, h⟩ := Act.bind_eq_ok h
  obtain ⟨e', hcopy, h⟩ := Act.bind_eq_ok h
  obtain ⟨text', hcommit, h⟩ := Act.bind_eq_ok h
  cases h
  obtain ⟨hr, hex, hv, hread⟩ := groundCheck_ok hcheck
  obtain ⟨rfl, hfits⟩ := groundCopy_ok hJ hcopy
  obtain ⟨hp, htext, hroom⟩ := commitText_ok hcommit
  have hraw : g.raw = c.grounding.val :=
    RawGrounding.read_raw hread (knowledgeValidate_ok hv).1.revoked
  exact ⟨⟨r, hr, rfl, hraw ▸ hv⟩, rfl, rfl, hex, hfits, rfl, hp, htext, hroom⟩

theorem confined_groundPrepare :
    Act.Confined sourceArea (groundPrepare J D w poisoned t k c) := by
  refine .bind (confined_require _) fun _ => .bind (.lift _) fun (r, g) => ?_
  exact .bind (confined_knowledgeSources g) fun _ => .bind (.lift _) fun _ =>
    .bind (.lift _) fun _ => .pure _

/-- The entry of a call may come next. -/
theorem Prepared.next {es : List KnowledgeEntry} (h : Prepared J D t k c e text)
    (hk : Recalls k es) : NextEntry D es e := by
  obtain ⟨r, hr, -, hv⟩ := h.record
  refine ⟨h.fits, h.bare, knowledgeValidate_none hv, ?_, fun hn => ?_, fun l hl hkind => ?_⟩
  · rw [h.revision, h.expected, hk.revision]
    rfl
  · have := h.room (by rwa [← hk.find, Option.map_eq_none_iff] at hn)
    rwa [hk.size] at this
  · have hmem : (⟨l.kind.code, some l.recordId, some l.contentSha256⟩ : RawLink) ∈
        e.grounding.raw.links := List.mem_map.2 ⟨l, hl, rfl⟩
    have ha := knowledgeValidate_avoids hv hmem (by rw [hkind]; rfl) rfl
    rwa [hk.supports_eq, Table.get_id hr] at ha

/-! ## The append -/

theorem Prepared.fields (hU : J.WritesUtf8) (ht : t.Utf8) (h : Prepared J D t k c e text)
    (hs : text.val.length ≤ eventBytes) : (knowledgeEvent w text).Fields where
  at_ge := w.now.2.1
  at_lt := w.now.2.2
  id_valid := w.id.valid
  object := .inl rfl
  no_nul := text.2
  utf8 := by
    obtain ⟨r, hr, hc, hv⟩ := h.record
    exact knowledgeEncode_utf8 hU h.fits (hc ▸ ht _ _ hr) (knowledgeValidate_utf8 hv) h.text
  size := hs

theorem Prepared.logged (hJ : J.RoundTrips) (h : Prepared J D t k c e text) (w : GroundDraw)
    (events : List Event) : Logged J D (nextEvent events (knowledgeEvent w text)) e where
  kind := rfl
  wrote := ⟨text, h.text, rfl⟩
  text := by
    have hd := knowledgeDecode_encode hJ h.fits h.text
    have he : { e with sourcesOk := false } = e := by
      rw [← h.bare]
    rwa [he] at hd

/-- The append extends the log or fails, and stopped anywhere leaves the log as it was or
extended. -/
theorem groundAppend_run {events : List Event} (hlog : KeepsLog D events d)
    (hf : text.val.length ≤ eventBytes → (knowledgeEvent w text).Fields) :
    (∃ ws, groundAppend D w (e, text) d = ⟨ws, .ok (nextEvent events (knowledgeEvent w text))⟩ ∧
      LogRun d [] knowledgeName ws
        (fun d' => KeepsLog D events d' ∨
          LogAt D d' [] knowledgeName (events ++ [nextEvent events (knowledgeEvent w text)]) [])
        fun d' =>
          LogAt D d' [] knowledgeName (events ++ [nextEvent events (knowledgeEvent w text)]) []) ∨
    ∃ ws, groundAppend D w (e, text) d = ⟨ws, .error .invalid⟩ ∧
      LogRun d [] knowledgeName ws (KeepsLog D events) fun d' =>
        LogAt D d' [] knowledgeName events [] := by
  obtain ⟨tail, hat⟩ := hlog
  by_cases hroom : text.val.length ≤ eventBytes ∧
      (logBytes D events).length + text.val.length + 512 ≤ eventLogBytes
  · exact .inl (eventLogAppend_run hat (hf hroom.1) hroom.2)
  · exact .inr (eventLogAppend_full (e := knowledgeEvent w text) hat
      (by show eventBytes < text.val.length ∨ _ < _ + text.val.length + 512; omega))

/-- A log that ends in a cut frame does not end in a whole one. -/
theorem KeepsLog.not_extended {events : List Event} {event : Event} {d' : Disk}
    (h : KeepsLog D events d)
    (h' : LogAt D d' [] knowledgeName (events ++ [event]) []) :
    d knowledgeFile ≠ d' knowledgeFile := by
  obtain ⟨tail, h⟩ := h
  intro heq
  have hbytes := h'.data_log
  have hok : event.Ok := (LogOk.append.1 h'.ok).2.1
  rw [Disk.data_congr (show d' ([] ++ [knowledgeName]) = d ([] ++ [knowledgeName]) from heq.symm),
    h.data_log, List.append_nil, logBytes_append, List.append_cancel_left_eq, logBytes_cons,
    logBytes_nil] at hbytes
  have htorn := h.torn
  rw [hbytes, frameRead_frameBytes D hok] at htorn
  cases htorn

theorem commitAppend_ok {event : Event} (h : (groundAppend D w (e, text)).result d = .ok event) :
    (commitAppend D w k e text).result d = .ok (k.store { e with sourcesOk := true }, none) := by
  have h' : (eventLogAppend D knowledgeFile (knowledgeEvent w text)).result d = .ok event := h
  rw [commitAppend, Act.result_attempt_bind, h']
  rfl

/-- A call that runs to its end is one of the calls in which something may fail. -/
theorem ground_outcome {σ : Grounds} {k' : Knowledge} {r : Option Err}
    (h : (memoryGround J D w poisoned σ.table k c).result σ.disk = .ok (k', r)) :
    (∃ err, r = some err ∧ k' = k ∧ Crash ((groundPrepare J D w poisoned σ.table k c).writes σ.disk)
      σ.disk none ((memoryGround J D w poisoned σ.table k c).final σ.disk)) ∨
    ∃ p, (groundPrepare J D w poisoned σ.table k c).result σ.disk = .ok p ∧
      (memoryGround J D w poisoned σ.table k c).final σ.disk =
        (groundAppend D w p).final ((groundPrepare J D w poisoned σ.table k c).final σ.disk) ∧
      ((∃ err, r = some err ∧ k' = k.poison) ∨
        ∃ event, r = none ∧ k' = k.store { p.1 with sourcesOk := true } ∧
          (groundAppend D w p).result
            ((groundPrepare J D w poisoned σ.table k c).final σ.disk) = .ok event) := by
  unfold memoryGround at h ⊢
  cases hp : (groundPrepare J D w poisoned σ.table k c).result σ.disk with
  | error err =>
    rw [Act.result_attempt_of hp] at h
    rw [Act.final_attempt_of hp]
    cases h
    exact .inl ⟨err, rfl, rfl, Crash.complete _ _⟩
  | ok p =>
    rw [Act.result_attempt_of hp] at h
    rw [Act.final_attempt_of hp]
    refine .inr ⟨p, rfl, ?_⟩
    dsimp only [commitAppend] at h ⊢
    cases ha : (groundAppend D w p).result
      ((groundPrepare J D w poisoned σ.table k c).final σ.disk) with
    | error err =>
      unfold groundAppend at ha
      rw [Act.result_attempt_of ha] at h
      rw [Act.final_attempt_of ha]
      cases h
      exact ⟨rfl, .inl ⟨err, rfl, rfl⟩⟩
    | ok event =>
      unfold groundAppend at ha
      rw [Act.result_attempt_of ha] at h
      rw [Act.final_attempt_of ha]
      cases h
      exact ⟨rfl, .inr ⟨event, rfl, rfl, rfl⟩⟩

end

/-! ## Every step -/

/-- The version a call has committed. -/
def committed : GroundLabel → Option (Bytes × Nat)
  | .ground c none => some (c.id.val, c.expected + 1)
  | _ => none

/-- The version an entry is. -/
def KnowledgeEntry.version (e : KnowledgeEntry) : Bytes × Nat := (e.id, e.revision)

/-- The store in memory has the entries of the log, or its append failed and it has all but the
entry of that call. -/
def Remembers (ls : List GroundLabel) (k : Knowledge) (es : List KnowledgeEntry) : Prop :=
  Recalls k es ∨ k.poisoned = true ∧ ∃ es' e c err, es = es' ++ [e] ∧ Recalls k es' ∧
    GroundLabel.ground c (some err) ∈ ls ∧ e.version = (c.id.val, c.expected + 1)

structure Grounded (J : JsonText) (D : Digest) (ls : List GroundLabel) (σ : Grounds)
    (es : List KnowledgeEntry) : Prop where
  log : LogHolds J D σ.disk es
  good : GoodLog D es
  table : σ.table.Utf8
  memory : ∀ k, σ.knowledge = some k → Remembers ls k es
  done : (ls.filterMap committed).Sublist (es.map KnowledgeEntry.version)

section
variable {J : JsonText} {D : Digest} {ls : List GroundLabel} {σ σ' : Grounds} {l : GroundLabel}
  {es : List KnowledgeEntry}

theorem Remembers.later {k : Knowledge} (h : Remembers ls k es) (l : GroundLabel) :
    Remembers (ls ++ [l]) k es := by
  refine h.imp_right fun ⟨hp, es', e, c, err, he, hk, hm, hv⟩ => ?_
  exact ⟨hp, es', e, c, err, he, hk, List.mem_append_left _ hm, hv⟩

theorem Remembers.congr {k k' : Knowledge} (h : Remembers ls k es)
    (he : k'.entries = k.entries) (hp : k.poisoned = true → k'.poisoned = true) :
    Remembers ls k' es := by
  have hrec : ∀ {es}, Recalls k es → Recalls k' es := fun hk => by
    obtain ⟨entries, _, _, hs, hv⟩ := k
    obtain ⟨entries', _, _, hs', hv'⟩ := k'
    obtain rfl : entries' = entries := he
    exact ⟨hk.find, hk.size⟩
  refine h.imp hrec fun ⟨hp', es', e, c, err, he, hk, hm, hv⟩ => ?_
  exact ⟨hp hp', es', e, c, err, he, hrec hk, hm, hv⟩

theorem filterMap_other (h : committed l = none) :
    (ls ++ [l]).filterMap committed = ls.filterMap committed := by
  simp [h]

/-- A step that leaves the entries of the log. -/
theorem Grounded.keep (h : Grounded J D ls σ es) (hl : committed l = none)
    (hd : LogHolds J D σ'.disk es) (ht : σ'.table.Utf8)
    (hm : ∀ k, σ'.knowledge = some k → Remembers (ls ++ [l]) k es) :
    Grounded J D (ls ++ [l]) σ' es :=
  ⟨hd, h.good, ht, hm, by rw [filterMap_other hl]; exact h.done⟩

theorem LogHolds.snoc {events : List Event} {event : Event} {e : KnowledgeEntry} {d : Disk}
    (hl : List.Forall₂ (Logged J D) events es) (he : Logged J D event e)
    (hlog : LogAt D d [] knowledgeName (events ++ [event]) []) : LogHolds J D d (es ++ [e]) :=
  ⟨_, ⟨[], hlog⟩, List.rel_append hl (.cons he .nil)⟩

/-- The store that is about to append has all entries of the log. -/
theorem Grounded.recalls {k : Knowledge} (h : Grounded J D ls σ es) (hk : σ.knowledge = some k)
    (hp : k.poisoned = false) : Recalls k es := by
  refine (h.memory k hk).resolve_right fun ⟨hn, _⟩ => ?_
  rw [hp] at hn
  cases hn

section
variable {k : Knowledge} {c : GroundCall} {w : GroundDraw} {poisoned : Bool} {d d' : Disk}
  {cut : Option (Write × Write)} {p : KnowledgeEntry × CStr}

/-- Nothing has been appended. -/
theorem refused_grounded (h : Grounded J D ls σ es) (err : Err)
    (hc : Crash ((groundPrepare J D w poisoned σ.table k c).writes σ.disk) σ.disk cut d) :
    Grounded J D (ls ++ [.ground c (some err)]) { σ with disk := d } es :=
  h.keep rfl (h.log.congr fun _ hp => confined_groundPrepare.crash_other hc (not_sourceArea_log hp))
    h.table fun k' hk' => (h.memory k' hk').later _

/-- What a call is ready to append, and the log it appends to. -/
theorem Grounded.ready (hJ : J.RoundTrips) (hU : J.WritesUtf8) (h : Grounded J D ls σ es)
    (hk : σ.knowledge = some k)
    (hp : (groundPrepare J D w poisoned σ.table k c).result σ.disk = .ok p)
    (hd : d = (groundPrepare J D w poisoned σ.table k c).final σ.disk) :
    Prepared J D σ.table k c p.1 p.2 ∧ Recalls k es ∧
      (p.2.val.length ≤ eventBytes → (knowledgeEvent w p.2).Fields) ∧
      ∃ events, KeepsLog D events d ∧ List.Forall₂ (Logged J D) events es := by
  have hpre : Prepared J D σ.table k c p.1 p.2 := groundPrepare_ok hJ hp
  obtain ⟨events, hlog, hl⟩ := h.log
  refine ⟨hpre, h.recalls hk hpre.sound, hpre.fields hU h.table, events, ?_, hl⟩
  rw [hd]
  exact (source_logStays confined_groundPrepare hlog).final

/-- The append failed, and the log may have the entry or not. -/
theorem broken_grounded (hJ : J.RoundTrips) (hU : J.WritesUtf8) (h : Grounded J D ls σ es)
    (hk : σ.knowledge = some k) (err : Err)
    (hp : (groundPrepare J D w poisoned σ.table k c).result σ.disk = .ok p)
    (hd : d = (groundPrepare J D w poisoned σ.table k c).final σ.disk)
    (hc : Crash ((groundAppend D w p).writes d) d cut d') :
    ∃ es', Grounded J D (ls ++ [.ground c (some err)])
      { σ with disk := d', knowledge := some k.poison } es' := by
  obtain ⟨hpre, hrec, hf, events, hlog, hl⟩ := h.ready hJ hU hk hp hd
  have hrec' : ∀ {es}, Recalls k es → Recalls k.poison es := fun hk => ⟨hk.find, hk.size⟩
  have hdone : ((ls ++ [GroundLabel.ground c (some err)]).filterMap committed) =
      ls.filterMap committed := filterMap_other rfl
  have hout : KeepsLog D events d' ∨ LogAt D d' [] knowledgeName
      (events ++ [nextEvent events (knowledgeEvent w p.2)]) [] := by
    rcases groundAppend_run (e := p.1) hlog hf with ⟨ws, ha, hrun⟩ | ⟨ws, ha, hrun⟩
    · rw [Act.writes, ha] at hc
      exact hrun.crash hc
    · rw [Act.writes, ha] at hc
      exact .inl (hrun.crash hc)
  rcases hout with hkeep | hext
  · refine ⟨es, ⟨events, hkeep, hl⟩, h.good, h.table, ?_, by rw [hdone]; exact h.done⟩
    rintro _ ⟨⟩
    exact .inl (hrec' hrec)
  · refine ⟨es ++ [p.1], .snoc hl (hpre.logged hJ w events) hext, h.good.snoc (hpre.next hrec),
      h.table, ?_, ?_⟩
    · rintro _ ⟨⟩
      refine .inr ⟨rfl, es, p.1, c, err, rfl, hrec' hrec, List.mem_append_right _ (.head _), ?_⟩
      rw [KnowledgeEntry.version, hpre.id, hpre.revision]
    · rw [hdone, List.map_append]
      exact h.done.trans (List.sublist_append_left _ _)

/-- The entry is on the log and in memory. -/
theorem committed_grounded (hJ : J.RoundTrips) (hU : J.WritesUtf8) (h : Grounded J D ls σ es)
    (hk : σ.knowledge = some k) {event : Event}
    (hp : (groundPrepare J D w poisoned σ.table k c).result σ.disk = .ok p)
    (hd : d = (groundPrepare J D w poisoned σ.table k c).final σ.disk)
    (ha : (groundAppend D w p).result d = .ok event)
    (hc : Crash ((groundAppend D w p).writes d) d cut d')
    (hf : d' knowledgeFile = (groundAppend D w p).final d knowledgeFile) :
    Grounded J D (ls ++ [.ground c none])
      { σ with disk := d', knowledge := some (k.store { p.1 with sourcesOk := true }) }
      (es ++ [p.1]) := by
  obtain ⟨hpre, hrec, hfields, events, hlog, hl⟩ := h.ready hJ hU hk hp hd
  have hext : LogAt D d' [] knowledgeName
      (events ++ [nextEvent events (knowledgeEvent w p.2)]) [] := by
    rcases groundAppend_run (e := p.1) hlog hfields with ⟨ws, hrun, hlr⟩ | ⟨ws, hrun, -⟩
    · rw [Act.writes, show groundAppend D w p d = _ from hrun] at hc
      rw [Act.final, Act.writes, show groundAppend D w p d = _ from hrun] at hf
      exact (hlr.crash hc).resolve_left fun hn => hn.not_extended hlr.final hf
    · rw [Act.result, show groundAppend D w p d = _ from hrun] at ha
      cases ha
  refine ⟨.snoc hl (hpre.logged hJ w events) hext, h.good.snoc (hpre.next hrec), h.table, ?_, ?_⟩
  · rintro _ ⟨⟩
    exact .inl (hrec.store hpre.fits.id.1 hpre.bare true)
  · rw [List.filterMap_append, List.map_append]
    refine h.done.append ?_
    rw [List.map_singleton, KnowledgeEntry.version, hpre.id, hpre.revision]
    exact List.Sublist.refl _

end

theorem step_grounded (hJ : J.RoundTrips) (hU : J.WritesUtf8) (h : Grounded J D ls σ es)
    (hs : σ.Step J D l σ') : ∃ es', Grounded J D (ls ++ [l]) σ' es' := by
  cases hs with
  | @ground k k' r c w poisoned hk hr =>
    rcases ground_outcome hr with ⟨err, rfl, rfl, hc⟩ | ⟨p, hp, hfin, hout⟩
    · have := refused_grounded h err hc
      rw [hk] at this
      exact ⟨es, this⟩
    · have hc := Crash.complete ((groundAppend D w p).writes
        ((groundPrepare J D w poisoned σ.table k c).final σ.disk))
        ((groundPrepare J D w poisoned σ.table k c).final σ.disk)
      rw [hfin]
      rcases hout with ⟨err, rfl, rfl⟩ | ⟨event, rfl, rfl, ha⟩
      · exact broken_grounded hJ hU h hk err hp rfl hc
      · exact ⟨_, committed_grounded hJ hU h hk hp rfl ha hc rfl⟩
  | refused c w poisoned e hk hc => exact ⟨es, refused_grounded h e hc⟩
  | broken c w poisoned e hk hp hd hc => exact broken_grounded hJ hU h hk e hp hd hc
  | unindexed c w poisoned hk hp hd ha hc hf =>
    exact ⟨_, committed_grounded hJ hU h hk hp hd ha hc hf⟩
  | records t ht => exact ⟨es, h.keep rfl h.log ht fun k hk => (h.memory k hk).later _⟩
  | observe os hk =>
    refine ⟨es, h.keep rfl h.log h.table ?_⟩
    rintro _ ⟨⟩
    exact ((h.memory _ hk).later _).congr rfl id
  | elsewhere d hd =>
    exact ⟨es, h.keep rfl (h.log.congr hd) h.table fun k hk => (h.memory k hk).later _⟩
  | close => exact ⟨es, h.keep rfl h.log h.table fun _ hk => nomatch hk⟩
  | open_ hk hr =>
    obtain ⟨events, hlog, hl⟩ := h.log
    obtain ⟨ws, k', hrun, hrec, hstay⟩ := knowledgeOpen_run (t := σ.table) hlog hl h.good
    rw [Act.result, hrun] at hr
    cases hr
    refine ⟨es, h.keep rfl ⟨events, ?_, hl⟩ h.table ?_⟩
    · show KeepsLog D events ((knowledgeOpen J D σ.table).final σ.disk)
      rw [Act.final, Act.writes, hrun]
      exact hstay.final
    · rintro _ ⟨⟩
      exact .inl hrec
  | openCut hk hc =>
    obtain ⟨events, hlog, hl⟩ := h.log
    obtain ⟨ws, k', hrun, -, hstay⟩ := knowledgeOpen_run (t := σ.table) hlog hl h.good
    rw [Act.writes, hrun] at hc
    exact ⟨es, h.keep rfl ⟨events, hstay.crash hc fun _ _ _ => id, hl⟩ h.table
      fun k hk' => (h.memory k hk').later _⟩

theorem Grounds.Fresh.grounded (h : σ.Fresh) : Grounded J D [] σ [] := by
  have hlog := h.log
  simp only [List.forall_mem_cons] at hlog
  refine ⟨⟨[], ⟨[], ?_⟩, .nil⟩, .nil, h.table, fun k hk => ?_, List.Sublist.refl _⟩
  · exact ⟨rfl, trivial, frameRead_nil D, Nat.zero_le _, .inr ⟨hlog.1, rfl, rfl⟩, .inl hlog.2.1,
      by rw [show σ.disk (indexTmp ([] ++ [knowledgeName])) = none from hlog.2.2.1]; exact nofun⟩
  · rw [h.knowledge] at hk
    cases hk

theorem run_grounded (hJ : J.RoundTrips) (hU : J.WritesUtf8) (h0 : σ.Fresh)
    (h : Runs (Grounds.Step J D) σ ls σ') : ∃ es, Grounded J D ls σ' es :=
  h.inv (I := fun ls σ => ∃ es, Grounded J D ls σ es) ⟨[], h0.grounded⟩
    fun _ _ _ _ ⟨_, hi⟩ hs => step_grounded hJ hU hi hs

theorem GoodLog.sound {e : KnowledgeEntry} (h : GoodLog D es) (he : e ∈ es) (t : Table)
    (k : Knowledge) : knowledgeValidate D t k none e.grounding.raw = .ok () := by
  induction h with
  | nil => cases he
  | snoc _ hn ih =>
    rcases List.mem_append.1 he with he | he
    · exact ih he
    · rw [List.mem_singleton.1 he]
      exact hn.sound t k

/-- A call that fails leaves the log and the store, or closes the store for calls to come. -/
theorem ground_failed {c : GroundCall} {err : Err} (hs : σ.Step J D (.ground c (some err)) σ') :
    (σ'.knowledge = σ.knowledge ∧ ∀ p ∈ logFiles [] knowledgeName, σ'.disk p = σ.disk p) ∨
      ∃ k, σ.knowledge = some k ∧ σ'.knowledge = some k.poison := by
  have hkept : ∀ {w poisoned k cut d}, Crash ((groundPrepare J D w poisoned σ.table k c).writes
      σ.disk) σ.disk cut d → ∀ p ∈ logFiles [] knowledgeName, d p = σ.disk p := fun hc _ hp =>
    confined_groundPrepare.crash_other hc (not_sourceArea_log hp)
  cases hs with
  | @ground k k' r c w poisoned hk hr =>
    rcases ground_outcome hr with ⟨_, -, rfl, hc⟩ | ⟨p, -, -, ⟨_, -, rfl⟩ | ⟨_, hn, -⟩⟩
    · exact .inl ⟨hk.symm, hkept hc⟩
    · exact .inr ⟨k, hk, rfl⟩
    · cases hn
  | refused c w poisoned e hk hc => exact .inl ⟨rfl, hkept hc⟩
  | @broken k p cut d d' c w poisoned e hk hp hd hc => exact .inr ⟨k, hk, rfl⟩

/-- In every state of every run the supports of the latest groundings have no cycle. -/
theorem supports_acyclic (hJ : J.RoundTrips) (hU : J.WritesUtf8) (h0 : σ.Fresh)
    (h : Runs (Grounds.Step J D) σ ls σ') {k : Knowledge} (hk : σ'.knowledge = some k) :
    Acyclic (Supports k) := by
  obtain ⟨es, hg⟩ := run_grounded hJ hU h0 h
  rcases hg.memory k hk with hrec | ⟨-, es', e, c, err, rfl, hrec, -⟩
  · rw [hrec.supports_eq]
    exact hg.good.acyclic
  · rw [hrec.supports_eq]
    exact hg.good.split.1.acyclic

/-- A log that is always readable: it is what the store in memory has, up to the entry of a call
whose append failed; the versions of an id count from 1, each is committed once at most, and a
call that fails leaves everything or closes the store. -/
theorem grounding_replayed {ts : List (Grounds × GroundLabel × Grounds)} (hJ : J.RoundTrips)
    (hU : J.WritesUtf8) (h0 : σ.Fresh) (h : Runs (traced (Grounds.Step J D)) σ ts σ') :
    (∃ es, LogHolds J D σ'.disk es ∧
      (∀ id, ∃ n, revs KnowledgeEntry.id KnowledgeEntry.revision es id = List.range' 1 n) ∧
      (∀ e ∈ es, ∀ t k, knowledgeValidate D t k none e.grounding.raw = .ok ()) ∧
      (∀ t, ∃ k', (knowledgeOpen J D t).result σ'.disk = .ok k' ∧ Recalls k' es) ∧
      (∀ k, σ'.knowledge = some k → Remembers (ts.map (·.2.1)) k es) ∧
      ((ts.map (·.2.1)).filterMap committed).Sublist (es.map KnowledgeEntry.version)) ∧
    ((ts.map (·.2.1)).filterMap committed).Nodup ∧
    ∀ x ∈ ts, ∀ c err, x.2.1 = .ground c (some err) →
      (x.2.2.knowledge = x.1.knowledge ∧
        ∀ p ∈ logFiles [] knowledgeName, x.2.2.disk p = x.1.disk p) ∨
      ∃ k, x.1.knowledge = some k ∧ x.2.2.knowledge = some k.poison := by
  obtain ⟨es, hg⟩ := run_grounded hJ hU h0 h.untrace
  obtain ⟨events, hlog, hl⟩ := hg.log
  refine ⟨⟨es, hg.log, fun id => ⟨_, hg.good.versioned.revs id⟩, fun e he => hg.good.sound he,
    fun t => ?_, hg.memory, hg.done⟩, hg.done.nodup hg.good.versioned.nodup, fun x hx c err hl => ?_⟩
  · obtain ⟨ws, k', hrun, hrec, -⟩ := knowledgeOpen_run (t := t) hlog hl hg.good
    exact ⟨k', by rw [Act.result, hrun], hrec⟩
  · have hs := h.traced_mem hx
    rw [hl] at hs
    exact ground_failed hs

end

/-! ## An append that fails after its frame has landed -/

/-- The record that is grounded. -/
def plainRecord : Record where
  id := ascii "00000000-0000-4000-8000-000000000001"
  section_ := .context
  project := none
  content := ascii "x"
  source := .manual
  evidence := ⟨.declared, .unknown, 0, 0, 0, [], [], []⟩
  createdAt := 1
  updatedAt := 1
  lastAccess := 1
  accessCount := 0
  relevance := 1
  locked := false
  deprecated := false
  deprecatedAt := 0
  tags := []
  sourceRefs := []

def plainTable : Table := ⟨[plainRecord], by simp, by decide⟩

def plainEntry : KnowledgeEntry where
  id := plainRecord.id
  hash := contentHash padDigest plainRecord.content
  content := plainRecord.content
  revision := 1
  grounding := ⟨[], [], [], false, []⟩
  sourcesOk := false

def plainCall : GroundCall where
  id := ⟨plainRecord.id, by decide⟩
  hash := ⟨plainEntry.hash, by decide⟩
  expected := 0
  grounding := ⟨plainEntry.grounding.raw, ⟨by simp [Grounding.raw, plainEntry],
    by simp [Grounding.raw, plainEntry], by simp [Grounding.raw, plainEntry], fun _ h => by
      cases h; decide⟩⟩

/-- The text of the entry. -/
def plainText : CStr := cstr (ascii "\x7b\"schema\":1,\"id\":\"" ++ plainEntry.id ++
  ascii "\",\"hash\":\"" ++ plainEntry.hash ++ ascii "\",\"revision\":1,\"content\":\"x\"," ++
  ascii "\"reason\":\"\",\"revoked\":false,\"sources\":[],\"dependencies\":[],\"links\":[]\x7d")

/-- The JSON library, on the one entry. -/
def plainJson : JsonText where
  write
    | .object [(k1, .int 1), (k2, .string id), (k3, .string hash), (k4, .int 1),
        (k5, .string content), (k6, .string reason), (k7, .bool false), (k8, .array []),
        (k9, .array []), (k10, .array [])] =>
      if [k1, k2, k3, k4, k5, k6, k7, k8, k9, k10] = [ascii "schema", ascii "id", ascii "hash",
          ascii "revision", ascii "content", ascii "reason", ascii "revoked", ascii "sources",
          ascii "dependencies", ascii "links"] ∧
          [id, hash, content, reason] = [plainEntry.id, plainEntry.hash, plainEntry.content, []] then
        some plainText
      else none
    | _ => none
  parse text := if text = plainText.val then entryValue plainEntry else none

theorem plainJson_parse : plainJson.parse plainText.val = entryValue plainEntry := by
  simp only [plainJson, if_true]

theorem plain_value : entryValue plainEntry =
    some (.object [(ascii "schema", .int 1), (ascii "id", .string plainEntry.id),
      (ascii "hash", .string plainEntry.hash), (ascii "revision", .int 1),
      (ascii "content", .string plainEntry.content), (ascii "reason", .string []),
      (ascii "revoked", .bool false), (ascii "sources", .array []),
      (ascii "dependencies", .array []), (ascii "links", .array [])]) := rfl

theorem plain_encode : knowledgeEncode plainJson plainEntry = some plainText := by
  rw [knowledgeEncode, plain_value, Option.bind_some]
  simp only [plainJson, and_self, if_true]


theorem plainJson_roundTrips : plainJson.RoundTrips := by
  intro v text h
  simp only [plainJson] at h
  split at h
  · split at h
    · next hc =>
      obtain ⟨hk, hv⟩ := hc
      simp only [List.cons.injEq, and_true] at hk hv
      obtain ⟨rfl, rfl, rfl, rfl, rfl, rfl, rfl, rfl, rfl, rfl⟩ := hk
      obtain ⟨rfl, rfl, rfl, rfl⟩ := hv
      cases h
      rw [plainJson_parse, plain_value]
    · cases h
  · cases h

theorem plain_fits : plainEntry.Fits padDigest where
  revision := by decide
  id := by decide +kernel
  hash := by decide +kernel
  content := by decide
  same := rfl
  grounding := ⟨by simp [plainEntry], by simp [plainEntry], by simp [plainEntry], by decide⟩

theorem plainJson_utf8 : plainJson.WritesUtf8 := by
  intro v text _ h
  have ht : text = plainText := by
    simp only [plainJson] at h
    split at h
    · split at h
      · exact (Option.some.inj h).symm
      · cases h
    · cases h
  rw [ht]
  decide +kernel

def plainDraw : GroundDraw := ⟨⟨1, by decide⟩, uuidV4 fun _ => 2, .none⟩

def plainOpened : Knowledge := Knowledge.empty.revalidate padDigest plainTable

theorem plain_open : knowledgeOpen plainJson padDigest plainTable (fun _ => none) = ⟨[], .ok plainOpened⟩ := by
  rfl

theorem plain_check : groundCheck padDigest false plainTable plainOpened plainCall.id.val
    plainCall.hash.val plainCall.expected plainCall.grounding =
      .ok (plainRecord, plainEntry.grounding) := by
  rfl

theorem plain_copy : groundCopy plainJson padDigest plainDraw plainCall.id.val plainCall.hash.val
    plainCall.expected plainRecord plainEntry.grounding = .ok plainEntry := by
  have he : (⟨plainCall.id.val, plainCall.hash.val, plainRecord.content, plainCall.expected + 1,
      plainEntry.grounding, false⟩ : KnowledgeEntry) = plainEntry := rfl
  unfold groundCopy
  rw [he, if_neg (by decide), plain_encode]
  exact knowledgeDecode_encode plainJson_roundTrips plain_fits plain_encode

theorem plain_commit : commitText plainJson plainDraw plainOpened plainEntry = .ok plainText := by
  unfold commitText
  rw [if_neg (by decide), plain_encode]
  rfl

theorem plain_prepare (d : Disk) : groundPrepare plainJson padDigest plainDraw false plainTable
    plainOpened plainCall d = ⟨[], .ok (plainEntry, plainText)⟩ := by
  have hreq : uuidValid plainCall.id.val = true ∧ knowledgeHash plainCall.hash.val = true ∧
    plainCall.expected < 2 ^ 63 - 1 := by decide +kernel
  have hcheck : (Act.lift (groundCheck padDigest false plainTable plainOpened plainCall.id.val
      plainCall.hash.val plainCall.expected plainCall.grounding) : Io (Record × Grounding)) d =
        ⟨[], .ok (plainRecord, plainEntry.grounding)⟩ := by rw [plain_check]; rfl
  have hcopy : (Act.lift (groundCopy plainJson padDigest plainDraw plainCall.id.val plainCall.hash.val
      plainCall.expected plainRecord plainEntry.grounding) : Io KnowledgeEntry) d =
        ⟨[], .ok plainEntry⟩ := by rw [plain_copy]; rfl
  have hcommit : (Act.lift (commitText plainJson plainDraw plainOpened plainEntry) : Io CStr) d =
      ⟨[], .ok plainText⟩ := by rw [plain_commit]; rfl
  have hsrc : knowledgeSources padDigest plainEntry.grounding d = ⟨[], .ok ()⟩ := rfl
  exact (require_bind hreq).trans (Act.bind_run_run (w := []) (v := []) hcheck
    (Act.bind_run_run (w := []) (v := []) hsrc
    (Act.bind_run_run (w := []) (v := []) hcopy (Act.bind_run_run (w := []) (v := []) hcommit rfl))))

/-- No groundings yet, and one record. -/
def plainStart : Grounds := ⟨fun _ => none, plainTable, none⟩

theorem plainStart_fresh : plainStart.Fresh where
  log _ _ := rfl
  table id r h := by
    rw [List.mem_singleton.1 (Table.get_eq_some.1 h).1]
    decide
  knowledge := rfl

/-- The store is opened, and a call comes up to its append. -/
theorem plain_ready : ∃ ws event,
    groundAppend padDigest plainDraw (plainEntry, plainText) plainStart.disk = ⟨ws, .ok event⟩ ∧
      LogAt padDigest (applyAll ws plainStart.disk) [] knowledgeName [event] [] ∧
      Logged plainJson padDigest event plainEntry ∧ GoodLog padDigest [plainEntry] := by
  have hpre := groundPrepare_ok plainJson_roundTrips
    (congrArg Outcome.result (plain_prepare plainStart.disk))
  obtain ⟨events, ⟨tail, hlog⟩, hl⟩ := plainStart_fresh.grounded (J := plainJson) (D := padDigest).log
  cases hl
  obtain ⟨ws, hrun, hlr⟩ := eventLogAppend_run hlog (hpre.fields (w := plainDraw) plainJson_utf8
    plainStart_fresh.table (by decide +kernel)) (by decide +kernel)
  exact ⟨ws, _, hrun, hlr.final, hpre.logged plainJson_roundTrips plainDraw [],
    GoodLog.nil.snoc (hpre.next Recalls.empty.revalidate)⟩

/-- The states of the run, and the run to its first call. -/
def plainOpenedAt (d : Disk) (k : Knowledge) : Grounds := ⟨d, plainTable, some k⟩

theorem plain_opens : Runs (Grounds.Step plainJson padDigest) plainStart [.other]
    (plainOpenedAt plainStart.disk plainOpened) := by
  have hopen := Grounds.Step.open_ (J := plainJson) (D := padDigest) (σ := plainStart)
    (k := plainOpened) rfl (congrArg Outcome.result plain_open)
  have hfin : (knowledgeOpen plainJson padDigest plainTable).final plainStart.disk =
      plainStart.disk := Act.final_of_nil (congrArg Outcome.writes plain_open)
  exact .single (show Grounds.Step _ _ _ _ (plainOpenedAt plainStart.disk plainOpened) by
    rw [plainOpenedAt, ← hfin]
    exact hopen)

theorem plain_final : (groundPrepare plainJson padDigest plainDraw false plainTable plainOpened
    plainCall).final plainStart.disk = plainStart.disk :=
  Act.final_of_nil (congrArg Outcome.writes (plain_prepare plainStart.disk))

theorem plain_result : (groundPrepare plainJson padDigest plainDraw false plainTable plainOpened
    plainCall).result plainStart.disk = .ok (plainEntry, plainText) :=
  congrArg Outcome.result (plain_prepare plainStart.disk)

/-- The store that is closed since the append of its call failed lacks the entry that the log has:
a grounding in memory need not be the one found when the store is opened again. -/
theorem uncertain_replayed : ∃ ls σ k k' id,
    plainJson.RoundTrips ∧ plainStart.Fresh ∧
    Runs (Grounds.Step plainJson padDigest) plainStart ls σ ∧ σ.knowledge = some k ∧
    (knowledgeOpen plainJson padDigest σ.table).result σ.disk = .ok k' ∧
    (knowledgeFind k id).map KnowledgeEntry.bare ≠ (knowledgeFind k' id).map KnowledgeEntry.bare := by
  obtain ⟨ws, event, hrun, hlog, hl, hg⟩ := plain_ready
  obtain ⟨vs, k', hopen, hrec, -⟩ := knowledgeOpen_run (J := plainJson) (t := plainTable)
    ⟨[], hlog⟩ (.cons hl .nil) hg
  have hbroken : Grounds.Step plainJson padDigest (plainOpenedAt plainStart.disk plainOpened)
      (.ground plainCall (some .io)) (plainOpenedAt (applyAll ws plainStart.disk)
        plainOpened.poison) := by
    have hc : Crash ((groundAppend padDigest plainDraw (plainEntry, plainText)).writes
        plainStart.disk) plainStart.disk none (applyAll ws plainStart.disk) := by
      rw [Act.writes, hrun]
      exact Crash.complete ws plainStart.disk
    exact .broken plainCall plainDraw false .io rfl plain_result plain_final.symm hc
  refine ⟨_, _, _, k', plainEntry.id, plainJson_roundTrips, plainStart_fresh,
    plain_opens.snoc hbroken, rfl, congrArg Outcome.result hopen, ?_⟩
  rw [hrec.find]
  exact (Option.some_ne_none plainEntry).symm

/-- The run of a call that succeeds. -/
theorem plain_grounds : ∃ d, Runs (Grounds.Step plainJson padDigest) plainStart
    [.other, .ground plainCall none]
    (plainOpenedAt d (plainOpened.store { plainEntry with sourcesOk := true })) := by
  obtain ⟨ws, event, hrun, -⟩ := plain_ready
  have happ : (groundAppend padDigest plainDraw (plainEntry, plainText)).result plainStart.disk =
      .ok event := congrArg Outcome.result hrun
  have hres : (memoryGround plainJson padDigest plainDraw false plainTable plainOpened
      plainCall).result plainStart.disk =
        .ok (plainOpened.store { plainEntry with sourcesOk := true }, none) := by
    rw [memoryGround, Act.result_attempt_bind, plain_final, plain_result]
    exact commitAppend_ok happ
  exact ⟨_, plain_opens.snoc (.ground (σ := plainOpenedAt plainStart.disk plainOpened) plainCall
    plainDraw false rfl hres)⟩

/-- The first call on a new store: the one record that is grounded rests on nothing. -/
theorem supports_acyclic_first : ∃ k, (knowledgeFind k plainEntry.id).isSome = true ∧
    Acyclic (Supports k) := by
  obtain ⟨d, h⟩ := plain_grounds
  exact ⟨_, rfl, supports_acyclic plainJson_roundTrips plainJson_utf8 plainStart_fresh h rfl⟩

/-- The first call on a new store: its version is the one the log has. -/
theorem grounding_replayed_first : ∃ d es, LogHolds plainJson padDigest d es ∧
    [(plainEntry.id, 1)].Sublist (es.map KnowledgeEntry.version) ∧
    ∀ t, ∃ k, (knowledgeOpen plainJson padDigest t).result d = .ok k ∧ Recalls k es := by
  obtain ⟨d, h⟩ := plain_grounds
  obtain ⟨ts, hts, h⟩ := h.trace
  obtain ⟨⟨es, hlog, -, -, hopen, -, hdone⟩, -⟩ :=
    grounding_replayed plainJson_roundTrips plainJson_utf8 plainStart_fresh h
  rw [hts] at hdone
  exact ⟨d, es, hlog, hdone, hopen⟩

end Asper
