import Asper.Lib.Pager
import Asper.Source.Pages
import Asper.Source.Proof.View

/-! # Pages of a log

`eventLogPageAt_run` and `eventSearchAt_run`: a call gives a page of the events that contain the
query, or fails and reports the cursor it was given. -/

namespace Asper

open Durable

/-- The text contains the query. -/
def hasQuery (query : Bytes) (e : Event) : Bool := query = [] || hasText e.text query

section
variable {query : Bytes} {limit : Nat}

theorem hasQuery_eq_false {e : Event} :
    hasQuery query e = false ↔ query ≠ [] ∧ hasText e.text query = false := by
  rw [hasQuery, Bool.or_eq_false_iff, decide_eq_false_iff_not]

/-- What the loop adds to a page, and how far it goes. -/
theorem pageOf_spec : ∀ (es : List Event) (cursor : Nat) (page : List Event), page.length ≤ limit →
    ∃ k ≤ es.length, pageOf query limit es cursor page =
        (page ++ (es.take k).filter (hasQuery query), cursor + k) ∧
      (page ++ (es.take k).filter (hasQuery query)).length ≤ limit ∧
      ((page ++ (es.take k).filter (hasQuery query)).length = limit ∨ k = es.length)
  | [], cursor, page, hp => ⟨0, Nat.le_refl _, by simp [pageOf], by simpa using hp, .inr rfl⟩
  | e :: es, cursor, page, hp => by
    rw [pageOf]
    by_cases hlt : page.length < limit
    · rw [if_pos hlt]
      by_cases hq : query ≠ [] ∧ hasText e.text query = false
      · rw [if_pos hq]
        obtain ⟨k, hk, hrun, hle, hstop⟩ := pageOf_spec es (cursor + 1) page hp
        have hf : (List.take (k + 1) (e :: es)).filter (hasQuery query) =
            (es.take k).filter (hasQuery query) := by
          rw [List.take_succ_cons, List.filter_cons, hasQuery_eq_false.2 hq]
          rfl
        refine ⟨k + 1, Nat.succ_le_succ hk, ?_, by rwa [hf], ?_⟩
        · rw [hrun, hf, Nat.add_right_comm, Nat.add_assoc]
        · rw [hf]
          exact hstop.imp_right fun h => congrArg Nat.succ h
      · rw [if_neg hq]
        have hq' : hasQuery query e = true := by
          rw [← Bool.not_eq_false, hasQuery_eq_false]
          exact hq
        obtain ⟨k, hk, hrun, hle, hstop⟩ := pageOf_spec es (cursor + 1) (page ++ [e])
          (by rw [List.length_append, List.length_singleton]; omega)
        have hf : page ++ (List.take (k + 1) (e :: es)).filter (hasQuery query) =
            page ++ [e] ++ (es.take k).filter (hasQuery query) := by
          rw [List.take_succ_cons, List.filter_cons, hq', if_pos rfl, List.append_assoc]
          rfl
        refine ⟨k + 1, Nat.succ_le_succ hk, ?_, by rwa [hf], ?_⟩
        · rw [hrun, hf, Nat.add_right_comm, Nat.add_assoc]
        · rw [hf]
          exact hstop.imp_right fun h => congrArg Nat.succ h
    · rw [if_neg hlt]
      exact ⟨0, Nat.zero_le _, by simp, by simpa using hp, .inl (by simp; omega)⟩

theorem pageOf_isPage (es : List Event) (query : Bytes) (limit after : Nat) :
    IsPage es (hasQuery query) limit after (pageOf query limit (es.drop after) after []).1
      (pageOf query limit (es.drop after) after []).2 := by
  obtain ⟨k, hk, hrun, hle, hstop⟩ := pageOf_spec (es.drop after) after [] (Nat.zero_le limit)
  rw [List.length_drop] at hk hstop
  rw [hrun]
  refine ⟨Nat.le_add_right _ _, ?_, ?_, hle, hstop.imp_right fun h => ?_⟩
  · show after + k ≤ _
    omega
  · rw [Nat.add_sub_cancel_left]
    rfl
  · show es.length ≤ after + k
    omega

end

/-! ## One call -/

section
variable {D : Digest} {d : Disk} {q : Path} {n : Bytes} {es : List Event}

theorem reported_ok {α : Type} {m : Io (List α × Nat)} {ws : List Write} {page : List α}
    {after next : Nat} (h : m d = ⟨ws, .ok (page, next)⟩) :
    reported after m d = ⟨ws, .ok (next, .ok page)⟩ := by
  rw [reported, Act.bind_run (Act.attempt_run h), Act.writes_pure, Act.result_pure, List.append_nil]

theorem reported_error {α : Type} {m : Io (List α × Nat)} {ws : List Write} {e : Err} {after : Nat}
    (h : m d = ⟨ws, .error e⟩) : reported after m d = ⟨ws, .ok (after, .error e)⟩ := by
  rw [reported, Act.bind_run (Act.attempt_run h), Act.writes_pure, Act.result_pure, List.append_nil]

/-- A call fails and reports the cursor it was given, or does as if nothing could fail. -/
theorem reported_failing {α : Type} {m : Io (List α × Nat)} {after : Nat} (e : Err) :
    reported after (failing (some e) m) d = ⟨[], .ok (after, .error e)⟩ := reported_error rfl

theorem eventLogPageAt_run (h : ∃ t, LogAt D d q n es t) (query : Bytes) (after limit : Nat) :
    ∃ ws page next, eventLogPageAt D none (q ++ [n]) query after limit d =
        ⟨ws, .ok (next, .ok page)⟩ ∧ IsPage es (hasQuery query) limit after page next ∧
      LogRun d q n ws (fun d' => ∃ t', LogAt D d' q n es t') fun d' => LogAt D d' q n es [] := by
  obtain ⟨t, h⟩ := h
  obtain ⟨ws, hrun, hlr⟩ := eventLogPage_pageOf h query after limit
  exact ⟨ws, _, _, reported_ok hrun, pageOf_isPage es query limit after, hlr⟩

/-- **Reading a log page by page.** -/
theorem eventLogPageAt_call (q : Path) (n : Bytes) (es : List Event) (query : Bytes) :
    PageCall (fun c (i : Nat × Option Err) => eventLogPageAt D i.2 (q ++ [n]) query c i.1)
      (fun _ i => 0 < i.1) (fun d => ∃ t, LogAt D d q n es t) es (hasQuery query) id where
  run {d c i} hd hi := by
    obtain ⟨limit, fault⟩ := i
    cases fault with
    | some e => exact ⟨[], c, .error e, reported_failing e, hd, .inl ⟨e, rfl, rfl⟩⟩
    | none =>
      obtain ⟨ws, page, next, hrun, hp, hlr⟩ := eventLogPageAt_run hd query c limit
      refine ⟨ws, next, .ok page, hrun, ⟨[], hlr.final⟩, .inr ⟨page, limit, hi, ?_, hp⟩⟩
      rw [List.map_id]

/-! ## Search -/

variable {s : Bytes} {ps : List Pin}

theorem eventPage_run (h : ScopeAt D d s es ps) (query : Bytes) (after limit : Nat) :
    ∃ ws page next, eventPage D s query after limit d =
        ⟨ws, .ok (page.map (pinsApply ps), next)⟩ ∧
      IsPage es (hasQuery query) limit after page next ∧ ScopeAt D (applyAll ws d) s es ps := by
  obtain ⟨t, hl⟩ := h.log
  obtain ⟨ws, hrun, hlr⟩ := eventLogPage_pageOf hl query after limit
  have hother : ∀ p, p ∉ logFiles (scopeDir s) eventsName →
      applyAll ws (made d s) p = made d s p := fun p hp =>
    applyAll_frame _ fun w hw hpw => hp (hlr.within w hw p hpw)
  -- the directories are there from now on
  have hready : Ready (applyAll ws (made d s)) s :=
    ready_made.congr (hother _ (scopesDir_not_log s)) (hother _ (scopeDir_not_log s s))
  have hdirs : DirsOk (applyAll ws (made d s)) s := ⟨.inr hready.scopes, .inr hready.dir⟩
  have hpins : PinsAt (applyAll ws (made d s)) s ps :=
    h.pins.made.congr (hother _ (pinsFile_not_log s))
  have hload : pinsLoad s (applyAll ws (made d s)) = ⟨[], .ok ps⟩ := by
    rw [pinsLoad_run hdirs hpins, dirWrites_ready hready]
  rw [← applyAll_dirWrites h.dirs] at hrun hload
  refine ⟨dirWrites d s ++ (ws ++ ([] ++ [])), _, _, Act.bind_run_run
    (sourceScopePath_run h.dirs eventsName .io) (Act.bind_run_run hrun (Act.bind_run_run hload rfl)),
    pageOf_isPage es query limit after, ?_⟩
  rw [List.append_nil, List.append_nil, applyAll_append, applyAll_dirWrites h.dirs]
  refine ⟨hdirs, ⟨[], ?_⟩, hpins⟩
  rw [hready.made_eq]
  exact hlr.final

/-- **Searching a scope page by page.** -/
theorem eventSearchAt_call (D : Digest) {scope : CStr} (hs : sourceScopeValid scope.val = true)
    (es : List Event) (ps : List Pin) (query : CStr) :
    PageCall (fun c (i : Nat × Option Err) => eventSearchAt D i.2 scope query c i.1)
      (fun _ i => i.1 ≠ 0 ∧ i.1 ≤ 1000) (fun d => ScopeAt D d scope.val es ps) es
      (hasQuery query.val) (pinsApply ps) where
  run {d c i} hd hi := by
    obtain ⟨limit, fault⟩ := i
    have hreq : sourceScopeValid scope.val = true ∧ limit ≠ 0 ∧ limit ≤ 1000 := ⟨hs, hi⟩
    cases fault with
    | some e =>
      exact ⟨[], c, .error e, (require_bind hreq).trans (reported_failing e), hd,
        .inl ⟨e, rfl, rfl⟩⟩
    | none =>
      obtain ⟨ws, page, next, hrun, hp, hat⟩ := eventPage_run hd query.val c limit
      exact ⟨ws, next, _, (require_bind hreq).trans (reported_ok hrun), hat,
        .inr ⟨page, limit, Nat.pos_of_ne_zero hi.1, rfl, hp⟩⟩

end

end Asper
