import Asper.Knowledge.History
import Asper.Knowledge.Proof.Grounding
import Asper.Source.Proof.Pages

/-! # The history of a grounding

A call reads pages of the events that show the id, and keeps the entries that have it. It gives a
page of the revisions of the id (`historyPages_run`), unless something fails: after the first page
has been read its cursor has moved by then (`groundingHistoryAt_run`). -/

namespace Asper

open Durable

/-- The library writes the id of an object as the history searches for it. -/
def JsonText.ShowsIds (J : JsonText) : Prop :=
  ∀ fields id text, (ascii "id", Json.string id) ∈ fields → uuidValid id = true →
    J.write (.object fields) = some text → hasText text.val (historyNeedle id) = true

/-- An event of the log and its entry. -/
abbrev LogItem := Event × KnowledgeEntry

def LogItem.wanted (id : Bytes) (p : LogItem) : Bool := p.2.id = id

def LogItem.shown (id : Bytes) (p : LogItem) : Bool := hasQuery (historyNeedle id) p.1

def LogItem.row (p : LogItem) : GroundingRevision := historyRow p.1 p.2

/-- How many of the items left the page with room for `room` goes over. -/
def pageSpan (id : Bytes) (room : Nat) (rest : List LogItem) : Nat :=
  (pageOf (historyNeedle id) room (rest.map (·.1)) 0 []).2

/-- No operation of the pages from the `i`-th on fails. -/
def HistoryQuiet (F : HistoryFaults) (id : Bytes) : Nat → Nat → Nat → List LogItem → Prop
  | 0, _, _, _ => True
  | fuel + 1, i, room, rest =>
    let page := (rest.take (pageSpan id room rest)).filter (LogItem.shown id)
    room = 0 ∨ F.page i = none ∧ (∀ j < page.length, F.decode i j = false) ∧
      (page = [] ∨ HistoryQuiet F id fuel (i + 1)
        (room - (page.filter (LogItem.wanted id)).length) (rest.drop (pageSpan id room rest)))

theorem pageOf_shift (query : Bytes) (limit c : Nat) : ∀ (es : List Event) (cursor : Nat)
    (page : List Event), pageOf query limit es (c + cursor) page =
      ((pageOf query limit es cursor page).1, c + (pageOf query limit es cursor page).2)
  | [], _, _ => rfl
  | e :: es, cursor, page => by
    rw [pageOf, pageOf]
    split
    · split
      · exact pageOf_shift query limit c es (cursor + 1) page
      · exact pageOf_shift query limit c es (cursor + 1) (page ++ [e])
    · rfl

section
variable {J : JsonText} {D : Digest} {F : HistoryFaults} {id : Bytes} {d : Disk}
  {items : List LogItem} {i : Nat}

/-- The log has the items. -/
structure ItemsAt (J : JsonText) (D : Digest) (items : List LogItem) (d : Disk) : Prop where
  log : KeepsLog D (items.map (·.1)) d
  logged : ∀ p ∈ items, Logged J D p.1 p.2 ∧ p.2.Fits D

/-- An entry shows its id. -/
theorem Logged.shows (hJ : J.ShowsIds) {event : Event} {e : KnowledgeEntry}
    (h : Logged J D event e) (he : e.Fits D) : hasQuery (historyNeedle e.id) event = true := by
  obtain ⟨text, henc, htext⟩ := h.wrote
  obtain ⟨v, hv, hw⟩ := Option.bind_eq_some_iff.1 henc
  have hobj : ∃ fields, v = .object fields ∧ (ascii "id", Json.string e.id) ∈ fields := by
    unfold entryValue at hv
    obtain ⟨n, -, hv⟩ := option_bind_some hv
    obtain ⟨ss, -, hv⟩ := option_bind_some hv
    exact ⟨_, (Option.some.inj hv).symm, .tail _ (.head _)⟩
  obtain ⟨fields, rfl, hm⟩ := hobj
  rw [hasQuery, htext, hJ fields e.id text hm he.id.1 hw, Bool.or_true]

/-- The entries of a page, when no allocation fails. -/
theorem historyEvents_ok : ∀ {j : Nat} {page : List LogItem},
    (∀ p ∈ page, Logged J D p.1 p.2) → (∀ m < page.length, F.decode i (j + m) = false) →
    historyEvents J D F id i j (page.map (·.1)) =
      .ok ((page.filter (LogItem.wanted id)).map LogItem.row)
  | _, [], _, _ => rfl
  | j, p :: page, hl, hf => by
    have hp := hl p (.head _)
    have h0 : F.decode i j = false := hf 0 (Nat.zero_lt_succ _)
    have ih := historyEvents_ok (fun p hp => hl p (.tail _ hp)) (j := j + 1) fun m hm => by
      rw [Nat.add_right_comm, Nat.add_assoc]
      exact hf (m + 1) (Nat.succ_lt_succ hm)
    rw [List.map_cons, historyEvents, if_neg (not_not.2 hp.kind), h0, hp.text]
    dsimp only
    rw [ih, Except.map, List.filter_cons]
    by_cases hid : p.2.id = id
    · have hw : LogItem.wanted id p = true := decide_eq_true hid
      rw [if_pos hid, if_pos hw]
      rfl
    · have hw : ¬ LogItem.wanted id p = true := fun hn => hid (of_decide_eq_true hn)
      rw [if_neg hid, if_neg hw]

/-- An allocation that fails ends the page. -/
theorem historyEvents_error : ∀ {j : Nat} {page : List LogItem},
    (∀ p ∈ page, Logged J D p.1 p.2) → (∃ m < page.length, F.decode i (j + m) = true) →
    ∃ e, historyEvents J D F id i j (page.map (·.1)) = .error e
  | _, [], _, ⟨m, hm, _⟩ => absurd hm (Nat.not_lt_zero m)
  | j, p :: page, hl, ⟨m, hm, hf⟩ => by
    have hp := hl p (.head _)
    rw [List.map_cons, historyEvents, if_neg (not_not.2 hp.kind)]
    cases hd : knowledgeDecode J D (F.decode i j) p.1.text with
    | error e => exact ⟨e, rfl⟩
    | ok e =>
      have hj : F.decode i j = false := by
        by_contra hn
        rw [Bool.not_eq_false] at hn
        unfold knowledgeDecode at hd
        rw [hn] at hd
        split at hd
        · cases hd
        · cases hd
      cases m with
      | zero => rw [Nat.add_zero, hj] at hf; cases hf
      | succ m =>
        obtain ⟨e', he'⟩ := historyEvents_error (fun p hp => hl p (.tail _ hp)) (j := j + 1)
          ⟨m, Nat.lt_of_succ_lt_succ hm, by rwa [Nat.add_right_comm, Nat.add_assoc]⟩
        dsimp only
        rw [he']
        exact ⟨e', rfl⟩

theorem ItemsAt.shows (hJ : J.ShowsIds) (h : ItemsAt J D items d) (p : LogItem) (hp : p ∈ items)
    (hw : LogItem.wanted id p = true) : LogItem.shown id p = true := by
  obtain ⟨hl, hf⟩ := h.logged p hp
  have hs := hl.shows hJ hf
  rwa [of_decide_eq_true hw] at hs

/-- One page of the log, in items. -/
theorem historyPage_run (h : ItemsAt J D items d) (room next : Nat) :
    ∃ ws page, eventLogPageAt D none knowledgeFile (historyNeedle id) next room d =
        ⟨ws, .ok (next + pageSpan id room (items.drop next), .ok (page.map (·.1)))⟩ ∧
      page = ((items.drop next).take (pageSpan id room (items.drop next))).filter
        (LogItem.shown id) ∧
      IsPage items (LogItem.shown id) room next page (next + pageSpan id room (items.drop next)) ∧
      ItemsAt J D items (applyAll ws d) := by
  obtain ⟨tail, hlog⟩ := h.log
  obtain ⟨ws, hrun, hlr⟩ := eventLogPage_pageOf hlog (historyNeedle id) next room
  have hnext : (pageOf (historyNeedle id) room ((items.map (·.1)).drop next) next []).2 =
      next + pageSpan id room (items.drop next) := by
    rw [pageSpan, List.map_drop]
    exact congrArg Prod.snd (pageOf_shift (historyNeedle id) room next _ 0 [])
  have hp := pageOf_isPage (items.map (·.1)) (historyNeedle id) room next
  rw [hnext] at hp
  obtain ⟨page, hmap, hp'⟩ := hp.unmap
  refine ⟨ws, page, ?_, ?_, hp', ⟨⟨[], hlr.final⟩, h.logged⟩⟩
  · rw [← hmap, ← hnext]
    exact reported_ok hrun
  · have hitems := hp'.items
    rwa [Nat.add_sub_cancel_left] at hitems

/-- **The pages of a call**: without a failure they are a page of the revisions of the id; after a
failure the cursor has moved, if a page was read. -/
theorem historyPages_run (hJ : J.ShowsIds) {limit : Nat} : ∀ {fuel i next : Nat}
    {rows : List GroundingRevision} {d : Disk}, ItemsAt J D items d → items.length - next < fuel →
    rows.length ≤ limit →
    ∃ ws next' r, historyPages J D F id limit fuel i next rows d = ⟨ws, .ok (next', r)⟩ ∧
      ItemsAt J D items (applyAll ws d) ∧
      (HistoryQuiet F id fuel i (limit - rows.length) (items.drop next) ∧
          (∃ more, r = .ok (rows ++ more.map LogItem.row) ∧
            IsPage items (LogItem.wanted id) (limit - rows.length) next more next') ∨
        ¬ HistoryQuiet F id fuel i (limit - rows.length) (items.drop next) ∧
          (∃ e, r = .error e) ∧ (F.page i ≠ none → next' = next) ∧
          (F.page i = none → next < next'))
  | 0, _, _, _, _, _, hf, _ => absurd hf (Nat.not_lt_zero _)
  | fuel + 1, i, next, rows, d, h, hf, hrows => by
    by_cases hroom : rows.length < limit
    · have hpos : limit - rows.length ≠ 0 := by omega
      cases hF : F.page i with
      | some e =>
        refine ⟨[], next, .error e, ?_, h, .inr ⟨?_, ⟨e, rfl⟩, fun _ => rfl, nofun⟩⟩
        · rw [historyPages, if_pos hroom, hF, eventLogPageAt, Act.bind_run (reported_failing e)]
          rfl
        · rintro (hn | ⟨hn, -⟩)
          · exact hpos hn
          · rw [hF] at hn
            cases hn
      | none =>
        obtain ⟨ws, page, hrun, hpage, hp, hat⟩ :=
          @historyPage_run J D id d items h (limit - rows.length) next
        have hlogged : ∀ p ∈ page, Logged J D p.1 p.2 := fun p hm => by
          rw [hpage] at hm
          exact (h.logged p (List.mem_of_mem_drop (List.mem_of_mem_take (List.mem_filter.1 hm).1))).1
        have hdrop : (items.drop next).drop (pageSpan id (limit - rows.length) (items.drop next)) =
            items.drop (next + pageSpan id (limit - rows.length) (items.drop next)) := List.drop_drop
        generalize hk : pageSpan id (limit - rows.length) (items.drop next) = k at *
        have hgo : ∀ {us r}, historyTurn J D F id i rows (historyPages J D F id limit fuel (i + 1))
            (next + k) (.ok (page.map (·.1))) (applyAll ws d) = ⟨us, .ok r⟩ →
            historyPages J D F id limit (fuel + 1) i next rows d = ⟨ws ++ us, .ok r⟩ := by
          intro us r hus
          rw [historyPages, if_pos hroom, hF]
          exact Act.bind_run_run hrun hus
        have hquiet : HistoryQuiet F id (fuel + 1) i (limit - rows.length) (items.drop next) ↔
            (∀ j < page.length, F.decode i j = false) ∧ (page = [] ∨ HistoryQuiet F id fuel (i + 1)
              (limit - rows.length - (page.filter (LogItem.wanted id)).length)
              (items.drop (next + k))) := by
          rw [HistoryQuiet, hk, hpage, hdrop, or_iff_right hpos, and_iff_right hF]
        by_cases hdec : ∀ j < page.length, F.decode i j = false
        · have hev : historyEvents J D F id i 0 (page.map (·.1)) =
              .ok ((page.filter (LogItem.wanted id)).map LogItem.row) :=
            historyEvents_ok hlogged fun m hm => by rw [Nat.zero_add]; exact hdec m hm
          by_cases hnil : page = []
          · -- the log is at its end
            have hend : items.length ≤ next + k := by
              rw [hnil] at hp
              exact hp.stop.resolve_left fun hn => hpos hn.symm
            have hrest : IsPage items (LogItem.wanted id) (limit - rows.length) next
                (page.filter (LogItem.wanted id) ++ []) (next + k) :=
              hp.append (h.shows hJ) (.nil hend)
            rw [hnil] at hrest hev
            refine ⟨ws ++ [], next + k, .ok rows, hgo ?_, by rwa [List.append_nil],
              .inl ⟨hquiet.2 ⟨hdec, .inl hnil⟩, [], by simp, hrest⟩⟩
            rw [hnil, historyTurn, hev]
            rfl
          · have hlen : 0 < page.length := List.length_pos_of_ne_nil hnil
            have hk' : 0 < k := by
              by_contra hn
              rw [Nat.eq_zero_of_not_pos hn, List.take_zero] at hpage
              exact hnil hpage
            have hkept := List.length_filter_le (LogItem.wanted id) page
            have hfits := hp.fits
            have hroom' : (rows ++ (page.filter (LogItem.wanted id)).map LogItem.row).length =
                rows.length + (page.filter (LogItem.wanted id)).length := by
              rw [List.length_append, List.length_map]
            have hwithin := hp.within
            have hleft : items.length - (next + k) < fuel := by omega
            have hfull : (rows ++ (page.filter (LogItem.wanted id)).map LogItem.row).length ≤
                limit := by
              rw [hroom']
              omega
            obtain ⟨us, next', r, hrest, hat', hout⟩ :=
              @historyPages_run hJ limit fuel (i + 1) (next + k) _ _ hat hleft hfull
            rw [hroom', Nat.sub_add_eq] at hout
            refine ⟨ws ++ us, next', r, hgo ?_, by rwa [applyAll_append], ?_⟩
            · rw [historyTurn, hev]
              dsimp only
              rw [if_neg (by simpa using hnil)]
              exact hrest
            · rcases hout with ⟨hq, more, rfl, hp'⟩ | ⟨hq, he, h1, h2⟩
              · refine .inl ⟨hquiet.2 ⟨hdec, .inr hq⟩, _, ?_, hp.append (h.shows hJ) hp'⟩
                rw [List.map_append, List.append_assoc]
              · refine .inr ⟨fun hn => ?_, he, fun hn => absurd rfl hn, fun _ => ?_⟩
                · exact (hquiet.1 hn).2.elim hnil hq
                · cases hF' : F.page (i + 1) with
                  | some e =>
                    have := h1 (by rw [hF']; exact nofun)
                    omega
                  | none =>
                    have := h2 hF'
                    omega
        · have hbad : ∃ m < page.length, F.decode i (0 + m) = true := by
            simpa using hdec
          obtain ⟨e, he⟩ := historyEvents_error hlogged hbad
          have hk' : 0 < k := by
            by_contra hn
            rw [Nat.eq_zero_of_not_pos hn, List.take_zero] at hpage
            obtain ⟨m, hm, -⟩ := hbad
            rw [hpage] at hm
            exact Nat.not_lt_zero m hm
          refine ⟨ws ++ [], next + k, .error e, hgo ?_, by rwa [List.append_nil],
            .inr ⟨fun hn => hdec (hquiet.1 hn).1, ⟨e, rfl⟩, fun hn => absurd rfl hn,
              fun _ => by omega⟩⟩
          rw [historyTurn, he]
          rfl
    · have hzero : limit - rows.length = 0 := by omega
      refine ⟨[], next, .ok rows, ?_, h, .inl ⟨.inl hzero, [], by simp, ?_⟩⟩
      · rw [historyPages, if_neg hroom]
        rfl
      · rw [hzero]
        exact .full

end

/-! ## Calls -/

/-- What a call finds and what it asks for. -/
structure HistoryInput where
  faults : HistoryFaults
  poisoned : Bool
  knowledge : Knowledge
  limit : Nat

def HistoryInput.Valid (i : HistoryInput) : Prop := i.limit ≠ 0 ∧ i.limit ≤ 100

/-- The call is refused, or nothing fails after its first page has been read. -/
def HistoryInput.KeepsCursor (id : Bytes) (items : List LogItem) (c : Nat) (i : HistoryInput) :
    Prop :=
  i.faults.rows = true ∨ (i.poisoned = true ∨ i.knowledge.poisoned = true) ∨
    i.faults.page 0 ≠ none ∨
    HistoryQuiet i.faults id (eventLogBytes + 1) 0 i.limit (items.drop c)

/-- The cursor and the rows of a call. -/
def groundingHistoryAt (J : JsonText) (D : Digest) (id : CStr) (c : Nat) (i : HistoryInput) :
    Io (Nat × Except Err (List GroundingRevision)) := do
  let r ← memoryGroundingHistory J D i.faults i.poisoned i.knowledge id c i.limit
  pure (r.next, r.rows)

section
variable {J : JsonText} {D : Digest} {id : CStr} {d : Disk} {items : List LogItem} {c : Nat}
  {i : HistoryInput}

theorem ItemsAt.length_lt (h : ItemsAt J D items d) (c : Nat) :
    items.length - c < eventLogBytes + 1 := by
  obtain ⟨tail, hlog⟩ := h.log
  have h1 := hlog.size
  have h2 := length_le_logBytes D (items.map (·.1))
  rw [List.length_append] at h1
  rw [List.length_map] at h2
  omega

/-- A call that gets as far as the log. -/
theorem groundingHistoryAt_read {ws : List Write} {next : Nat}
    {r : Except Err (List GroundingRevision)} (hid : uuidValid id.val = true) (hi : i.Valid)
    (hrows : i.faults.rows = false)
    (h : historyRead J D i.faults id.val i.poisoned i.knowledge c i.limit d = ⟨ws, .ok (next, r)⟩) :
    groundingHistoryAt J D id c i d = ⟨ws, .ok (next, r)⟩ := by
  have hcall : memoryGroundingHistory J D i.faults i.poisoned i.knowledge id c i.limit d =
      ⟨ws, .ok ⟨historyPoison i.knowledge r, next, r⟩⟩ := by
    unfold memoryGroundingHistory
    rw [require_bind ⟨hid, hi⟩, hrows, if_neg Bool.false_ne_true]
    have hend := Act.bind_run_run h (f := fun p => (pure ⟨historyPoison i.knowledge p.2, p.1, p.2⟩ :
      Io HistoryResult)) rfl
    rw [List.append_nil] at hend
    exact hend
  rw [groundingHistoryAt, Act.bind_run_run hcall rfl, List.append_nil]

/-- **One call**: a page or an error that leaves the cursor, unless something fails after the first
page; then an error that moves it. -/
theorem groundingHistoryAt_run (hJ : J.ShowsIds) (h : ItemsAt J D items d)
    (hid : uuidValid id.val = true) (hi : i.Valid) :
    ∃ ws next r, groundingHistoryAt J D id c i d = ⟨ws, .ok (next, r)⟩ ∧
      ItemsAt J D items (applyAll ws d) ∧
      (i.KeepsCursor id.val items c ∧ ((∃ e, r = .error e ∧ next = c) ∨ ∃ page,
          r = .ok (page.map LogItem.row) ∧
          IsPage items (LogItem.wanted id.val) i.limit c page next) ∨
        ¬ i.KeepsCursor id.val items c ∧ (∃ e, r = .error e) ∧ c < next) := by
  by_cases hrows : i.faults.rows = true
  · refine ⟨[], c, .error .nomem, ?_, h, .inl ⟨.inl hrows, .inl ⟨_, rfl, rfl⟩⟩⟩
    have hcall : memoryGroundingHistory J D i.faults i.poisoned i.knowledge id c i.limit d =
        ⟨[], .ok ⟨i.knowledge, c, .error .nomem⟩⟩ := by
      unfold memoryGroundingHistory
      rw [require_bind ⟨hid, hi⟩, if_pos hrows]
      rfl
    rw [groundingHistoryAt, Act.bind_run_run hcall rfl]
    rfl
  · have hrows' := Bool.eq_false_of_not_eq_true hrows
    by_cases hp : i.poisoned = true ∨ i.knowledge.poisoned = true
    · refine ⟨[], c, .error .io, groundingHistoryAt_read hid hi hrows' ?_, h,
        .inl ⟨.inr (.inl hp), .inl ⟨_, rfl, rfl⟩⟩⟩
      rw [historyRead, if_pos hp]
      rfl
    · obtain ⟨ws, next, r, hrun, hat, hout⟩ := @historyPages_run J D i.faults id.val items hJ
        i.limit (eventLogBytes + 1) 0 c [] d h (h.length_lt c) (Nat.zero_le _)
      refine ⟨ws, next, r, groundingHistoryAt_read hid hi hrows' ?_, hat, ?_⟩
      · rw [historyRead, if_neg hp]
        exact hrun
      · rcases hout with ⟨hq, more, rfl, hpage⟩ | ⟨hq, he, h1, h2⟩
        · exact .inl ⟨.inr (.inr (.inr hq)), .inr ⟨more, rfl, hpage⟩⟩
        · by_cases hf : i.faults.page 0 = none
          · refine .inr ⟨?_, he, h2 hf⟩
            rintro (hn | hn | hn | hn)
            · exact hrows hn
            · exact hp hn
            · exact hn hf
            · exact hq hn
          · obtain ⟨e, rfl⟩ := he
            exact .inl ⟨.inr (.inr (.inl hf)), .inl ⟨e, rfl, h1 hf⟩⟩

theorem GoodLog.fits {es : List KnowledgeEntry} {e : KnowledgeEntry} (h : GoodLog D es)
    (he : e ∈ es) : e.Fits D := by
  induction h with
  | nil => cases he
  | snoc _ hn ih =>
    rcases List.mem_append.1 he with he | he
    · exact ih he
    · rw [List.mem_singleton.1 he]
      exact hn.fits

/-- The log of a store that can be opened, in items. -/
theorem LogHolds.itemsAt {es : List KnowledgeEntry} (h : LogHolds J D d es) (hg : GoodLog D es) :
    ∃ ps : List LogItem, ps.map (·.2) = es ∧ ItemsAt J D ps d := by
  obtain ⟨events, hlog, hl⟩ := h
  obtain ⟨hlen, hl⟩ := List.forall₂_iff_zip.1 hl
  refine ⟨events.zip es, List.map_snd_zip (Nat.le_of_eq hlen.symm), ?_, fun p hp => ?_⟩
  · rwa [List.map_fst_zip (Nat.le_of_eq hlen)]
  · exact ⟨hl hp, hg.fits (List.of_mem_zip hp).2⟩

/-- The revisions of an id are in the log one after the other. -/
theorem GoodLog.wanted_revisions {id : Bytes} (h : GoodLog D (items.map (·.2))) :
    ∃ n, ((items.filter (LogItem.wanted id)).map LogItem.row).map (·.revision) =
      List.range' 1 n := by
  have hr := h.versioned.revs id
  rw [revs, List.filter_map, List.map_map] at hr
  rw [List.map_map]
  exact ⟨_, hr⟩

/-- Every reader of a log, of a scope or of the history of a grounding gets all it asks for, once and
in order, and no error moves a cursor, as long as no call of the history fails after its first page;
a call of the history leaves the cursor on an error exactly then. -/
theorem cursors_reported (hJ : J.ShowsIds) :
    (∀ q n es query, Paginates
      (fun c (i : Nat × Option Err) => eventLogPageAt D i.2 (q ++ [n]) query c i.1)
      (fun _ i => 0 < i.1) (fun d => ∃ t, LogAt D d q n es t) es (hasQuery query) fun e => e) ∧
    (∀ (scope query : CStr) es ps, sourceScopeValid scope.val = true → Paginates
      (fun c (i : Nat × Option Err) => eventSearchAt D i.2 scope query c i.1)
      (fun _ i => i.1 ≠ 0 ∧ i.1 ≤ 1000) (fun d => ScopeAt D d scope.val es ps) es
      (hasQuery query.val) (pinsApply ps)) ∧
    ∀ (id : CStr) items, uuidValid id.val = true →
      Paginates (groundingHistoryAt J D id)
        (fun c i => i.Valid ∧ i.KeepsCursor id.val items c) (ItemsAt J D items) items
        (LogItem.wanted id.val) LogItem.row ∧
      (GoodLog D (items.map (·.2)) → ∃ n,
        ((items.filter (LogItem.wanted id.val)).map LogItem.row).map (·.revision) =
          List.range' 1 n) ∧
      ∀ d c i, ItemsAt J D items d → i.Valid →
        ∃ ws next r, groundingHistoryAt J D id c i d = ⟨ws, .ok (next, r)⟩ ∧
          ((∀ e, r = .error e → next = c) ↔ i.KeepsCursor id.val items c) := by
  refine ⟨fun q n es query => (eventLogPageAt_call q n es query).paginates,
    fun scope query es ps hs => (eventSearchAt_call D hs es ps query).paginates,
    fun id items hid => ⟨PageCall.paginates ⟨fun hd hi => ?_⟩, fun hg => hg.wanted_revisions,
      fun d c i hd hi => ?_⟩⟩
  · obtain ⟨ws, next, r, hrun, hat, hout⟩ := groundingHistoryAt_run hJ hd hid hi.1
    refine ⟨ws, next, r, hrun, hat, ?_⟩
    rcases hout with ⟨-, he | ⟨page, hr, hp⟩⟩ | ⟨hn, -⟩
    · exact .inl he
    · exact .inr ⟨page, _, Nat.pos_of_ne_zero hi.1.1, hr, hp⟩
    · exact absurd hi.2 hn
  · obtain ⟨ws, next, r, hrun, -, hout⟩ := groundingHistoryAt_run (c := c) hJ hd hid hi
    refine ⟨ws, next, r, hrun, ?_⟩
    rcases hout with ⟨hk, ⟨e, rfl, rfl⟩ | ⟨page, rfl, -⟩⟩ | ⟨hk, ⟨e, rfl⟩, hlt⟩
    · exact iff_of_true (fun _ _ => rfl) hk
    · exact iff_of_true nofun hk
    · exact iff_of_false (fun hn => Nat.ne_of_gt hlt (hn e rfl)) hk

/-- The log of a store in any run is one of items whose revisions of an id follow each other. -/
theorem run_itemsAt {ls : List GroundLabel} {σ σ' : Grounds} (hJ : J.RoundTrips)
    (hU : J.WritesUtf8) (h0 : σ.Fresh) (h : Runs (Grounds.Step J D) σ ls σ') :
    ∃ ps : List LogItem, GoodLog D (ps.map (·.2)) ∧ ItemsAt J D ps σ'.disk ∧
      (ls.filterMap committed).Sublist ((ps.map (·.2)).map KnowledgeEntry.version) := by
  obtain ⟨es, hg⟩ := run_grounded hJ hU h0 h
  obtain ⟨ps, rfl, hps⟩ := hg.log.itemsAt hg.good
  exact ⟨ps, hg.good, hps, hg.done⟩

/-- A page that is read and cannot be decoded moves the cursor. -/
theorem HistoryInput.not_keepsCursor {p : LogItem} (hp : p ∈ items) (hs : LogItem.shown id.val p = true)
    (hi : i.Valid) (hrows : i.faults.rows = false) (hpoison : i.poisoned = false)
    (hknow : i.knowledge.poisoned = false) (hpage : i.faults.page 0 = none)
    (hdec : i.faults.decode 0 0 = true) : ¬ i.KeepsCursor id.val items 0 := by
  have hne : ((items.take (pageSpan id.val i.limit items)).filter (LogItem.shown id.val)) ≠ [] := by
    intro hn
    obtain ⟨page, -, hmap⟩ := (pageOf_isPage (items.map (·.1)) (historyNeedle id.val) i.limit
      0).unmap
    have hall := hmap.items
    rw [Nat.sub_zero, List.drop_zero, List.drop_zero] at hall
    have hn' : page = [] := hall.trans hn
    rw [hn'] at hmap
    have hlast := hmap.last (Nat.pos_of_ne_zero hi.1)
    rw [List.drop_zero] at hlast
    have hmem := List.mem_filter.2 ⟨hp, hs⟩
    rw [pageSpan, hlast] at hn
    rw [hn] at hmem
    cases hmem
  rintro (hn | hn | hn | hn)
  · rw [hrows] at hn
    cases hn
  · rw [hpoison, hknow] at hn
    rcases hn with hn | hn <;> cases hn
  · exact hn hpage
  · rw [HistoryQuiet, List.drop_zero] at hn
    rcases hn with hn | ⟨-, hn, -⟩
    · exact hi.1 hn
    · rw [hn 0 (List.length_pos_of_ne_nil hne)] at hdec
      cases hdec

end

/-! ## Calls on one revision -/

theorem plainJson_showsIds : plainJson.ShowsIds := by
  intro fields id text hm _ h
  simp only [plainJson] at h
  split at h
  · next heq =>
    split at h
    · next hc =>
      obtain ⟨hk, hv⟩ := hc
      simp only [List.cons.injEq, and_true] at hk hv
      obtain ⟨rfl, rfl, rfl, rfl, rfl, rfl, rfl, rfl, rfl, rfl⟩ := hk
      obtain ⟨rfl, rfl, rfl, rfl⟩ := hv
      cases h
      obtain rfl := Json.object.inj heq
      have hid : id = plainEntry.id := by
        simp only [List.mem_cons, List.not_mem_nil, or_false, Prod.mk.injEq] at hm
        rcases hm with ⟨hn, -⟩ | ⟨-, hn⟩ | ⟨hn, -⟩ | ⟨hn, -⟩ | ⟨hn, -⟩ | ⟨hn, -⟩ | ⟨hn, -⟩ | ⟨hn, -⟩ |
          ⟨hn, -⟩ | ⟨hn, -⟩
        case inr.inl => exact Json.string.inj hn
        all_goals exact absurd hn (by decide)
      rw [hid]
      decide +kernel
    · cases h
  · cases h

/-- The page that the decoder fails on. -/
def plainHistory : HistoryInput :=
  ⟨⟨false, fun _ => none, fun _ _ => true⟩, false, plainOpened, 1⟩

/-- One revision is in the log, and the call that runs out of memory after it has read its page
reports a cursor behind it. -/
theorem history_cursor_moved : ∃ ls σ ps, plainJson.RoundTrips ∧ plainJson.ShowsIds ∧
    plainStart.Fresh ∧ Runs (Grounds.Step plainJson padDigest) plainStart ls σ ∧
    ItemsAt plainJson padDigest ps σ.disk ∧ plainHistory.Valid ∧
    ∃ ws next e, groundingHistoryAt plainJson padDigest plainCall.id 0 plainHistory σ.disk =
      ⟨ws, .ok (next, .error e)⟩ ∧ 0 < next := by
  obtain ⟨d, h⟩ := plain_grounds
  obtain ⟨ps, hg, hps, hdone⟩ := run_itemsAt plainJson_roundTrips plainJson_utf8 plainStart_fresh h
  have hmem : (plainEntry.id, 1) ∈ (ps.map (·.2)).map KnowledgeEntry.version :=
    hdone.subset (.head _)
  obtain ⟨e, he, hv⟩ := List.mem_map.1 hmem
  obtain ⟨p, hp, rfl⟩ := List.mem_map.1 he
  have hw : LogItem.wanted plainCall.id.val p = true :=
    decide_eq_true (congrArg Prod.fst hv)
  have hid : uuidValid plainCall.id.val = true := by decide +kernel
  have hi : plainHistory.Valid := ⟨by decide, by decide⟩
  have hk : ¬ plainHistory.KeepsCursor plainCall.id.val ps 0 :=
    HistoryInput.not_keepsCursor hp (hps.shows plainJson_showsIds p hp hw) hi rfl rfl rfl rfl rfl
  obtain ⟨ws, next, r, hrun, -, hout⟩ := groundingHistoryAt_run (c := 0) plainJson_showsIds hps hid hi
  rcases hout with ⟨hn, -⟩ | ⟨-, ⟨e, rfl⟩, hlt⟩
  · exact absurd hn hk
  · exact ⟨_, _, ps, plainJson_roundTrips, plainJson_showsIds, plainStart_fresh, h, hps, hi, ws,
      next, e, hrun, hlt⟩

/-- A reader of the one revision. -/
theorem cursors_reported_first : ∃ d ps, ItemsAt plainJson padDigest ps d ∧
    [(plainEntry.id, 1)].Sublist ((ps.map (·.2)).map KnowledgeEntry.version) ∧
    Paginates (groundingHistoryAt plainJson padDigest plainCall.id)
      (fun c i => i.Valid ∧ i.KeepsCursor plainCall.id.val ps c) (ItemsAt plainJson padDigest ps) ps
      (LogItem.wanted plainCall.id.val) LogItem.row := by
  obtain ⟨d, h⟩ := plain_grounds
  obtain ⟨ps, -, hps, hdone⟩ := run_itemsAt plainJson_roundTrips plainJson_utf8 plainStart_fresh h
  exact ⟨d, ps, hps, hdone, ((cursors_reported (D := padDigest) plainJson_showsIds).2.2
    plainCall.id ps (by decide +kernel)).1⟩

end Asper
