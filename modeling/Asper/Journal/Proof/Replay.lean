import Asper.Journal.Journal
import Asper.Event.Proof.Recover

/-! # Replaying the journal

`replayAll` applies the operations of a list of frames. A journal of these frames with a cut one
behind them replays to it and loses the cut frame (`journalReplay_run`), an append without faults
adds a frame (`journalAppend_run`), and a journal with one byte changed is refused
(`journalReplay_damaged`). The results on logs and journals stand together at the end:
`torn_tail_exact` for a file cut at any byte, `damage_never_repaired` for a damaged one. -/

namespace Asper

open Durable

section
variable {σ Op : Type} (C : OpCodec σ Op)

theorem replayAll_append : ∀ (s : σ) (n : Nat) (es fs : List Event),
    replayAll C s n (es ++ fs) =
      (replayAll C s n es).bind fun s => replayAll C s (n + es.length) fs
  | s, n, [], fs => rfl
  | s, n, e :: es, fs => by
    rw [List.cons_append, replayAll, replayAll]
    cases replayFrame C s e (n + 1) with
    | error err => rfl
    | ok s' =>
      show replayAll C s' (n + 1) (es ++ fs) = _
      rw [replayAll_append s' (n + 1) es fs, List.length_cons, Nat.add_right_comm, Nat.add_assoc]
      rfl

/-- A journal that replays, replays up to every frame. -/
theorem replayAll_prefix {s s1 : σ} {n : Nat} {es fs : List Event} (hp : es <+: fs)
    (h : replayAll C s n fs = .ok s1) : ∃ s', replayAll C s n es = .ok s' := by
  obtain ⟨t, rfl⟩ := hp
  rw [replayAll_append] at h
  cases hr : replayAll C s n es with
  | error err => rw [hr] at h; cases h
  | ok s' => exact ⟨s', rfl⟩

theorem replayFrame_ok {s s' : σ} {e : Event} {n : Nat} (h : replayFrame C s e n = .ok s') :
    ∃ op, C.decode e.text = .ok op ∧ C.apply s op = .ok s' := by
  unfold replayFrame at h
  split at h
  · cases h
  · split at h
    · cases h
    · next op hop =>
      split at h
      · cases h
      · split at h
        · cases h
        · next hs =>
          rw [← Except.ok.inj h]
          exact ⟨op, hop, hs⟩

/-- **Two replays of one journal** keep what every frame keeps. -/
theorem replayAll_rel {C' : OpCodec σ Op} {R : σ → σ → Prop}
    (hR : ∀ s t e n s' t', R s t → replayFrame C s e n = .ok s' → replayFrame C' t e n = .ok t' →
      R s' t') {s t s' t' : σ} {n : Nat} {es : List Event} (h : R s t)
    (hs : replayAll C s n es = .ok s') (ht : replayAll C' t n es = .ok t') : R s' t' := by
  induction es generalizing s t n with
  | nil =>
    rwa [← Except.ok.inj hs, ← Except.ok.inj ht]
  | cons e es ih =>
    rw [replayAll] at hs ht
    cases hs₁ : replayFrame C s e (n + 1) with
    | error err =>
      rw [hs₁] at hs
      cases hs
    | ok s₁ =>
      cases ht₁ : replayFrame C' t e (n + 1) with
      | error err =>
        rw [ht₁] at ht
        cases ht
      | ok t₁ =>
        rw [hs₁] at hs
        rw [ht₁] at ht
        exact ih (hR s t e _ s₁ t₁ h hs₁ ht₁) hs ht

/-- **A replay** applies the operations of the whole frames and stops at a cut one. -/
theorem replayFrom_logBytes (D : Digest) {t : Bytes} (ht : frameRead D t = .error .notFound) :
    ∀ {es : List Event} {f g n : Nat} {s : σ}, LogOk n es →
    (logBytes D es ++ t).length ≤ f →
    replayFrom C D f ⟨s, n, g, false⟩ (logBytes D es ++ t) =
      (replayAll C s n es).map fun s =>
        ⟨s, n + es.length, g + (logBytes D es).length, t ≠ []⟩
  | [], fuel, good, n, s, _, hf => by
    cases fuel with
    | zero =>
      obtain rfl : t = [] := List.length_eq_zero_iff.1 (by simpa using hf)
      simp [replayFrom, replayAll, Except.map]
    | succ fuel =>
      show replayFrom C D (fuel + 1) _ t = _
      rw [replayFrom]
      by_cases h : t = []
      · subst h
        simp [replayAll, Except.map]
      · rw [if_neg (by simp [h]), ht]
        simp [replayAll, Except.map, h]
  | e :: es, fuel, good, n, s, ⟨h1, h2, h3⟩, hf => by
    have hpos := length_frameBytes_pos D e
    simp only [logBytes_cons, List.append_assoc, List.length_append] at hf
    cases fuel with
    | zero => omega
    | succ fuel =>
      have hne : ¬ (frameBytes D e ++ (logBytes D es ++ t)).isEmpty = true := by
        intro h
        rw [(List.append_eq_nil_iff.1 (List.isEmpty_iff.1 h)).1] at hpos
        exact Nat.lt_irrefl _ hpos
      simp only [logBytes_cons, List.append_assoc, replayFrom]
      rw [if_neg hne, frameRead_frameBytes D h1, replayAll]
      dsimp only
      cases replayFrame C s e (n + 1) with
      | error err => rfl
      | ok s' =>
        have hstop : good + ((frameBytes D e ++ (logBytes D es ++ t)).length -
            (logBytes D es ++ t).length) = good + (frameBytes D e).length := by
          rw [List.length_append, Nat.add_sub_cancel]
        dsimp only [Except.bind]
        rw [hstop, replayFrom_logBytes D ht h3 (by simp only [List.length_append]; omega)]
        simp only [List.length_append, List.length_cons, Nat.add_assoc, Nat.add_comm 1]

/-- **A replay of a damaged journal** fails. -/
theorem replayFrom_damaged (D : Digest) : ∀ {es : List Event} {f n i g : Nat} {b : UInt8}
    {s s1 : σ}, LogOk n es → (∀ e ∈ es, FrameDetects D e) →
    (logBytes D es).set i b ≠ logBytes D es → (logBytes D es).length ≤ f →
    replayAll C s n es = .ok s1 →
    replayFrom C D f ⟨s, n, g, false⟩ ((logBytes D es).set i b) = .error .parse
  | [], _, _, _, _, _, _, _, _, _, hb, _, _ => absurd rfl hb
  | e :: es, fuel, n, i, good, b, s, s1, ⟨h1, h2, h3⟩, hd, hb, hf, hr => by
    have hpos := length_frameBytes_pos D e
    rw [logBytes_cons, List.length_append] at hf
    cases fuel with
    | zero => omega
    | succ fuel =>
      have hne : ((logBytes D (e :: es)).set i b).isEmpty = false := by
        rw [List.isEmpty_eq_false_iff_exists_mem]
        refine ⟨_, List.getElem_mem (n := 0) ?_⟩
        rw [List.length_set, logBytes_cons, List.length_append]
        omega
      rw [replayFrom, hne, if_neg (by decide)]
      rcases set_frame hb with ⟨hi, hs, he⟩ | ⟨hs, he⟩
      · rw [he, frameRead_damaged h1 (hd e List.mem_cons_self) hi hs]
      · rw [he, frameRead_frameBytes D h1]
        dsimp only
        rw [replayAll] at hr
        cases hf1 : replayFrame C s e (n + 1) with
        | error err => rw [hf1] at hr; cases hr
        | ok s' =>
          rw [hf1] at hr
          exact replayFrom_damaged D h3 (fun e he => hd e (.tail _ he)) hs (by omega) hr

/-! ## The file -/

/-- The journal `n` holds the frames `es` and a cut one. -/
structure JournalFile (D : Digest) (d : Disk) (q : Path) (n : Bytes) (es : List Event)
    (t : Bytes) : Prop where
  dir : d.find q = .found .dir
  ok : LogOk 0 es
  torn : frameRead D t = .error .notFound
  size : (logBytes D es ++ t).length ≤ eventLogBytes
  log : d (q ++ [n]) = some (.file (logBytes D es ++ t))

section
variable {D : Digest} {d : Disk} {q : Path} {n : Bytes} {es : List Event} {t : Bytes}

/-- The file is there and of a size that is read. -/
theorem journalReplay_open {b : Bytes} (hdir : d.find q = .found .dir)
    (hlog : d (q ++ [n]) = some (.file b)) (hsize : b.length ≤ eventLogBytes) (s : σ)
    {x : Except Err (Replay σ)} (hx : replayFrom C D b.length ⟨s, 0, 0, false⟩ b = x) :
    journalReplay C D (q ++ [n]) s d = (Act.lift x >>= fun r => do
      discardTail (q ++ [n]) r
      pure (r.store, r.count) : Io (σ × Nat)) d := by
  have hfs : osFileSize (q ++ [n]) d = ⟨[], .ok b.length⟩ := by
    show Outcome.mk [] (fileSize d (q ++ [n])) = _
    rw [fileSize_child n hdir, hlog]
  have hread : osOpenRead (q ++ [n]) d = ⟨[], .ok b⟩ := by
    show Outcome.mk [] (readable d (q ++ [n])) = _
    rw [readable, blob_child n hdir, hlog]
  rw [journalReplay, Act.bind_run (Act.attempt_run hfs)]
  dsimp only [applyAll_nil, List.nil_append]
  rw [Act.writes, Act.result, require_bind hsize, Act.bind_run hread, hx]
  rfl

/-- **Replaying the journal** gives the state after its whole frames and cuts off what follows
them. -/
theorem journalReplay_run (h : JournalFile D d q n es t) {s s' : σ}
    (hs : replayAll C s 0 es = .ok s') :
    ∃ ws, journalReplay C D (q ++ [n]) s d = ⟨ws, .ok (s', es.length)⟩ ∧
      JournalFile D (applyAll ws d) q n es [] := by
  have hx := replayFrom_logBytes C D h.torn (s := s) (g := 0) h.ok (Nat.le_refl _)
  rw [hs] at hx
  have hsize := h.size
  rw [List.length_append] at hsize
  rw [journalReplay_open C h.dir h.log h.size s hx, Act.bind_run (by rw [Act.lift]; rfl)]
  dsimp only [applyAll_nil, List.nil_append]
  simp only [Nat.zero_add]
  by_cases ht : t = []
  · refine ⟨[], ?_, h.dir, h.ok, frameRead_nil D, by rw [List.append_nil]; omega, ?_⟩
    · simp only [ht, ne_eq, not_true_eq_false, decide_false, discardTail]
      rfl
    · rw [applyAll_nil, h.log, ht]
  · have htr := osTruncate_child (d := d) n (logBytes D es).length h.dir h.log
    have hcut : (Write.truncate (q ++ [n]) (logBytes D es).length).apply d =
        d.set (q ++ [n]) (some (.file (logBytes D es))) := by
      rw [Write.apply, Disk.data, h.log, List.take_left]
    have hdir : (d.set (q ++ [n]) (some (.file (logBytes D es)))).find q = .found .dir := by
      rw [Disk.find_set_child, h.dir]
    have happ := osAppend_child (d := d.set (q ++ [n]) (some (.file (logBytes D es)))) n [] hdir
      (by rw [Disk.set_self]; simp)
    have htail : discardTail (q ++ [n]) (⟨s', es.length, (logBytes D es).length, true⟩ : Replay σ)
        d = ⟨[.truncate (q ++ [n]) (logBytes D es).length, .append (q ++ [n]) []], .ok ()⟩ := by
      rw [discardTail, if_pos rfl]
      exact Act.bind_run_run htr (by rw [applyAll_cons, applyAll_nil, hcut]; exact happ)
    refine ⟨[.truncate (q ++ [n]) (logBytes D es).length, .append (q ++ [n]) []], ?_, ?_, h.ok,
      frameRead_nil D, by rw [List.append_nil]; omega, ?_⟩
    · simp only [ht, ne_eq, not_false_eq_true, decide_true]
      have := Act.bind_run_run (f := fun _ => (pure (s', es.length) : Io (σ × Nat))) htail rfl
      rw [Act.writes, Act.result, this]
      rfl
    · simp only [applyAll_cons, applyAll_nil, hcut]
      rw [Write.apply, Disk.find_set_child, hdir]
    · simp only [applyAll_cons, applyAll_nil, hcut]
      rw [Write.apply, Disk.set_self, Disk.data, Disk.set_self, List.append_nil]

theorem journalReplay_complete (h : JournalFile D d q n es []) (s : σ) :
    (journalReplay C D (q ++ [n]) s).result d =
      (replayAll C s 0 es).map fun s => (s, es.length) := by
  cases hs : replayAll C s 0 es with
  | ok s' =>
    obtain ⟨ws, hrun, -⟩ := journalReplay_run C h hs
    rw [Act.result, hrun]
    rfl
  | error err =>
    have hx := replayFrom_logBytes C D h.torn (s := s) (g := 0) h.ok (Nat.le_refl _)
    rw [hs] at hx
    rw [Act.result, journalReplay_open C h.dir h.log h.size s hx]
    rfl

/-- **Replaying a damaged journal** fails and writes nothing. -/
theorem journalReplay_damaged {i : Nat} {b : UInt8} (h : DamagedLog D d q n es i b) {s s1 : σ}
    (hs : replayAll C s 0 es = .ok s1) :
    journalReplay C D (q ++ [n]) s d = ⟨[], .error .parse⟩ := by
  have hx := replayFrom_damaged C D (f := ((logBytes D es).set i b).length) (g := 0)
    h.ok h.detects h.changed (by rw [List.length_set]) hs
  rw [journalReplay_open C h.dir h.log (by rw [List.length_set]; exact h.size) s hx]
  rfl

theorem journalWrite_none (path : Path) (j : JournalState) (sync : Bool) (offset : Nat) (d : Disk)
    {e : Event} {frame : Bytes} (he : frameWrite D e = .ok frame) :
    journalWrite .none D path j sync offset e d =
      ⟨[.append path frame], .ok ({ j with ops := j.ops + 1 }, none)⟩ := by
  unfold journalWrite
  rw [he]
  cases sync <;> rfl

/-- **An append without faults** adds the frame of the operation. -/
theorem journalAppend_run (h : JournalFile D d q n es []) {op : Op} {text : Bytes} (id : Uuid)
    (sync : Bool) (hop : C.serialize op = .ok text)
    (hf : (journalEvent C (.opened es.length) op text id).Fields)
    (hroom : (logBytes D es).length + text.length + 512 ≤ eventLogBytes) :
    ∃ ws, journalAppend C .none D (q ++ [n]) (.opened es.length) op id sync d =
        ⟨ws, .ok (.opened (es.length + 1), none)⟩ ∧
      JournalFile D (applyAll ws d) q n
        (es ++ [journalEvent C (.opened es.length) op text id]) [] := by
  have hlen := length_le_logBytes D es
  have hok : (journalEvent C (.opened es.length) op text id).Ok :=
    { toFields := hf
      seq_pos := Nat.succ_pos _
      seq_lt := by
        show es.length + 1 < 2 ^ 64
        unfold eventLogBytes at hroom
        omega }
  have hdata : d.data (q ++ [n]) = logBytes D es := by rw [Disk.data, h.log, List.append_nil]
  have hsz : text.length ≤ eventBytes := hf.size
  generalize he : journalEvent C (.opened es.length) op text id = e at hok
  have htext : e.text.length = text.length := by rw [← he]; rfl
  refine ⟨[.append (q ++ [n]) (frameBytes D e)], ?_, ?_, ?_, frameRead_nil D, ?_, ?_⟩
  · have hbytes : journalBytes (q ++ [n]) d = ⟨[], .ok (logBytes D es).length⟩ := by
      rw [journalBytes, Act.look, hdata]
    rw [journalAppend, if_neg (by decide), hop]
    dsimp only
    rw [Act.bind_run hbytes]
    dsimp only [applyAll_nil, List.nil_append]
    rw [if_neg (by simp [JournalState.opened, JournalFaults.none]), if_neg (by omega), he, Act.writes,
      Act.result, journalWrite_none _ _ _ _ _ (frameWrite_ok D hok)]
    rfl
  · rw [applyAll_cons, applyAll_nil, Write.apply, Disk.find_set_child, h.dir]
  · exact LogOk.append.2 ⟨h.ok, hok, by rw [← he, Nat.zero_add]; rfl, trivial⟩
  · rw [List.append_nil]
    exact size_push hok (by rw [htext]; exact hroom)
  · rw [applyAll_cons, applyAll_nil, Write.apply, Disk.set_self, hdata]
    simp

theorem CutLog.journal {k : Nat} (h : CutLog D d q n es k) :
    ∃ t, JournalFile D d q n (wholeFrames D k es) t := by
  obtain ⟨t, ht, hf⟩ := h.file
  exact ⟨t, hf.dir, hf.ok, hf.torn, ht ▸ h.size, hf.log⟩

/-- **A torn tail is recovered exactly.** Over the first `k` bytes of a log, a rebuild of the index
and a replay of the journal recover the whole frames, truncate the file to them and fail in no way;
the next append takes the next sequence number and is read back behind them. -/
theorem torn_tail_exact {k : Nat} (h : CutLog D d q n es k) :
    (∃ d1, (rebuild D (q ++ [n]) ((logBytes D es).take k)).final d = d1 ∧
      (rebuild D (q ++ [n]) ((logBytes D es).take k)).result d =
        .ok (filesOf D (wholeFrames D k es)) ∧
      d1 (q ++ [n]) = some (.file (logBytes D (wholeFrames D k es))) ∧
      ∀ (e : Event) (limit : Nat), e.Fields →
        (logBytes D (wholeFrames D k es)).length + e.text.length + 512 ≤ eventLogBytes →
        ∃ d2, (eventLogAppend D (q ++ [n]) e).final d1 = d2 ∧
          (eventLogAppend D (q ++ [n]) e).result d1 = .ok (nextEvent (wholeFrames D k es) e) ∧
          (eventLogPage D (q ++ [n]) [] 0 limit).result d2 =
            .ok ((wholeFrames D k es ++ [nextEvent (wholeFrames D k es) e]).take limit,
              ((wholeFrames D k es ++ [nextEvent (wholeFrames D k es) e]).take limit).length)) ∧
    ∀ s s1 : σ, replayAll C s 0 es = .ok s1 →
    ∃ d1 s', (journalReplay C D (q ++ [n]) s).final d = d1 ∧
      replayAll C s 0 (wholeFrames D k es) = .ok s' ∧
      (journalReplay C D (q ++ [n]) s).result d = .ok (s', (wholeFrames D k es).length) ∧
      d1 (q ++ [n]) = some (.file (logBytes D (wholeFrames D k es))) ∧
      ∀ (op : Op) (text : Bytes) (id : Uuid) (sync : Bool) (new : Event),
        C.serialize op = .ok text →
        new = journalEvent C (.opened (wholeFrames D k es).length) op text id → new.Fields →
        (logBytes D (wholeFrames D k es)).length + text.length + 512 ≤ eventLogBytes →
        ∃ d2, (journalAppend C .none D (q ++ [n]) (.opened (wholeFrames D k es).length) op id
              sync).final d1 = d2 ∧
          (journalAppend C .none D (q ++ [n]) (.opened (wholeFrames D k es).length) op id
              sync).result d1 = .ok (.opened ((wholeFrames D k es).length + 1), none) ∧
          new.sequence = (wholeFrames D k es).length + 1 ∧
          d2 (q ++ [n]) = some (.file (logBytes D (wholeFrames D k es ++ [new]))) ∧
          (journalReplay C D (q ++ [n]) s).result d2 =
            (replayAll C s 0 (wholeFrames D k es ++ [new])).map fun s =>
              (s, (wholeFrames D k es).length + 1) := by
  obtain ⟨hres, hfull⟩ := h.rebuild
  refine ⟨⟨_, rfl, hres, hfull.2.1, fun e limit he hroom => ?_⟩, fun s s1 hs => ?_⟩
  · obtain ⟨h1, -, h3⟩ := hfull.append_page he hroom limit
    exact ⟨_, rfl, h1, h3⟩
  · obtain ⟨t, hj⟩ := h.journal
    obtain ⟨s', hs'⟩ := replayAll_prefix C (wholeFrames_within D k es) hs
    obtain ⟨ws, hrun, hfin⟩ := journalReplay_run C hj hs'
    have hd1 : (journalReplay C D (q ++ [n]) s).final d = applyAll ws d := by
      rw [Act.final, Act.writes, hrun]
    refine ⟨_, s', hd1, hs', by rw [Act.result, hrun], by rw [hfin.log, List.append_nil],
      fun op text id sync new hop hnew hf hroom => ?_⟩
    subst hnew
    obtain ⟨vs, happ, hnew⟩ := journalAppend_run C hfin id sync hop hf hroom
    have hd2 : (journalAppend C .none D (q ++ [n]) (.opened (wholeFrames D k es).length) op id
        sync).final (applyAll ws d) = applyAll vs (applyAll ws d) := by
      rw [Act.final, Act.writes, happ]
    refine ⟨_, hd2, by rw [Act.result, happ], rfl, by rw [hnew.log, List.append_nil], ?_⟩
    rw [journalReplay_complete C hnew s]
    simp only [List.length_append, List.length_singleton]

/-- The codec of a store that keeps the texts of its operations. -/
def textCodec : OpCodec (List Bytes) Bytes :=
  ⟨fun _ => 0, .ok, .ok, fun s op => .ok (s ++ [op])⟩

/-- The first frame of a journal of `textCodec`. -/
def noted : Event := journalEvent textCodec (.opened 0) (ascii "x") (ascii "x") (uuidV4 fun _ => 0)

theorem noted_ok : noted.Ok :=
  { at_ge := by decide, at_lt := by decide, id_valid := Uuid.valid _, object := .inl rfl
    no_nul := by decide, utf8 := by decide, size := by decide, seq_pos := by decide
    seq_lt := by decide }

/-- A store directory that holds a journal of the bytes `b` and no index. -/
def notedDisk (b : Bytes) : Disk := fun p => if p = [] ++ [ascii "j"] then some (.file b) else none

theorem notedDisk_other (b : Bytes) {p : Path} (h : p ≠ [] ++ [ascii "j"]) : notedDisk b p = none :=
  if_neg h

theorem noted_cut : CutLog sumDigest (notedDisk ((logBytes sumDigest [noted]).take 10)) []
    (ascii "j") [noted] 10 where
  dir := rfl
  ok := ⟨noted_ok, rfl, trivial⟩
  size := Nat.le_trans (List.length_take_le ..) (by decide)
  log := if_pos rfl
  index := by rw [notedDisk_other _ (indexPath_ne _ _)]; simp
  tmp := by rw [notedDisk_other _ (indexTmp_ne _ _)]; simp

theorem torn_tail_noted :
    (rebuild sumDigest ([] ++ [ascii "j"]) ((logBytes sumDigest [noted]).take 10)).result
        (notedDisk ((logBytes sumDigest [noted]).take 10)) = .ok (filesOf sumDigest []) ∧
      (journalReplay textCodec sumDigest ([] ++ [ascii "j"]) []).result
        (notedDisk ((logBytes sumDigest [noted]).take 10)) = .ok ([], 0) := by
  have hwhole : wholeFrames sumDigest 10 [noted] = [] := if_neg (by decide +kernel)
  obtain ⟨⟨_, -, h1, -⟩, hreplay⟩ := torn_tail_exact textCodec noted_cut
  obtain ⟨_, s', -, h2, h3, -⟩ := hreplay [] [ascii "x"] rfl
  rw [hwhole] at h1 h2 h3
  exact ⟨h1, by rw [h3, ← Except.ok.inj h2]; rfl⟩

/-- **Damage is never repaired.** In a log with one byte changed, a rebuild of the index, opening,
reading and replaying fail with `Err.parse` or give the events that were written, and leave the
log as it is. -/
theorem damage_never_repaired {i : Nat} {b : UInt8} (h : DamagedLog D d q n es i b) :
    ((rebuild D (q ++ [n]) ((logBytes D es).set i b)).result d = .error .parse ∧
      (rebuild D (q ++ [n]) ((logBytes D es).set i b)).final d (q ++ [n]) = d (q ++ [n])) ∧
    ((filesOpen D (q ++ [n])).final d (q ++ [n]) = d (q ++ [n]) ∧
      ((filesOpen D (q ++ [n])).result d = .error .parse ∨
        ∃ fs, (filesOpen D (q ++ [n])).result d = .ok fs ∧ fs.count = es.length ∧
          ∀ (m : Nat) (hm : m < es.length),
            (filesRead D (q ++ [n]) fs (m + 1) d = ⟨[], .error .parse⟩ ∨
              filesRead D (q ++ [n]) fs (m + 1) d = ⟨[], .ok (es[m], fs)⟩) ∧
            (filesHead D (q ++ [n]) fs (m + 1) d = ⟨[], .error .parse⟩ ∨
              filesHead D (q ++ [n]) fs (m + 1) d = ⟨[], .ok (es[m].bare, fs)⟩))) ∧
    (∀ (query : Bytes) (after limit : Nat),
      (eventLogPage D (q ++ [n]) query after limit).final d (q ++ [n]) = d (q ++ [n]) ∧
      ((eventLogPage D (q ++ [n]) query after limit).result d = .error .parse ∨
        (eventLogPage D (q ++ [n]) query after limit).result d =
          .ok (pageOf query limit (es.drop after) after []))) ∧
    ∀ s s1 : σ, replayAll C s 0 es = .ok s1 →
      journalReplay C D (q ++ [n]) s d = ⟨[], .error .parse⟩ := by
  have htmp := (indexTmp_ne q n).symm
  have hkeep : applyAll [.create (indexTmp (q ++ [n])) [], .remove (indexTmp (q ++ [n]))] d
      (q ++ [n]) = d (q ++ [n]) :=
    applyAll_frame d fun w hw => by
      simp only [List.mem_cons, List.not_mem_nil, or_false] at hw
      rcases hw with rfl | rfl <;> simpa [Write.paths] using htmp
  refine ⟨?_, ?_, fun query after limit => ⟨?_, h.page query after limit⟩,
    fun s s1 hs => journalReplay_damaged C h hs⟩
  · rw [Act.result, Act.final, Act.writes, h.rebuild]
    exact ⟨rfl, hkeep⟩
  · rw [Act.result, Act.final, Act.writes]
    rcases h.filesOpen with hr | hr
    · rw [hr]
      exact ⟨hkeep, .inl rfl⟩
    · rw [hr]
      exact ⟨rfl, .inr ⟨_, rfl, rfl, fun m hm => ⟨h.filesRead hm, h.filesHead hm⟩⟩⟩
  · rw [Act.final, Act.writes, eventLogPage]
    rcases h.filesOpen with hr | hr
    · rw [Act.bind_run (Act.attempt_run hr)]
      exact hkeep
    · rw [Act.bind_run (Act.attempt_run hr)]
      rcases h.pageFrom query limit (max (damagedFiles D es i b).count
        (damagedFiles D es i b).log.length) after []
        (Nat.le_trans (Nat.sub_le ..) (Nat.le_max_left ..)) with hp | hp
      all_goals
        dsimp only [applyAll_nil, List.nil_append]
        rw [Act.writes, hp, applyAll_nil]

theorem noted_damaged : DamagedLog sumDigest (notedDisk ((logBytes sumDigest [noted]).set 0 66)) []
    (ascii "j") [noted] 0 66 where
  dir := rfl
  ok := ⟨noted_ok, rfl, trivial⟩
  detects _ _ := ⟨detects_sum _, detects_sum _⟩
  size := by decide +kernel
  changed := by decide +kernel
  log := if_pos rfl
  index := .inl (notedDisk_other _ (indexPath_ne _ _))
  tmp := by rw [notedDisk_other _ (indexTmp_ne _ _)]; simp

theorem damage_noted :
    (rebuild sumDigest ([] ++ [ascii "j"]) ((logBytes sumDigest [noted]).set 0 66)).result
        (notedDisk ((logBytes sumDigest [noted]).set 0 66)) = .error .parse ∧
      journalReplay textCodec sumDigest ([] ++ [ascii "j"]) []
        (notedDisk ((logBytes sumDigest [noted]).set 0 66)) = ⟨[], .error .parse⟩ := by
  obtain ⟨⟨h1, -⟩, -, -, h2⟩ := damage_never_repaired textCodec noted_damaged
  exact ⟨h1, h2 [] [ascii "x"] rfl⟩

end

end

end Asper
