import Asper.Event.Proof.Log
import Asper.Event.Proof.Damage

/-! # Cut and damaged logs

A log cut at any byte is its whole frames and a cut one (`logBytes_take`), which a rebuild of the
index recovers (`CutLog.rebuild`). A log with one byte changed is refused by a rebuild, which
writes the temporary index only (`DamagedLog.rebuild`); read through its index every frame is
either refused or the frame that was written (`DamagedLog.filesRead`, `DamagedLog.page`). -/

namespace Asper

open Durable

/-! ## Cut logs -/

/-- The frames that lie wholly in the first `k` bytes of the log. -/
def wholeFrames (D : Digest) : Nat → List Event → List Event
  | _, [] => []
  | k, e :: es =>
    if (frameBytes D e).length ≤ k then e :: wholeFrames D (k - (frameBytes D e).length) es else []

theorem wholeFrames_within (D : Digest) : ∀ (k : Nat) (es : List Event), wholeFrames D k es <+: es
  | _, [] => List.prefix_refl _
  | k, e :: es => by
    rw [wholeFrames]
    split
    · exact List.cons_prefix_cons.2 ⟨rfl, wholeFrames_within D _ es⟩
    · exact List.nil_prefix

/-- **A cut log** is its whole frames and what reads as a cut frame. -/
theorem logBytes_take (D : Digest) : ∀ (k : Nat) {n : Nat} {es : List Event}, LogOk n es →
    ∃ t, (logBytes D es).take k = logBytes D (wholeFrames D k es) ++ t ∧
      frameRead D t = .error .notFound
  | k, _, [], _ => ⟨[], by simp [wholeFrames], rfl⟩
  | k, n, e :: es, ⟨h1, _, h3⟩ => by
    rw [wholeFrames, logBytes_cons, List.take_append]
    split
    · next hk =>
      obtain ⟨t, ht, hr⟩ := logBytes_take D (k - (frameBytes D e).length) h3
      exact ⟨t, by rw [ht, List.take_of_length_le hk, logBytes_cons, List.append_assoc], hr⟩
    · next hk =>
      refine ⟨(frameBytes D e).take k, ?_, frameRead_torn D h1 (by omega)⟩
      rw [Nat.sub_eq_zero_of_le (by omega), List.take_zero, List.append_nil]
      rfl

/-- The frames of a cut log are the longest list of frames that fits. -/
theorem wholeFrames_spec (D : Digest) : ∀ (k : Nat) (es : List Event),
    ∃ j, wholeFrames D k es = es.take j ∧ j ≤ es.length ∧ (logBytes D (es.take j)).length ≤ k ∧
      (j < es.length → k < (logBytes D (es.take (j + 1))).length)
  | k, [] => ⟨0, rfl, Nat.le_refl _, Nat.zero_le _, fun h => absurd h (Nat.lt_irrefl _)⟩
  | k, e :: es => by
    rw [wholeFrames]
    split
    · next hk =>
      obtain ⟨j, h1, h2, h3, h4⟩ := wholeFrames_spec D (k - (frameBytes D e).length) es
      refine ⟨j + 1, by rw [h1, List.take_succ_cons], Nat.succ_le_succ h2, ?_, fun hj => ?_⟩
      · rw [List.take_succ_cons, logBytes_cons, List.length_append]
        omega
      · have := h4 (Nat.lt_of_succ_lt_succ hj)
        rw [List.take_succ_cons, logBytes_cons, List.length_append]
        omega
    · next hk =>
      refine ⟨0, rfl, Nat.zero_le _, Nat.zero_le _, fun _ => ?_⟩
      rw [List.take_succ_cons, List.take_zero, logBytes_cons, logBytes_nil, List.append_nil]
      omega

/-- The log `n` holds the first `k` bytes of the frames of `es`. -/
structure CutLog (D : Digest) (d : Disk) (q : Path) (n : Bytes) (es : List Event) (k : Nat) :
    Prop where
  dir : d.find q = .found .dir
  ok : LogOk 0 es
  size : ((logBytes D es).take k).length ≤ eventLogBytes
  log : d (q ++ [n]) = some (.file ((logBytes D es).take k))
  index : d (indexPath (q ++ [n])) ≠ some .dir
  tmp : d (indexTmp (q ++ [n])) ≠ some .dir

section
variable {D : Digest} {d : Disk} {q : Path} {n : Bytes} {es : List Event} {k : Nat}

theorem LogOk.whole (h : LogOk 0 es) (k : Nat) : LogOk 0 (wholeFrames D k es) := by
  obtain ⟨t, ht⟩ := wholeFrames_within D k es
  rw [← ht] at h
  exact (LogOk.append.1 h).1

theorem CutLog.file (h : CutLog D d q n es k) : ∃ t,
    (logBytes D es).take k = logBytes D (wholeFrames D k es) ++ t ∧
      LogFile D d q n (wholeFrames D k es) t := by
  obtain ⟨t, ht, hr⟩ := logBytes_take D k h.ok
  exact ⟨t, ht, h.dir, h.ok.whole k, hr, by rw [h.log, ht], h.index, h.tmp⟩

/-- **A rebuild of the index of a cut log** recovers the whole frames and truncates the log to
them. -/
theorem CutLog.rebuild (h : CutLog D d q n es k) :
    (rebuild D (q ++ [n]) ((logBytes D es).take k)).result d =
        .ok (filesOf D (wholeFrames D k es)) ∧
      LogFull D q n (wholeFrames D k es)
        ((Asper.rebuild D (q ++ [n]) ((logBytes D es).take k)).final d) := by
  obtain ⟨t, ht, hf⟩ := h.file
  have hrun := rebuild_run hf
  have hsize := h.size
  rw [ht, List.length_append] at hsize
  rw [ht, Act.result, Act.final, Act.writes, hrun]
  exact ⟨rfl, rebuild_full hf (by omega)⟩

/-- **An append to a complete log** gets the next sequence number, and a page read afterwards
shows the events with the new one. -/
theorem LogFull.append_page (h : LogFull D q n es d) {e : Event} (he : e.Fields)
    (hroom : (logBytes D es).length + e.text.length + 512 ≤ eventLogBytes) (limit : Nat) :
    (eventLogAppend D (q ++ [n]) e).result d = .ok (nextEvent es e) ∧
      (eventLogAppend D (q ++ [n]) e).final d (q ++ [n]) =
        some (.file (logBytes D (es ++ [nextEvent es e]))) ∧
      (eventLogPage D (q ++ [n]) [] 0 limit).result ((eventLogAppend D (q ++ [n]) e).final d) =
        .ok ((es ++ [nextEvent es e]).take limit, ((es ++ [nextEvent es e]).take limit).length) := by
  obtain ⟨ws, hrun, hlog⟩ := eventLogAppend_run h.1 he hroom
  have hres : (eventLogAppend D (q ++ [n]) e).result d = .ok (nextEvent es e) := by
    rw [Act.result, hrun]
  have hfin : (eventLogAppend D (q ++ [n]) e).final d = applyAll ws d := by
    rw [Act.final, Act.writes, hrun]
  obtain ⟨vs, hpage, -⟩ := eventLogPage_run hlog.final 0 limit
  refine ⟨hres, ?_, ?_⟩
  · rw [hfin]
    rcases hlog.final.log with hl | ⟨-, hnil, -⟩
    · rw [hl, List.append_nil]
    · simp at hnil
  · rw [hfin, Act.result, hpage, List.drop_zero, Nat.zero_add]

end

/-! ## Damaged logs -/

/-- The log `n` of the events `es` with the byte at `i` replaced by `b`. -/
structure DamagedLog (D : Digest) (d : Disk) (q : Path) (n : Bytes) (es : List Event) (i : Nat)
    (b : UInt8) : Prop where
  dir : d.find q = .found .dir
  ok : LogOk 0 es
  detects : ∀ e ∈ es, FrameDetects D e
  size : (logBytes D es).length ≤ eventLogBytes
  changed : (logBytes D es).set i b ≠ logBytes D es
  log : d (q ++ [n]) = some (.file ((logBytes D es).set i b))
  index : d (indexPath (q ++ [n])) = none ∨
    ∃ k, d (indexPath (q ++ [n])) = some (.file ((fullIndex D es).take k))
  tmp : d (indexTmp (q ++ [n])) ≠ some .dir

/-- The damage is in the first frame, or after it. -/
theorem set_frame {D : Digest} {e : Event} {es : List Event} {i : Nat} {b : UInt8}
    (h : (logBytes D (e :: es)).set i b ≠ logBytes D (e :: es)) :
    (i < (frameBytes D e).length ∧ (frameBytes D e).set i b ≠ frameBytes D e ∧
        (logBytes D (e :: es)).set i b = (frameBytes D e).set i b ++ logBytes D es) ∨
      ((logBytes D es).set (i - (frameBytes D e).length) b ≠ logBytes D es ∧
        (logBytes D (e :: es)).set i b =
          frameBytes D e ++ (logBytes D es).set (i - (frameBytes D e).length) b) := by
  rw [logBytes_cons, List.set_append] at h ⊢
  split at h
  · next hi =>
    rw [if_pos hi]
    exact .inl ⟨hi, fun he => h (by rw [he]), rfl⟩
  · next hi =>
    rw [if_neg hi]
    exact .inr ⟨fun he => h (by rw [he]), rfl⟩

/-- **A scan of a damaged log** fails. -/
theorem scanLog_damaged (D : Digest) : ∀ {es : List Event} {f n i g : Nat} {b : UInt8}
    {r : Bytes}, LogOk n es → (∀ e ∈ es, FrameDetects D e) →
    (logBytes D es).set i b ≠ logBytes D es → (logBytes D es).length ≤ f →
    scanLog D f ⟨r, g, n, false⟩ ((logBytes D es).set i b) = .error .parse
  | [], _, _, _, _, _, _, _, _, hb, _ => absurd rfl hb
  | e :: es, fuel, n, i, good, b, rows, ⟨h1, h2, h3⟩, hd, hb, hf => by
    have hpos := length_frameBytes_pos D e
    rw [logBytes_cons, List.length_append] at hf
    cases fuel with
    | zero => omega
    | succ fuel =>
      have hne : ((logBytes D (e :: es)).set i b).isEmpty = false := by
        rw [List.isEmpty_eq_false_iff_exists_mem]
        refine ⟨_, List.getElem_mem (n := 0) ?_⟩
        rw [List.length_set, logBytes_cons, List.length_append]
        omega
      rw [scanLog, hne, if_neg (by decide)]
      rcases set_frame hb with ⟨hi, hs, he⟩ | ⟨hs, he⟩
      · rw [he, frameRead_damaged h1 (hd e List.mem_cons_self) hi hs]
      · rw [he, frameRead_frameBytes D h1]
        dsimp only
        rw [if_neg (by simp [h2])]
        exact scanLog_damaged D h3 (fun e he => hd e (.tail _ he)) hs (by omega)

section
variable {D : Digest} {d : Disk} {q : Path} {n : Bytes} {es : List Event} {i : Nat} {b : UInt8}

/-- **A rebuild of the index of a damaged log** fails, and writes the temporary index only. -/
theorem DamagedLog.rebuild (h : DamagedLog D d q n es i b) :
    rebuild D (q ++ [n]) ((logBytes D es).set i b) d =
      ⟨[.create (indexTmp (q ++ [n])) [], .remove (indexTmp (q ++ [n]))], .error .parse⟩ := by
  have hcreate : osWriteFile (indexTmp (q ++ [n])) [] d =
      ⟨[.create (indexTmp (q ++ [n])) []], .ok ()⟩ := by
    rw [indexTmp_concat]
    exact osWriteFile_child _ _ h.dir (by rw [← indexTmp_concat]; exact h.tmp)
  have hscan := scanLog_damaged D (f := ((logBytes D es).set i b).length) (g := 0)
    (r := indexMagic) h.ok h.detects h.changed (by rw [List.length_set])
  have hinto : ∀ d1, rebuildInto D (q ++ [n]) ((logBytes D es).set i b) d1 =
      ⟨[], .error .parse⟩ := fun d1 =>
    Act.bind_run_error (by rw [Act.lift, hscan])
  have hdir : (d.set (indexTmp (q ++ [n])) (some (.file []))).find q = .found .dir := by
    rw [indexTmp_concat, Disk.find_set_child, h.dir]
  have hfind : (d.set (indexTmp (q ++ [n])) (some (.file []))).find (indexTmp (q ++ [n])) =
      .found (.file []) := by
    rw [indexTmp_concat] at hdir ⊢
    exact Disk.find_child_some hdir (Disk.set_self ..)
  have hremove : osRemoveFile (indexTmp (q ++ [n]))
      (d.set (indexTmp (q ++ [n])) (some (.file []))) =
      ⟨[.remove (indexTmp (q ++ [n]))], .ok ()⟩ := by
    rw [osRemoveFile, Act.bind_run (w := []) (a := .found (.file [])) (by rw [Act.look, hfind])]
    rfl
  rw [Asper.rebuild, Act.bind_run hcreate]
  dsimp only [applyAll_cons, applyAll_nil, Write.apply]
  rw [Act.writes_attempt_bind, Act.result_attempt_bind]
  simp only [Act.writes, Act.result, Act.final, hinto]
  have hend := Act.bind_run_run (f := fun _ => (Act.fail .parse : Io EventFiles))
    (ignore_run hremove) rfl
  rw [applyAll_nil, hend]
  rfl

/-- The opened files of a damaged log whose index is complete. -/
def damagedFiles (D : Digest) (es : List Event) (i : Nat) (b : UInt8) : EventFiles :=
  ⟨(logBytes D es).set i b, fullIndex D es, es.length⟩

/-- **Opening a damaged log** fails, or takes it with its index. The log is left alone. -/
theorem DamagedLog.filesOpen (h : DamagedLog D d q n es i b) :
    filesOpen D (q ++ [n]) d =
        ⟨[.create (indexTmp (q ++ [n])) [], .remove (indexTmp (q ++ [n]))], .error .parse⟩ ∨
      filesOpen D (q ++ [n]) d = ⟨[], .ok (damagedFiles D es i b)⟩ := by
  have hblob : osBlobOpen (q ++ [n]) d = ⟨[], .ok ((logBytes D es).set i b)⟩ := by
    show Outcome.mk [] (blob d (q ++ [n])) = _
    rw [blob_child n h.dir, h.log]
  obtain ⟨k, hk⟩ : ∃ k, orElse (osBlobOpen (indexPath (q ++ [n]))) .notFound [] d =
      ⟨[], .ok ((fullIndex D es).take k)⟩ := by
    have hb : osBlobOpen (indexPath (q ++ [n])) d = ⟨[], blob d (indexPath (q ++ [n]))⟩ := rfl
    have hidx := h.index
    rw [indexPath_concat] at hidx hb ⊢
    rw [blob_child _ h.dir] at hb
    rcases hidx with hi | ⟨k, hi⟩
    · rw [hi] at hb
      exact ⟨0, by rw [orElse_run _ _ hb (by simp), List.take_zero]⟩
    · rw [hi] at hb
      exact ⟨k, by rw [orElse_run _ _ hb (by simp)]⟩
  have hopen : Asper.filesOpen D (q ++ [n]) d =
      filesUse D (q ++ [n]) ((logBytes D es).set i b) ((fullIndex D es).take k) d := by
    have huse := Act.bind_run_run (f := filesUse D (q ++ [n]) ((logBytes D es).set i b)) hk rfl
    have hsize : ((logBytes D es).set i b).length ≤ eventLogBytes := by
      rw [List.length_set]; exact h.size
    rw [Asper.filesOpen]
    exact Act.bind_run_run hblob
      ((require_bind hsize).trans huse)
  rw [hopen, filesUse]
  cases hu : indexUsable D ((logBytes D es).set i b) ((fullIndex D es).take k) with
  | none => exact .inl h.rebuild
  | some count =>
    obtain ⟨hc, hlen, hidx⟩ := indexUsable_rows D (size_lt h.size) hu
    have hcount : count = es.length := by
      by_contra hne
      have := length_logBytes_take_lt D (show count < es.length by omega)
      have := length_logBytes_take_le D es (count + 1)
      rw [List.length_set] at hlen
      omega
    rw [hcount, List.take_length] at hidx
    exact .inr (by rw [hidx, hcount]; rfl)

/-- What stands at the place of frame `m`: the frame, or the frame with one byte changed. -/
theorem damaged_frame (D : Digest) (i : Nat) (b : UInt8) {m : Nat} (hm : m < es.length) :
    ∃ y rest, ((logBytes D es).set i b).drop (logBytes D (es.take m)).length = y ++ rest ∧
      rest.length + (logBytes D (es.take (m + 1))).length = (logBytes D es).length ∧
      (y = frameBytes D es[m] ∨ ∃ j, j < (frameBytes D es[m]).length ∧
        y = (frameBytes D es[m]).set j b ∧ y ≠ frameBytes D es[m]) := by
  have hsplit := logBytes_split D hm
  have hlen : (logBytes D (es.take (m + 1))).length =
      (logBytes D (es.take m)).length + (frameBytes D es[m]).length := by
    rw [List.take_succ_eq_append_getElem hm, logBytes_append, List.length_append, logBytes_cons,
      logBytes_nil, List.append_nil]
  have htot := congrArg List.length hsplit
  simp only [List.length_append] at htot
  rw [List.drop_set, hsplit, List.drop_left]
  split
  · exact ⟨_, _, rfl, by rw [← hsplit]; omega, .inl rfl⟩
  · rw [List.set_append]
    split
    · next hj =>
      refine ⟨_, _, rfl, by rw [← hsplit]; omega, ?_⟩
      by_cases he : (frameBytes D es[m]).set (i - (logBytes D (es.take m)).length) b =
          frameBytes D es[m]
      · exact .inl he
      · exact .inr ⟨_, hj, rfl, he⟩
    · exact ⟨_, _, rfl, by rw [List.length_set, ← hsplit]; omega, .inl rfl⟩

theorem DamagedLog.filesRow (h : DamagedLog D d q n es i b) {m : Nat} (hm : m < es.length) :
    filesRow D (q ++ [n]) (damagedFiles D es i b) (m + 1) d =
      ⟨[], .ok (damagedFiles D es i b, (logBytes D (es.take m)).length,
        (logBytes D (es.take (m + 1))).length)⟩ := by
  have hrow := indexRead_rows D ((logBytes D es).set i b) es.length (k := (fullIndex D es).length)
    hm (by
      rw [fullIndex, List.length_append, length_indexMagic, length_rowsFrom, Nat.mul_comm]
      exact Nat.add_le_add_left (Nat.mul_le_mul_left _ hm) _) hm (size_lt h.size)
  rw [List.take_length, if_pos (by rw [List.length_set]; exact length_logBytes_take_le D es _)] at hrow
  rw [Asper.filesRow, Act.bind_run (require_run _ _ ⟨Nat.succ_pos m, hm⟩)]
  rw [show indexRead D (damagedFiles D es i b) (m + 1) = _ from hrow]
  rfl

/-- **An event read from a damaged log** is refused or is the event that was written. -/
theorem DamagedLog.filesRead (h : DamagedLog D d q n es i b) {m : Nat} (hm : m < es.length) :
    filesRead D (q ++ [n]) (damagedFiles D es i b) (m + 1) d = ⟨[], .error .parse⟩ ∨
      filesRead D (q ++ [n]) (damagedFiles D es i b) (m + 1) d =
        ⟨[], .ok (es[m], damagedFiles D es i b)⟩ := by
  obtain ⟨hok, hseq⟩ := h.ok.get hm
  obtain ⟨y, rest, hy, hlen, hframe⟩ := damaged_frame D i b hm
  rw [Asper.filesRead, Act.bind_run (h.filesRow hm)]
  dsimp only [applyAll_nil, List.nil_append]
  rw [show (damagedFiles D es i b).log.drop (logBytes D (es.take m)).length = y ++ rest from hy]
  rcases hframe with rfl | ⟨j, hj, rfl, hne⟩
  · have hstop : (damagedFiles D es i b).log.length - rest.length =
        (logBytes D (es.take (m + 1))).length := by
      show ((logBytes D es).set i b).length - _ = _
      rw [List.length_set]
      omega
    rw [frameRead_frameBytes D hok]
    dsimp only
    rw [hstop, if_neg (by simp [hseq])]
    exact .inr rfl
  · rw [frameRead_damaged hok (h.detects _ (List.getElem_mem hm)) hj hne]
    exact .inl rfl

/-- **The metadata of an event of a damaged log** is refused or is that which was written. -/
theorem DamagedLog.filesHead (h : DamagedLog D d q n es i b) {m : Nat} (hm : m < es.length) :
    filesHead D (q ++ [n]) (damagedFiles D es i b) (m + 1) d = ⟨[], .error .parse⟩ ∨
      filesHead D (q ++ [n]) (damagedFiles D es i b) (m + 1) d =
        ⟨[], .ok (es[m].bare, damagedFiles D es i b)⟩ := by
  obtain ⟨hok, hseq⟩ := h.ok.get hm
  obtain ⟨y, rest, hy, hlen, hframe⟩ := damaged_frame D i b hm
  have hframelen := length_logBytes_take_lt D hm
  -- a header of the event followed by as many bytes as the frame has
  have good : ∀ {hash body : Bytes}, body.length =
      es[m].objectRef.length + es[m].text.length + 1 →
      frameHead D (y ++ rest) = .ok (⟨es[m].bare, es[m].objectRef.length, es[m].text.length,
        hash⟩, body ++ rest) →
      Asper.filesHead D (q ++ [n]) (damagedFiles D es i b) (m + 1) d =
        ⟨[], .ok (es[m].bare, damagedFiles D es i b)⟩ := by
    intro hash body hbody hr
    have hstop : (damagedFiles D es i b).log.length - (body ++ rest).length +
        es[m].objectRef.length + es[m].text.length + 1 =
        (logBytes D (es.take (m + 1))).length := by
      have hdl := congrArg List.length hy
      show ((logBytes D es).set i b).length - _ + _ + _ + 1 = _
      rw [List.length_drop, List.length_set, List.length_append] at hdl
      have hyl : y.length = (frameBytes D es[m]).length := by
        rcases hframe with rfl | ⟨j, -, rfl, -⟩
        · rfl
        · rw [List.length_set]
      rw [frameBytes] at hyl
      obtain ⟨l, hl, -⟩ := headLine_eq D hok
      simp only [hl, List.length_append, List.length_cons, List.length_nil] at hyl
      rw [List.length_set, List.length_append, hbody]
      omega
    rw [Asper.filesHead, Act.bind_run (h.filesRow hm)]
    dsimp only [applyAll_nil, List.nil_append]
    rw [show (damagedFiles D es i b).log.drop (logBytes D (es.take m)).length = y ++ rest from hy,
      hr]
    dsimp only
    rw [hstop, if_neg (by simp [Event.bare, hseq])]
    rfl
  have hbody : (es[m].objectRef ++ (es[m].text ++ [10])).length =
      es[m].objectRef.length + es[m].text.length + 1 := by
    simp only [List.length_append, List.length_singleton, Nat.add_assoc]
  rcases hframe with rfl | ⟨j, hj, rfl, hne⟩
  · have hr := frameHead_headLine D hok (es[m].objectRef ++ (es[m].text ++ [10]) ++ rest)
    rw [← List.append_assoc, ← frameBytes] at hr
    exact .inr (good hbody hr)
  · rw [frameBytes] at hj hne good hy
    rw [List.set_append] at hne good hy
    split at hne
    · next hjl =>
      rw [if_pos hjl] at good hy
      have hmem : (10 : UInt8) ∈ es[m].objectRef ++ (es[m].text ++ [10]) ++ rest := by simp
      have hdet := (h.detects _ (List.getElem_mem hm)).head
      rw [List.append_assoc] at good hy
      rcases frameHead_damaged hok hdet hjl (fun he => hne (by rw [he])) hmem with
        hr | ⟨hash, -, hr⟩
      · left
        rw [Asper.filesHead, Act.bind_run (h.filesRow hm)]
        dsimp only [applyAll_nil, List.nil_append]
        rw [show (damagedFiles D es i b).log.drop (logBytes D (es.take m)).length = _ from hy, hr]
        rfl
      · exact .inr (good hbody hr)
    · next hjl =>
      rw [if_neg hjl] at good hy
      rw [List.append_assoc] at good hy
      exact .inr (good (by rw [List.length_set]; exact hbody) (frameHead_headLine D hok _))

theorem DamagedLog.pageFrom (h : DamagedLog D d q n es i b) (query : Bytes) (limit : Nat) :
    ∀ (fuel cursor : Nat) (page : List Event), es.length - cursor ≤ fuel →
    pageFrom D (q ++ [n]) query limit fuel (damagedFiles D es i b) cursor page d =
        ⟨[], .error .parse⟩ ∨
      pageFrom D (q ++ [n]) query limit fuel (damagedFiles D es i b) cursor page d =
        ⟨[], .ok (pageOf query limit (es.drop cursor) cursor page)⟩
  | 0, cursor, page, hf => by
    rw [List.drop_eq_nil_of_le (by omega)]
    exact .inr rfl
  | fuel + 1, cursor, page, hf => by
    rw [Asper.pageFrom]
    by_cases hc : cursor < es.length ∧ page.length < limit
    · rw [if_pos (show cursor < (damagedFiles D es i b).count ∧ page.length < limit from hc)]
      rcases h.filesRead hc.1 with hr | hr
      · exact .inl (Act.bind_run_error hr)
      · rw [Act.bind_run hr, List.drop_eq_getElem_cons hc.1, pageOf, if_pos hc.2]
        dsimp only [applyAll_nil, List.nil_append]
        split
        · exact h.pageFrom query limit fuel (cursor + 1) page (by omega)
        · exact h.pageFrom query limit fuel (cursor + 1) (page ++ [es[cursor]]) (by omega)
    · rw [if_neg (show ¬ (cursor < (damagedFiles D es i b).count ∧ page.length < limit) from hc)]
      by_cases hl : cursor < es.length
      · rw [pageOf_full query (by omega)]
        exact .inr rfl
      · rw [List.drop_eq_nil_of_le (by omega)]
        exact .inr rfl

/-- **A page of a damaged log** is refused or is the page of the events that were written. -/
theorem DamagedLog.page (h : DamagedLog D d q n es i b) (query : Bytes) (after limit : Nat) :
    (eventLogPage D (q ++ [n]) query after limit).result d = .error .parse ∨
      (eventLogPage D (q ++ [n]) query after limit).result d =
        .ok (pageOf query limit (es.drop after) after []) := by
  rw [Act.result, eventLogPage]
  rcases h.filesOpen with hr | hr
  · rw [Act.bind_run (Act.attempt_run hr)]
    exact .inl rfl
  · rw [Act.bind_run (Act.attempt_run hr)]
    exact (h.pageFrom query limit _ after [] (Nat.le_trans (Nat.sub_le ..) (Nat.le_max_left ..))).imp
      (congrArg Outcome.result) (congrArg Outcome.result)

end

end Asper
