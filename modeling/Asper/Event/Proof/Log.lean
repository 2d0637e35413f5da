import Asper.Event.Log
import Asper.Event.Proof.Index
import Asper.Base.Proof.Os

/-! # The log on disk

`LogAt D d q n es t`: the log `n` in the directory `q` holds the events `es`, and `t` is what a
cut append left behind them; its index is a prefix of the full one.

* `filesOpen_run`: opening gives `es`, cuts `t` off and completes the index.
* `eventLogAppend_run`: an append extends `es` by the event. Wherever it is stopped the log holds
  `es` or the extended list.
* `eventLogPage_pageOf`: a page is the events after the cursor that contain the query. -/

namespace Asper

open Durable

structure LogAt (D : Digest) (d : Disk) (q : Path) (n : Bytes) (es : List Event) (t : Bytes) :
    Prop where
  dir : d.find q = .found .dir
  ok : LogOk 0 es
  torn : frameRead D t = .error .notFound
  size : (logBytes D es ++ t).length ≤ eventLogBytes
  log : d (q ++ [n]) = some (.file (logBytes D es ++ t)) ∨
    d (q ++ [n]) = none ∧ es = [] ∧ t = []
  index : d (indexPath (q ++ [n])) = none ∨
    ∃ k, d (indexPath (q ++ [n])) = some (.file ((fullIndex D es).take k))
  tmp : d (indexTmp (q ++ [n])) ≠ some .dir

/-- The log `n` is there, holding the events `es` and a cut frame, whatever its index holds. -/
structure LogFile (D : Digest) (d : Disk) (q : Path) (n : Bytes) (es : List Event) (t : Bytes) :
    Prop where
  dir : d.find q = .found .dir
  ok : LogOk 0 es
  torn : frameRead D t = .error .notFound
  log : d (q ++ [n]) = some (.file (logBytes D es ++ t))
  index : d (indexPath (q ++ [n])) ≠ some .dir
  tmp : d (indexTmp (q ++ [n])) ≠ some .dir

/-- The opened files of a log of the events `es`. -/
def filesOf (D : Digest) (es : List Event) : EventFiles :=
  ⟨logBytes D es, fullIndex D es, es.length⟩

/-- The files an operation on the log `n` may touch. -/
def logFiles (q : Path) (n : Bytes) : List Path :=
  [q ++ [n], indexPath (q ++ [n]), indexTmp (q ++ [n])]

section
variable (q : Path) (n : Bytes)

theorem indexPath_concat : indexPath (q ++ [n]) = q ++ [n ++ ascii ".idx"] := ext_concat ..

theorem indexTmp_concat : indexTmp (q ++ [n]) = q ++ [n ++ ascii ".idx" ++ ascii ".tmp"] := by
  rw [indexTmp, indexPath_concat, ext_concat]

theorem indexPath_ne : indexPath (q ++ [n]) ≠ q ++ [n] := by
  rw [indexPath_concat]
  intro h
  have := congrArg List.length (List.singleton_inj.1 (List.append_cancel_left h))
  rw [List.length_append, show (ascii ".idx").length = 4 by decide] at this
  omega

theorem indexTmp_ne : indexTmp (q ++ [n]) ≠ q ++ [n] := by
  rw [indexTmp_concat]
  intro h
  have := congrArg List.length (List.singleton_inj.1 (List.append_cancel_left h))
  rw [List.length_append, List.length_append, show (ascii ".idx").length = 4 by decide] at this
  omega

theorem indexTmp_ne_indexPath : indexTmp (q ++ [n]) ≠ indexPath (q ++ [n]) := by
  rw [indexTmp_concat, indexPath_concat]
  intro h
  have := congrArg List.length (List.singleton_inj.1 (List.append_cancel_left h))
  rw [List.length_append, show (ascii ".tmp").length = 4 by decide] at this
  omega

end

theorem frameRead_nil (D : Digest) : frameRead D [] = .error .notFound := rfl

section
variable {D : Digest} {d : Disk} {q : Path} {n : Bytes} {es : List Event} {t : Bytes} {e : Event}

/-! ## One write at a time -/

theorem LogAt.set_tmp (h : LogAt D d q n es t) {x : Option Node} (hx : x ≠ some .dir) :
    LogAt D (d.set (indexTmp (q ++ [n])) x) q n es t where
  dir := by rw [indexTmp_concat, Disk.find_set_child]; exact h.dir
  ok := h.ok
  torn := h.torn
  size := h.size
  log := by rw [Disk.set_ne _ _ (indexTmp_ne q n).symm]; exact h.log
  index := by rw [Disk.set_ne _ _ (indexTmp_ne_indexPath q n).symm]; exact h.index
  tmp := by rw [Disk.set_self]; exact hx

theorem LogAt.set_index (h : LogAt D d q n es t) {x : Option Node}
    (hx : x = none ∨ ∃ k, x = some (.file ((fullIndex D es).take k))) :
    LogAt D (d.set (indexPath (q ++ [n])) x) q n es t where
  dir := by rw [indexPath_concat, Disk.find_set_child]; exact h.dir
  ok := h.ok
  torn := h.torn
  size := h.size
  log := by rw [Disk.set_ne _ _ (indexPath_ne q n).symm]; exact h.log
  index := by rw [Disk.set_self]; exact hx
  tmp := by rw [Disk.set_ne _ _ (indexTmp_ne_indexPath q n)]; exact h.tmp

/-- A change of the log that keeps its events and leaves `u` behind them. -/
theorem LogAt.set_log (h : LogAt D d q n es t) {u : Bytes} (hu : frameRead D u = .error .notFound)
    (hsize : (logBytes D es ++ u).length ≤ eventLogBytes) :
    LogAt D (d.set (q ++ [n]) (some (.file (logBytes D es ++ u)))) q n es u where
  dir := by rw [Disk.find_set_child]; exact h.dir
  ok := h.ok
  torn := hu
  size := hsize
  log := .inl (Disk.set_self ..)
  index := by rw [Disk.set_ne _ _ (indexPath_ne q n)]; exact h.index
  tmp := by rw [Disk.set_ne _ _ (indexTmp_ne q n)]; exact h.tmp

/-- The log gets one more whole frame. -/
theorem LogAt.push (h : LogAt D d q n es t) {e : Event} (he : e.Ok)
    (hseq : e.sequence = es.length + 1)
    (hsize : (logBytes D (es ++ [e])).length ≤ eventLogBytes) :
    LogAt D (d.set (q ++ [n]) (some (.file (logBytes D (es ++ [e]))))) q n (es ++ [e]) [] where
  dir := by rw [Disk.find_set_child]; exact h.dir
  ok := LogOk.append.2 ⟨h.ok, he, by rw [Nat.zero_add]; exact hseq, trivial⟩
  torn := frameRead_nil D
  size := by rwa [List.append_nil]
  log := .inl (by rw [Disk.set_self, List.append_nil])
  index := by
    rw [Disk.set_ne _ _ (indexPath_ne q n)]
    rcases h.index with h | ⟨k, h⟩
    · exact .inl h
    · refine .inr ⟨min k (fullIndex D es).length, ?_⟩
      rw [h, fullIndex_concat, List.take_append_of_le_length (Nat.min_le_right ..),
        ← List.take_eq_take_min]
  tmp := by rw [Disk.set_ne _ _ (indexTmp_ne q n)]; exact h.tmp

theorem LogAt.data_log (h : LogAt D d q n es t) : d.data (q ++ [n]) = logBytes D es ++ t := by
  rcases h.log with hd | ⟨hd, rfl, rfl⟩ <;> rw [Disk.data, hd]
  rfl

theorem LogAt.log_ne_dir (h : LogAt D d q n es t) : d (q ++ [n]) ≠ some .dir := by
  rcases h.log with h | ⟨h, -, -⟩ <;> simp [h]

theorem LogAt.index_ne_dir (h : LogAt D d q n es t) : d (indexPath (q ++ [n])) ≠ some .dir := by
  rcases h.index with h | ⟨k, h⟩ <;> simp [h]

theorem LogAt.congr {d' : Disk} (h : LogAt D d q n es t) (hq : d'.find q = .found .dir)
    (hd : ∀ p ∈ logFiles q n, d' p = d p) : LogAt D d' q n es t where
  dir := hq
  ok := h.ok
  torn := h.torn
  size := h.size
  log := by rw [hd _ (by simp [logFiles])]; exact h.log
  index := by rw [hd _ (by simp [logFiles])]; exact h.index
  tmp := by rw [hd _ (by simp [logFiles])]; exact h.tmp

/-! ## Opening -/

/-- What a run of writes to the log makes of it: wherever it stops `P` holds, at the end `Q`. -/
structure LogRun (d : Disk) (q : Path) (n : Bytes) (ws : List Write) (P Q : Disk → Prop) :
    Prop where
  within : ∀ w ∈ ws, ∀ p ∈ w.paths, p ∈ logFiles q n
  crash : ∀ {c d'}, Crash ws d c d' → P d'
  final : Q (applyAll ws d)

/-- An operation without writes. -/
theorem LogRun.idle {P Q : Disk → Prop} (hP : P d) (hQ : Q d) : LogRun d q n [] P Q :=
  ⟨fun _ hw => absurd hw List.not_mem_nil, fun hc => hc.nil ▸ hP, hQ⟩

/-- The log is there, complete and completely indexed. -/
def LogFull (D : Digest) (q : Path) (n : Bytes) (es : List Event) (d : Disk) : Prop :=
  LogAt D d q n es [] ∧ d (q ++ [n]) = some (.file (logBytes D es)) ∧
    d (indexPath (q ++ [n])) = some (.file (fullIndex D es))

/-- The writes of a rebuild. -/
def rebuildWrites (D : Digest) (q : Path) (n : Bytes) (es : List Event) (t : Bytes) : List Write :=
  [.create (indexTmp (q ++ [n])) []] ++
    ((if t = [] then [] else [.truncate (q ++ [n]) (logBytes D es).length]) ++
      [.append (indexTmp (q ++ [n])) (fullIndex D es),
        .rename (indexTmp (q ++ [n])) (indexPath (q ++ [n]))])

theorem LogAt.file (h : LogAt D d q n es t)
    (hlog : d (q ++ [n]) = some (.file (logBytes D es ++ t))) : LogFile D d q n es t :=
  ⟨h.dir, h.ok, h.torn, hlog, h.index_ne_dir, h.tmp⟩

theorem LogFile.set_tmp (h : LogFile D d q n es t) {x : Option Node} (hx : x ≠ some .dir) :
    LogFile D (d.set (indexTmp (q ++ [n])) x) q n es t where
  dir := by rw [indexTmp_concat, Disk.find_set_child]; exact h.dir
  ok := h.ok
  torn := h.torn
  log := by rw [Disk.set_ne _ _ (indexTmp_ne q n).symm]; exact h.log
  index := by rw [Disk.set_ne _ _ (indexTmp_ne_indexPath q n).symm]; exact h.index
  tmp := by rw [Disk.set_self]; exact hx

theorem scanLog_eq (h : LogFile D d q n es t) :
    scanLog D (logBytes D es ++ t).length ⟨indexMagic, 0, 0, false⟩ (logBytes D es ++ t) =
      .ok ⟨fullIndex D es, (logBytes D es).length, es.length, t ≠ []⟩ := by
  rw [scanLog_logBytes D h.torn h.ok (Nat.le_refl _), Nat.zero_add, Nat.zero_add]
  rfl

/-- The disk once the cut frame is off the log. -/
theorem LogAt.truncate (h : LogAt D d q n es t) :
    LogAt D ((Write.truncate (q ++ [n]) (logBytes D es).length).apply d) q n es [] := by
  rw [Write.apply, h.data_log, List.take_left]
  have := h.set_log (frameRead_nil D) (by
    have := h.size
    rw [List.length_append] at this
    rw [List.append_nil]
    omega)
  rwa [List.append_nil] at this

theorem LogFile.truncate (h : LogFile D d q n es t) :
    LogFile D ((Write.truncate (q ++ [n]) (logBytes D es).length).apply d) q n es [] where
  dir := by rw [Write.apply, Disk.find_set_child]; exact h.dir
  ok := h.ok
  torn := frameRead_nil D
  log := by rw [Write.apply, Disk.set_self, Disk.data, h.log, List.append_nil, List.take_left]
  index := by rw [Write.apply, Disk.set_ne _ _ (indexPath_ne q n)]; exact h.index
  tmp := by rw [Write.apply, Disk.set_ne _ _ (indexTmp_ne q n)]; exact h.tmp

theorem rebuildInto_run (h : LogFile D d q n es t)
    (htmp : ∃ b, d (indexTmp (q ++ [n])) = some (.file b)) :
    rebuildInto D (q ++ [n]) (logBytes D es ++ t) d =
      ⟨(if t = [] then [] else [.truncate (q ++ [n]) (logBytes D es).length]) ++
        [.append (indexTmp (q ++ [n])) (fullIndex D es),
          .rename (indexTmp (q ++ [n])) (indexPath (q ++ [n]))], .ok (filesOf D es)⟩ := by
  -- from the truncated log on the writes are the same
  have tail : ∀ {d : Disk} {t' : Bytes}, LogFile D d q n es t' →
      (∃ b, d (indexTmp (q ++ [n])) = some (.file b)) →
      (do
        osAppend (indexTmp (q ++ [n])) (fullIndex D es)
        osFileReplace (indexTmp (q ++ [n])) (indexPath (q ++ [n]))
        pure ⟨(logBytes D es ++ t).take (logBytes D es).length, fullIndex D es, es.length⟩ :
          Io EventFiles) d =
        ⟨[.append (indexTmp (q ++ [n])) (fullIndex D es),
          .rename (indexTmp (q ++ [n])) (indexPath (q ++ [n]))], .ok (filesOf D es)⟩ := by
    intro d t' h ⟨b, hb⟩
    have happ : osAppend (indexTmp (q ++ [n])) (fullIndex D es) d =
        ⟨[.append (indexTmp (q ++ [n])) (fullIndex D es)], .ok ()⟩ := by
      rw [indexTmp_concat]
      exact osAppend_child _ _ h.dir (by rw [← indexTmp_concat]; exact h.tmp)
    have h' := h.set_tmp (x := some (.file (d.data (indexTmp (q ++ [n])) ++ fullIndex D es)))
      (by simp)
    have hrep : osFileReplace (indexTmp (q ++ [n])) (indexPath (q ++ [n]))
        ((Write.append (indexTmp (q ++ [n])) (fullIndex D es)).apply d) =
          ⟨[.rename (indexTmp (q ++ [n])) (indexPath (q ++ [n]))], .ok ()⟩ := by
      have hs : (Write.append (indexTmp (q ++ [n])) (fullIndex D es)).apply d
          (indexTmp (q ++ [n])) = some (.file (d.data (indexTmp (q ++ [n])) ++ fullIndex D es)) :=
        Disk.set_self ..
      have hi := h'.index
      have hdir := h'.dir
      rw [indexTmp_concat] at hs hdir
      rw [indexTmp_concat, indexPath_concat] at hi ⊢
      exact osFileReplace_child _ _ hdir hs hi
    rw [Act.bind_run_run happ (Act.bind_run_run hrep rfl), List.take_left]
    rfl
  rw [rebuildInto, Act.bind_run (w := []) (a := _) (by rw [Act.lift, scanLog_eq h])]
  simp only [applyAll_nil, List.nil_append, Act.writes, Act.result]
  by_cases ht : t = []
  · have := tail h htmp
    simp only [ht, ne_eq, not_true_eq_false, decide_false, Bool.false_eq_true, if_false,
      if_true, List.nil_append] at this ⊢
    rw [this]
  · have htr := osTruncate_child (d := d) n (logBytes D es).length h.dir h.log
    have htmp' : ∃ b, (Write.truncate (q ++ [n]) (logBytes D es).length).apply d
        (indexTmp (q ++ [n])) = some (.file b) := by
      rw [Write.apply, Disk.set_ne _ _ (indexTmp_ne q n)]
      exact htmp
    simp only [ht, ne_eq, not_false_eq_true, decide_true, if_true, if_false]
    rw [Act.bind_run_run htr (tail h.truncate htmp')]

/-- **A rebuild of the index** finds the whole frames, whatever the index holds. -/
theorem rebuild_run (h : LogFile D d q n es t) :
    rebuild D (q ++ [n]) (logBytes D es ++ t) d =
      ⟨rebuildWrites D q n es t, .ok (filesOf D es)⟩ := by
  have hcreate : osWriteFile (indexTmp (q ++ [n])) [] d =
      ⟨[.create (indexTmp (q ++ [n])) []], .ok ()⟩ := by
    rw [indexTmp_concat]
    exact osWriteFile_child _ _ h.dir (by rw [← indexTmp_concat]; exact h.tmp)
  have h' := h.set_tmp (x := some (.file [])) (by simp)
  have hinto := rebuildInto_run h' ⟨[], Disk.set_self ..⟩
  rw [rebuild, Act.bind_run hcreate]
  dsimp only [applyAll_cons, applyAll_nil, Write.apply]
  rw [Act.writes_attempt_bind, Act.result_attempt_bind]
  simp only [Act.writes, Act.result, hinto]
  rw [rebuildWrites]
  simp only [List.append_assoc, List.cons_append, List.nil_append]
  rfl

/-- The disk after a rebuild: the log without its cut frame, the full index, no temporary file. -/
theorem rebuild_disk (h : LogFile D d q n es t) :
    applyAll (rebuildWrites D q n es t) d =
      ((d.set (q ++ [n]) (some (.file (logBytes D es)))).set (indexPath (q ++ [n]))
        (some (.file (fullIndex D es)))).set (indexTmp (q ++ [n])) none := by
  have h1 := h.set_tmp (x := some (.file [])) (by simp)
  -- the log after the truncation, if there is one
  have htr : applyAll (if t = [] then [] else [Write.truncate (q ++ [n]) (logBytes D es).length])
      (d.set (indexTmp (q ++ [n])) (some (.file []))) =
      (d.set (indexTmp (q ++ [n])) (some (.file []))).set (q ++ [n])
        (some (.file (logBytes D es))) := by
    by_cases ht : t = []
    · have hlog := h1.log
      rw [ht, List.append_nil] at hlog
      rw [if_pos ht, applyAll_nil, ← hlog]
      exact (Function.update_eq_self ..).symm
    · rw [if_neg ht, applyAll_cons, applyAll_nil, Write.apply, Disk.data, h1.log, List.take_left]
  rw [rebuildWrites, applyAll_append, applyAll_append]
  simp only [applyAll_cons, applyAll_nil]
  rw [show (Write.create (indexTmp (q ++ [n])) []).apply d =
    d.set (indexTmp (q ++ [n])) (some (.file [])) from rfl, htr]
  have happ : ∀ d1 : Disk, d1 (indexTmp (q ++ [n])) = some (.file []) →
      (Write.append (indexTmp (q ++ [n])) (fullIndex D es)).apply d1 =
        d1.set (indexTmp (q ++ [n])) (some (.file (fullIndex D es))) := by
    intro d1 hd1
    rw [Write.apply, Disk.data, hd1]
    rfl
  rw [happ _ (by rw [Disk.set_ne _ _ (indexTmp_ne q n), Disk.set_self]), Write.apply, Disk.set_self]
  -- only the three files differ
  funext p
  by_cases hp : p = indexTmp (q ++ [n])
  · rw [hp, Disk.set_self, Disk.set_self]
  · rw [Disk.set_ne _ _ hp, Disk.set_ne _ _ hp]
    by_cases hi : p = indexPath (q ++ [n])
    · rw [hi, Disk.set_self, Disk.set_self]
    · rw [Disk.set_ne _ _ hi, Disk.set_ne _ _ hi, Disk.set_ne _ _ hp]
      by_cases hl : p = q ++ [n]
      · rw [hl, Disk.set_self, Disk.set_self]
      · rw [Disk.set_ne _ _ hl, Disk.set_ne _ _ hl, Disk.set_ne _ _ hp]

theorem rebuild_full (h : LogFile D d q n es t) (hsize : (logBytes D es).length ≤ eventLogBytes) :
    LogFull D q n es (applyAll (rebuildWrites D q n es t) d) := by
  have hlog : applyAll (rebuildWrites D q n es t) d (q ++ [n]) =
      some (.file (logBytes D es)) := by
    rw [rebuild_disk h, Disk.set_ne _ _ (indexTmp_ne q n).symm,
      Disk.set_ne _ _ (indexPath_ne q n).symm, Disk.set_self]
  have hidx : applyAll (rebuildWrites D q n es t) d (indexPath (q ++ [n])) =
      some (.file (fullIndex D es)) := by
    rw [rebuild_disk h, Disk.set_ne _ _ (indexTmp_ne_indexPath q n).symm, Disk.set_self]
  refine ⟨⟨?_, h.ok, frameRead_nil D, by rwa [List.append_nil], .inl (by rw [hlog, List.append_nil]),
    .inr ⟨_, by rw [hidx, List.take_length]⟩, ?_⟩, hlog, hidx⟩
  · rw [rebuild_disk h, indexTmp_concat, indexPath_concat, Disk.find_set_child,
      Disk.find_set_child, Disk.find_set_child]
    exact h.dir
  · rw [rebuild_disk h, Disk.set_self]
    simp

/-- **Wherever a rebuild stops** it has kept what the writes of the temporary index, the truncation
of the log and the full index keep. -/
theorem rebuild_keeps (h : LogFile D d q n es t) {P : Disk → Prop} (hd : P d)
    (htmp : ∀ {d x}, P d → x ≠ some .dir → P (d.set (indexTmp (q ++ [n])) x))
    (htr : ∀ {d}, P d → P ((Write.truncate (q ++ [n]) (logBytes D es).length).apply d))
    (hidx : ∀ {d}, P d → P (d.set (indexPath (q ++ [n])) (some (.file (fullIndex D es))))) :
    LogRun d q n (rebuildWrites D q n es t) P P := by
  have hwrites : rebuildWrites D q n es t =
      ([.create (indexTmp (q ++ [n])) []] ++
        ((if t = [] then [] else [.truncate (q ++ [n]) (logBytes D es).length]) ++
          [.append (indexTmp (q ++ [n])) (fullIndex D es)])) ++
        [.rename (indexTmp (q ++ [n])) (indexPath (q ++ [n]))] := by
    simp only [rebuildWrites, List.append_assoc, List.cons_append, List.nil_append]
  have hfinal : P (applyAll (rebuildWrites D q n es t) d) := by
    have hlog := htr hd
    rw [Write.apply, Disk.data, h.log, List.take_left] at hlog
    rw [rebuild_disk h]
    exact htmp (hidx hlog) (by simp)
  -- up to the rename each write keeps `P`, cut or whole
  have hinit : ∀ {c d'}, Crash ([Write.create (indexTmp (q ++ [n])) []] ++
      ((if t = [] then [] else [.truncate (q ++ [n]) (logBytes D es).length]) ++
        [.append (indexTmp (q ++ [n])) (fullIndex D es)])) d c d' → P d' := by
    intro c d' hc
    refine hc.inv (fun w hw d hP => ?_) hd
    have hw' : w = .create (indexTmp (q ++ [n])) [] ∨
        w = .truncate (q ++ [n]) (logBytes D es).length ∨
        w = .append (indexTmp (q ++ [n])) (fullIndex D es) := by
      by_cases ht : t = []
      · rw [if_pos ht] at hw
        rcases List.mem_cons.1 hw with rfl | hw
        · exact .inl rfl
        · exact .inr (.inr (List.mem_singleton.1 hw))
      · rw [if_neg ht] at hw
        rcases List.mem_cons.1 hw with rfl | hw
        · exact .inl rfl
        · rcases List.mem_cons.1 hw with rfl | hw
          · exact .inr (.inl rfl)
          · exact .inr (.inr (List.mem_singleton.1 hw))
    rcases hw' with rfl | rfl | rfl
    · refine ⟨htmp hP (by simp), fun k w' hk => ?_⟩
      cases hk
      exact htmp hP (by simp)
    · refine ⟨htr hP, fun k w' hk => ?_⟩
      cases hk
    · refine ⟨htmp hP (by simp), fun k w' hk => ?_⟩
      cases hk
      exact htmp hP (by simp)
  refine ⟨?_, fun hc => ?_, hfinal⟩
  · by_cases ht : t = [] <;> simp [rebuildWrites, ht, Write.paths, logFiles]
  · have happ := hwrites ▸ hfinal
    rw [hwrites] at hc
    rcases hc.append with hc | hc
    · exact hinit hc
    · rcases hc.cons with rfl | ⟨k, w', hk, -, -⟩ | hc
      · exact hinit (Crash.complete _ _)
      · cases hk
      · rw [hc.nil]
        rwa [applyAll_append] at happ

theorem rebuild_logRun (h : LogAt D d q n es t)
    (hlog : d (q ++ [n]) = some (.file (logBytes D es ++ t))) :
    LogRun d q n (rebuildWrites D q n es t) (fun d' => ∃ t', LogAt D d' q n es t')
      (LogFull D q n es) := by
  have hrun := rebuild_keeps (h.file hlog) (P := fun d' => ∃ t', LogAt D d' q n es t') ⟨t, h⟩
    (fun ⟨t', h⟩ hx => ⟨t', h.set_tmp hx⟩) (fun ⟨_, h⟩ => ⟨[], h.truncate⟩)
    fun ⟨t', h⟩ => ⟨t', h.set_index (.inr ⟨_, by rw [List.take_length]⟩)⟩
  have hsize := h.size
  rw [List.length_append] at hsize
  exact ⟨hrun.within, hrun.crash, rebuild_full (h.file hlog) (by omega)⟩

theorem size_lt {m : Nat} (h : m ≤ eventLogBytes) : m < 2 ^ 64 :=
  Nat.lt_of_le_of_lt h (by decide)

/-- The index is read as a prefix of the full one, missing or not. -/
theorem LogAt.orElse_index (h : LogAt D d q n es t) :
    ∃ k, orElse (osBlobOpen (indexPath (q ++ [n]))) .notFound [] d =
      ⟨[], .ok ((fullIndex D es).take k)⟩ ∧
      (d (indexPath (q ++ [n])) = some (.file ((fullIndex D es).take k)) ∨ k = 0) := by
  have hb : osBlobOpen (indexPath (q ++ [n])) d = ⟨[], blob d (indexPath (q ++ [n]))⟩ := rfl
  rcases h.index with hi | ⟨k, hi⟩
  · refine ⟨0, ?_, .inr rfl⟩
    have : blob d (indexPath (q ++ [n])) = .error .notFound := by
      rw [indexPath_concat] at hi ⊢
      rw [blob_child _ h.dir, hi]
    rw [this] at hb
    rw [orElse_run _ _ hb (by simp), List.take_zero]
  · refine ⟨k, ?_, .inl hi⟩
    have : blob d (indexPath (q ++ [n])) = .ok ((fullIndex D es).take k) := by
      rw [indexPath_concat] at hi ⊢
      rw [blob_child _ h.dir, hi]
    rw [this] at hb
    rw [orElse_run _ _ hb (by simp)]

/-- **Opening a log** gives its events and repairs its files. -/
theorem filesOpen_run (h : LogAt D d q n es t)
    (hlog : d (q ++ [n]) = some (.file (logBytes D es ++ t))) :
    ∃ ws, filesOpen D (q ++ [n]) d = ⟨ws, .ok (filesOf D es)⟩ ∧
      LogRun d q n ws (fun d' => ∃ t', LogAt D d' q n es t') (LogFull D q n es) := by
  have hsize := size_lt h.size
  have hblob : osBlobOpen (q ++ [n]) d = ⟨[], .ok (logBytes D es ++ t)⟩ := by
    show Outcome.mk [] (blob d (q ++ [n])) = _
    rw [blob_child n h.dir, hlog]
  obtain ⟨k, hk, hidx⟩ := h.orElse_index
  have hopen : filesOpen D (q ++ [n]) d =
      filesUse D (q ++ [n]) (logBytes D es ++ t) ((fullIndex D es).take k) d := by
    rw [filesOpen, Act.bind_run hblob]
    dsimp only [applyAll_nil, List.nil_append]
    rw [Act.writes, Act.result, Act.bind_run (require_run _ _ h.size)]
    dsimp only [applyAll_nil, List.nil_append]
    rw [Act.writes, Act.result, Act.bind_run hk]
    rfl
  cases hu : indexUsable D (logBytes D es ++ t) ((fullIndex D es).take k) with
  | none =>
    rw [filesUse, hu] at hopen
    exact ⟨_, hopen.trans (rebuild_run (h.file hlog)), rebuild_logRun h hlog⟩
  | some count =>
    obtain ⟨rfl, rfl, hfull⟩ := indexUsable_sound D hsize hu
    rw [filesUse, hu] at hopen
    refine ⟨[], ?_, ⟨fun w hw => absurd hw List.not_mem_nil, fun hc => ⟨[], hc.nil ▸ h⟩,
      h, by rw [applyAll_nil, hlog, List.append_nil], ?_⟩⟩
    · rw [hopen, List.append_nil, hfull]
      rfl
    · rcases hidx with hi | rfl
      · rw [applyAll_nil, hi, hfull]
      · -- an index that was not read is not the full one
        rw [List.take_zero] at hfull
        have := congrArg List.length hfull
        rw [fullIndex, List.length_append, length_indexMagic, List.length_nil] at this
        omega

theorem filesOpen_absent (h : LogAt D d q n es t) (hlog : d (q ++ [n]) = none) :
    filesOpen D (q ++ [n]) d = ⟨[], .error .notFound⟩ := by
  have hblob : osBlobOpen (q ++ [n]) d = ⟨[], .error .notFound⟩ := by
    show Outcome.mk [] (blob d (q ++ [n])) = _
    rw [blob_child n h.dir, hlog]
  rw [filesOpen, Act.bind_run_error hblob]

/-- A log that is missing has no events. -/
theorem LogAt.absent (h : LogAt D d q n es t) (hlog : d (q ++ [n]) = none) :
    es = [] ∧ t = [] := by
  rcases h.log with h | ⟨-, h⟩
  · rw [hlog] at h; cases h
  · exact h

/-! ## Reading -/

theorem logBytes_split (D : Digest) {i : Nat} (hi : i < es.length) :
    logBytes D es = logBytes D (es.take i) ++ (frameBytes D es[i] ++ logBytes D (es.drop (i + 1))) := by
  conv_lhs => rw [← List.take_append_drop i es, List.drop_eq_getElem_cons hi]
  rw [logBytes_append, logBytes_cons]

theorem filesRow_run (h : LogAt D d q n es []) {i : Nat} (hi : i < es.length) :
    filesRow D (q ++ [n]) (filesOf D es) (i + 1) d =
      ⟨[], .ok (filesOf D es, (logBytes D (es.take i)).length,
        (logBytes D (es.take (i + 1))).length)⟩ := by
  have hrow := indexRead_fullIndex D es.length (t := []) (k := (fullIndex D es).length)
    hi (by
      rw [fullIndex, List.length_append, length_indexMagic, length_rowsFrom, Nat.mul_comm]
      exact Nat.add_le_add_left (Nat.mul_le_mul_left _ hi) _) hi (size_lt h.size)
  rw [List.take_length, List.append_nil] at hrow
  rw [filesRow, Act.bind_run (require_run _ _ ⟨Nat.succ_pos i, hi⟩)]
  rw [show indexRead D (filesOf D es) (i + 1) = _ from hrow]
  rfl

/-- The frame of event `i + 1`, and where it ends. -/
theorem frameRead_logBytes (h : LogOk 0 es) {i : Nat} (hi : i < es.length) :
    frameRead D ((logBytes D es).drop (logBytes D (es.take i)).length) =
        .ok (es[i], logBytes D (es.drop (i + 1))) ∧
      (logBytes D es).length - (logBytes D (es.drop (i + 1))).length =
        (logBytes D (es.take (i + 1))).length := by
  have hsplit := logBytes_split D hi
  constructor
  · rw [hsplit, List.drop_left, frameRead_frameBytes D (h.get hi).1]
  · rw [hsplit, List.take_succ_eq_append_getElem hi, logBytes_append]
    simp only [List.length_append, logBytes_cons, logBytes_nil, List.append_nil]
    omega

/-- The header of event `i + 1`, and where its frame ends. -/
theorem frameHead_logBytes (h : LogOk 0 es) {i : Nat} (hi : i < es.length) :
    ∃ hash rest, frameHead D ((logBytes D es).drop (logBytes D (es.take i)).length) =
        .ok (⟨es[i].bare, es[i].objectRef.length, es[i].text.length, hash⟩, rest) ∧
      (logBytes D es).length - rest.length + es[i].objectRef.length + es[i].text.length + 1 =
        (logBytes D (es.take (i + 1))).length := by
  have hsplit := logBytes_split D hi
  refine ⟨frameDigest D (headText es[i] es[i].objectRef.length es[i].text.length) es[i],
    es[i].objectRef ++ (es[i].text ++ 10 :: logBytes D (es.drop (i + 1))), ?_, ?_⟩
  · rw [hsplit, List.drop_left, frameBytes, List.append_assoc, frameHead_headLine D (h.get hi).1]
    simp only [List.append_assoc, List.cons_append, List.nil_append]
  · rw [hsplit, List.take_succ_eq_append_getElem hi, logBytes_append]
    simp only [List.length_append, logBytes_cons, logBytes_nil, List.append_nil, frameBytes,
      List.length_cons, List.length_nil]
    omega

/-- **Event `i + 1` of the log** is read back. -/
theorem filesRead_run (h : LogAt D d q n es []) {i : Nat} (hi : i < es.length) :
    filesRead D (q ++ [n]) (filesOf D es) (i + 1) d = ⟨[], .ok (es[i], filesOf D es)⟩ := by
  obtain ⟨hread, hstop⟩ := frameRead_logBytes (D := D) h.ok hi
  rw [filesRead, Act.bind_run (filesRow_run h hi)]
  dsimp only [applyAll_nil, List.nil_append, filesOf]
  rw [hread]
  dsimp only
  rw [hstop, if_neg (by simp [(h.ok.get hi).2])]
  rfl

theorem filesHead_run (h : LogAt D d q n es []) {i : Nat} (hi : i < es.length) :
    filesHead D (q ++ [n]) (filesOf D es) (i + 1) d = ⟨[], .ok (es[i].bare, filesOf D es)⟩ := by
  obtain ⟨hash, rest, hread, hstop⟩ := frameHead_logBytes (D := D) h.ok hi
  rw [filesHead, Act.bind_run (filesRow_run h hi)]
  dsimp only [applyAll_nil, List.nil_append, filesOf]
  rw [hread]
  dsimp only
  rw [hstop, if_neg (by simp [Event.bare, (h.ok.get hi).2])]
  rfl

/-- The page of the events `es` that follow `cursor`: those that contain `query`, until there are
`limit`, and the next cursor. -/
def pageOf (query : Bytes) (limit : Nat) : List Event → Nat → List Event → List Event × Nat
  | [], cursor, page => (page, cursor)
  | e :: es, cursor, page =>
    if page.length < limit then
      if query ≠ [] ∧ hasText e.text query = false then pageOf query limit es (cursor + 1) page
      else pageOf query limit es (cursor + 1) (page ++ [e])
    else (page, cursor)

theorem pageOf_full (query : Bytes) {limit : Nat} {page : List Event} (h : limit ≤ page.length) :
    ∀ (es : List Event) (cursor : Nat), pageOf query limit es cursor page = (page, cursor)
  | [], _ => rfl
  | _ :: _, _ => if_neg (Nat.not_lt.2 h)

/-- **A page** is the events after the cursor that contain the query. -/
theorem pageFrom_pageOf (h : LogAt D d q n es []) (query : Bytes) (limit : Nat) :
    ∀ (fuel cursor : Nat) (page : List Event), es.length - cursor ≤ fuel →
    pageFrom D (q ++ [n]) query limit fuel (filesOf D es) cursor page d =
      ⟨[], .ok (pageOf query limit (es.drop cursor) cursor page)⟩
  | 0, cursor, page, hf => by
    rw [List.drop_eq_nil_of_le (by omega)]
    rfl
  | fuel + 1, cursor, page, hf => by
    rw [pageFrom]
    by_cases hc : cursor < es.length ∧ page.length < limit
    · rw [if_pos (show cursor < (filesOf D es).count ∧ page.length < limit from hc),
        Act.bind_run (filesRead_run h hc.1), List.drop_eq_getElem_cons hc.1, pageOf, if_pos hc.2]
      dsimp only [applyAll_nil, List.nil_append]
      split
      · rw [Act.writes, Act.result, pageFrom_pageOf h query limit fuel _ _ (by omega)]
      · rw [Act.writes, Act.result, pageFrom_pageOf h query limit fuel _ _ (by omega)]
    · rw [if_neg (show ¬ (cursor < (filesOf D es).count ∧ page.length < limit) from hc)]
      by_cases hl : cursor < es.length
      · rw [pageOf_full query (by omega)]
        rfl
      · rw [List.drop_eq_nil_of_le (by omega)]
        rfl

theorem pageOf_nil (limit : Nat) : ∀ (es : List Event) (cursor : Nat) (page : List Event),
    page.length ≤ limit →
    pageOf [] limit es cursor page =
      (page ++ es.take (limit - page.length), cursor + (es.take (limit - page.length)).length)
  | [], cursor, page, _ => by simp [pageOf]
  | e :: es, cursor, page, hp => by
    rw [pageOf]
    split
    · next hlt =>
      rw [if_neg (by simp), pageOf_nil limit es _ _ (by rw [List.length_append, List.length_singleton]; omega)]
      obtain ⟨m, hm⟩ : ∃ m, limit - page.length = m + 1 := ⟨limit - page.length - 1, by omega⟩
      have hm' : limit - (page ++ [e]).length = m := by
        rw [List.length_append, List.length_singleton]
        omega
      rw [hm, hm', List.take_succ_cons]
      simp only [List.append_assoc, List.cons_append, List.nil_append, List.length_cons]
      rw [Nat.add_right_comm, Nat.add_assoc]
    · rw [show limit - page.length = 0 by omega]
      simp

/-- Reading a page of a log, complete or not. -/
theorem eventLogPage_pageOf (h : LogAt D d q n es t) (query : Bytes) (after limit : Nat) :
    ∃ ws, eventLogPage D (q ++ [n]) query after limit d =
        ⟨ws, .ok (pageOf query limit (es.drop after) after [])⟩ ∧
      LogRun d q n ws (fun d' => ∃ t', LogAt D d' q n es t') fun d' => LogAt D d' q n es [] := by
  by_cases hlog : d (q ++ [n]) = none
  · obtain ⟨rfl, rfl⟩ := h.absent hlog
    have hopen := filesOpen_absent h hlog
    have ha : (filesOpen D (q ++ [n])).attempt d = ⟨[], .ok (.error .notFound)⟩ := by
      rw [Act.attempt, Act.writes, Act.result, hopen]
    refine ⟨[], ?_, .idle ⟨[], h⟩ h⟩
    rw [eventLogPage, Act.bind_run ha, List.drop_nil]
    rfl
  · have hlog' : d (q ++ [n]) = some (.file (logBytes D es ++ t)) := by
      rcases h.log with h | ⟨h, -, -⟩
      · exact h
      · exact absurd h hlog
    obtain ⟨ws, hopen, hrun⟩ := filesOpen_run h hlog'
    have ha : (filesOpen D (q ++ [n])).attempt d = ⟨ws, .ok (.ok (filesOf D es))⟩ := by
      rw [Act.attempt, Act.writes, Act.result, hopen]
    refine ⟨ws, ?_, hrun.within, hrun.crash, hrun.final.1⟩
    rw [eventLogPage, Act.bind_run ha]
    dsimp only
    have hpage := pageFrom_pageOf hrun.final.1 query limit
      (max (filesOf D es).count (filesOf D es).log.length) after []
      (Nat.le_trans (Nat.sub_le ..) (Nat.le_max_left ..))
    rw [Act.writes, Act.result, hpage, List.append_nil]

/-- **A page without a query** is the next `limit` events after the cursor. -/
theorem eventLogPage_run (h : LogAt D d q n es t) (after limit : Nat) :
    ∃ ws, eventLogPage D (q ++ [n]) [] after limit d =
        ⟨ws, .ok ((es.drop after).take limit, after + ((es.drop after).take limit).length)⟩ ∧
      LogRun d q n ws (fun d' => ∃ t', LogAt D d' q n es t') fun d' => LogAt D d' q n es [] := by
  obtain ⟨ws, hrun, hlr⟩ := eventLogPage_pageOf h [] after limit
  refine ⟨ws, ?_, hlr⟩
  rw [hrun, pageOf_nil limit _ _ _ (Nat.zero_le _)]
  rfl

/-! ## Appending -/

/-- The events a log may hold: one more frame than the check of the append lets in. -/
theorem size_push (he : e.Ok)
    (hroom : (logBytes D es).length + e.text.length + 512 ≤ eventLogBytes) :
    (logBytes D (es ++ [e])).length ≤ eventLogBytes := by
  have := length_frameBytes_le D he
  rw [logBytes_append, List.length_append, logBytes_cons, logBytes_nil, List.append_nil]
  omega

theorem LogAt.seq_lt (h : LogAt D d q n es t) : es.length + 1 < 2 ^ 64 := by
  have h1 := h.size
  have h2 := length_le_logBytes D es
  rw [List.length_append] at h1
  unfold eventLogBytes at h1
  omega

/-- The next event of a log. -/
def nextEvent (es : List Event) (e : Event) : Event := { e with sequence := es.length + 1 }

theorem LogAt.nextEvent_ok (h : LogAt D d q n es t) {e : Event} (he : e.Fields) :
    (nextEvent es e).Ok :=
  { at_ge := he.at_ge, at_lt := he.at_lt, id_valid := he.id_valid, object := he.object
    no_nul := he.no_nul, utf8 := he.utf8, size := he.size
    seq_pos := Nat.succ_pos _, seq_lt := h.seq_lt }

/-- The index row of event `e`, written whole or cut, keeps the index a prefix of the full one. -/
theorem appendIndexRow_run (h : LogAt D d q n (es ++ [e]) []) {fs : EventFiles}
    (hlog : fs.log = logBytes D es) (hcount : fs.count = es.length)
    (hi : es = [] ∨ d (indexPath (q ++ [n])) = some (.file (fullIndex D es))) :
    ∃ ws, appendIndexRow D (q ++ [n]) fs ((logBytes D es).length + (frameBytes D e).length) d =
        ⟨ws, .ok ()⟩ ∧
      LogRun d q n ws (fun d' => LogAt D d' q n (es ++ [e]) [])
        fun d' => LogAt D d' q n (es ++ [e]) [] := by
  have hne := h.index_ne_dir
  have hfull := fullIndex_concat D es e
  rw [appendIndexRow, hlog, hcount]
  generalize indexRow D (logBytes D es).length
    ((logBytes D es).length + (frameBytes D e).length) = row at hfull
  -- one write, which leaves a prefix of the full index
  suffices hw : ∃ w, (if es.length = 0 then
          ignore (osWriteFile (indexPath (q ++ [n])) (indexMagic ++ row))
        else ignore (osAppend (indexPath (q ++ [n])) row) : Io Unit) d = ⟨[w], .ok ()⟩ ∧
      w.paths = [indexPath (q ++ [n])] ∧ LogAt D (w.apply d) q n (es ++ [e]) [] ∧
      ∀ k w', w.cut k = some w' → LogAt D (w'.apply d) q n (es ++ [e]) [] by
    obtain ⟨w, hrun, hp, hfin, hcut⟩ := hw
    refine ⟨[w], hrun, fun w' hw' p hp' => ?_, fun hc => ?_, hfin⟩
    · rw [List.mem_singleton.1 hw', hp] at hp'
      simp only [logFiles, List.mem_cons, List.not_mem_nil, or_false]
      exact .inr (.inl (List.mem_singleton.1 hp'))
    · rcases hc.cons with rfl | ⟨k, w', hk, -, rfl⟩ | hc
      · exact h
      · exact hcut k w' hk
      · exact hc.nil ▸ hfin
  by_cases h0 : es.length = 0
  · obtain rfl := List.length_eq_zero_iff.1 h0
    have hrun : osWriteFile (indexPath (q ++ [n])) (indexMagic ++ row) d =
        ⟨[.create (indexPath (q ++ [n])) (indexMagic ++ row)], .ok ()⟩ := by
      rw [indexPath_concat] at hne ⊢
      exact osWriteFile_child _ _ h.dir hne
    refine ⟨_, by rw [if_pos h0, ignore_run hrun], rfl, ?_, fun k w' hc => ?_⟩
    · refine h.set_index (.inr ⟨(fullIndex D ([] ++ [e])).length, ?_⟩)
      rw [List.take_length, hfull]
      rfl
    · cases hc
      refine h.set_index (.inr ⟨k, ?_⟩)
      rw [hfull]
      rfl
  · have hidx := hi.resolve_left fun hnil => h0 (by rw [hnil]; rfl)
    have hdata : d.data (indexPath (q ++ [n])) = fullIndex D es := by rw [Disk.data, hidx]
    have hrun : osAppend (indexPath (q ++ [n])) row d =
        ⟨[.append (indexPath (q ++ [n])) row], .ok ()⟩ := by
      rw [indexPath_concat] at hne ⊢
      exact osAppend_child _ _ h.dir hne
    refine ⟨_, by rw [if_neg h0, ignore_run hrun], rfl, ?_, fun k w' hc => ?_⟩
    · refine h.set_index (.inr ⟨(fullIndex D (es ++ [e])).length, ?_⟩)
      rw [hdata, List.take_length, hfull]
    · cases hc
      refine h.set_index (.inr ⟨(fullIndex D es).length + k, ?_⟩)
      rw [hdata, hfull, List.take_length_add_append]

/-- The frame lands whole, and the log has one more event, or is cut, and it has not. -/
theorem append_frame_logRun (h : LogAt D d q n es []) {e : Event} (he : e.Ok)
    (hseq : e.sequence = es.length + 1)
    (hroom : (logBytes D es).length + e.text.length + 512 ≤ eventLogBytes) :
    LogRun d q n [.append (q ++ [n]) (frameBytes D e)]
      (fun d' => (∃ t', LogAt D d' q n es t') ∨ LogAt D d' q n (es ++ [e]) [])
      fun d' => LogAt D d' q n (es ++ [e]) [] ∧
        d' (indexPath (q ++ [n])) = d (indexPath (q ++ [n])) := by
  have hsize := size_push he hroom
  have hpush := h.push he hseq hsize
  have hw : (Write.append (q ++ [n]) (frameBytes D e)).apply d =
      d.set (q ++ [n]) (some (.file (logBytes D (es ++ [e])))) := by
    rw [Write.apply, h.data_log]
    simp
  refine ⟨fun w hw p hp => ?_, fun hc => ?_, ?_, ?_⟩
  · rw [List.mem_singleton.1 hw] at hp
    simp only [logFiles, List.mem_cons, List.not_mem_nil, or_false]
    exact .inl (List.mem_singleton.1 hp)
  · rcases hc.cons with rfl | ⟨k, w', hk, -, rfl⟩ | hc
    · exact .inl ⟨[], h⟩
    · cases hk
      by_cases hk : k < (frameBytes D e).length
      · refine .inl ⟨(frameBytes D e).take k, ?_⟩
        rw [Write.apply, h.data_log, List.append_nil]
        refine h.set_log (frameRead_torn D he hk) ?_
        have := hsize
        simp only [logBytes_append, logBytes_cons, logBytes_nil, List.append_nil,
          List.length_append, List.length_take] at this ⊢
        omega
      · rw [List.take_of_length_le (by omega), hw]
        exact .inr hpush
    · rw [hc.nil, hw]
      exact .inr hpush
  · rw [applyAll_cons, applyAll_nil, hw]
    exact hpush
  · exact Disk.set_ne _ _ (indexPath_ne q n)

/-- The log after opening it for an append. -/
theorem open_for_append (h : LogAt D d q n es t) :
    ∃ ws fs, orElse (filesOpen D (q ++ [n])) .notFound ⟨[], [], 0⟩ d = ⟨ws, .ok fs⟩ ∧
      fs.log = logBytes D es ∧ fs.count = es.length ∧ (es ≠ [] → fs = filesOf D es) ∧
      LogRun d q n ws (fun d' => ∃ t', LogAt D d' q n es t') fun d' => LogAt D d' q n es [] ∧
        (es = [] ∨ d' (indexPath (q ++ [n])) = some (.file (fullIndex D es))) := by
  by_cases hlog : d (q ++ [n]) = none
  · obtain ⟨rfl, rfl⟩ := h.absent hlog
    exact ⟨[], ⟨[], [], 0⟩, orElse_run _ _ (filesOpen_absent h hlog) (by simp), rfl, rfl,
      fun h => absurd rfl h, .idle ⟨[], h⟩ ⟨h, .inl rfl⟩⟩
  · have hlog' : d (q ++ [n]) = some (.file (logBytes D es ++ t)) := by
      rcases h.log with h | ⟨h, -, -⟩
      · exact h
      · exact absurd h hlog
    obtain ⟨ws, hopen, hrun⟩ := filesOpen_run h hlog'
    exact ⟨ws, filesOf D es, orElse_run _ _ hopen (by simp), rfl, rfl, fun _ => rfl, hrun.within,
      hrun.crash,
      hrun.final.1, .inr hrun.final.2.2⟩

/-- Two runs one after the other. -/
theorem LogRun.append {P : Disk → Prop} {Q R : Disk → Prop} {ws vs : List Write}
    (h : LogRun d q n ws P Q) (h' : LogRun (applyAll ws d) q n vs P R) :
    LogRun d q n (ws ++ vs) P R where
  within w hw := (List.mem_append.1 hw).elim (h.within w) (h'.within w)
  crash hc := hc.append.elim h.crash h'.crash
  final := by rw [applyAll_append]; exact h'.final

theorem LogRun.weaken {P P' Q Q' : Disk → Prop} {ws : List Write} (h : LogRun d q n ws P Q)
    (hP : ∀ d', P d' → P' d') (hQ : ∀ d', Q d' → Q' d') : LogRun d q n ws P' Q' :=
  ⟨h.within, fun hc => hP _ (h.crash hc), hQ _ h.final⟩

/-- One operation after another, when the first one ends where the second may start. -/
theorem LogRun.bind {α β : Type} {P Q : Disk → Prop} {m : Io α} {f : α → Io β}
    (h : LogRun d q n (m.writes d) P Q)
    (hf : ∀ a, m.result d = .ok a → LogRun (m.final d) q n ((f a).writes (m.final d)) P Q) :
    LogRun d q n ((m >>= f).writes d) P Q := by
  cases hr : m.result d with
  | error e => rwa [Act.writes_bind_error hr]
  | ok a =>
    rw [Act.writes_bind hr]
    exact h.append (hf a hr)

/-- **An append with room for the event** extends the log by it, and stopped anywhere leaves the
log as it was or extended. -/
theorem eventLogAppend_run (h : LogAt D d q n es t) {e : Event} (he : e.Fields)
    (hroom : (logBytes D es).length + e.text.length + 512 ≤ eventLogBytes) :
    ∃ ws, eventLogAppend D (q ++ [n]) e d = ⟨ws, .ok (nextEvent es e)⟩ ∧
      LogRun d q n ws
        (fun d' => (∃ t', LogAt D d' q n es t') ∨ LogAt D d' q n (es ++ [nextEvent es e]) [])
        fun d' => LogAt D d' q n (es ++ [nextEvent es e]) [] := by
  have hok := h.nextEvent_ok he
  obtain ⟨ws, fs, hopen, hfl, hfc, -, hrun⟩ := open_for_append h
  have happ := osAppend_child n (frameBytes D (nextEvent es e)) hrun.final.1.dir
    hrun.final.1.log_ne_dir
  have hframe := append_frame_logRun hrun.final.1 hok rfl hroom
  obtain ⟨us, hrow, hrowrun⟩ := appendIndexRow_run hframe.final.1 hfl hfc
    (by rw [hframe.final.2]; exact hrun.final.2)
  refine ⟨ws ++ ([.append (q ++ [n]) (frameBytes D (nextEvent es e))] ++ us), ?_,
    (hrun.weaken (fun _ h => .inl h) fun _ h => h).append
      (hframe.append (hrowrun.weaken (fun _ h => .inr h) fun _ h => h))⟩
  have hnext : ({ e with sequence := fs.count + 1 } : Event) = nextEvent es e := by
    rw [hfc]
    rfl
  have hwrite : appendFrame D (q ++ [n]) fs { e with sequence := fs.count + 1 } (applyAll ws d) =
      ⟨[.append (q ++ [n]) (frameBytes D (nextEvent es e))] ++ us, .ok (nextEvent es e)⟩ := by
    rw [hnext, appendFrame, frameWrite_ok D hok]
    dsimp only
    rw [hfl, Act.bind_run_run happ (Act.bind_run_run hrow rfl), List.append_nil]
  have hfit : e.text.length ≤ eventBytes ∧
      fs.log.length + e.text.length + 512 ≤ eventLogBytes := ⟨he.size, by rw [hfl]; exact hroom⟩
  have htail := Act.bind_run_run
    (f := fun _ => appendFrame D (q ++ [n]) fs { e with sequence := fs.count + 1 })
    (require_run .invalid (applyAll ws d) hfit) hwrite
  exact Act.bind_run_run hopen htail

/-- An append without room fails, and only opens the log. -/
theorem eventLogAppend_full (h : LogAt D d q n es t) {e : Event}
    (hroom : eventBytes < e.text.length ∨
      eventLogBytes < (logBytes D es).length + e.text.length + 512) :
    ∃ ws, eventLogAppend D (q ++ [n]) e d = ⟨ws, .error .invalid⟩ ∧
      LogRun d q n ws (fun d' => ∃ t', LogAt D d' q n es t') fun d' => LogAt D d' q n es [] := by
  obtain ⟨ws, fs, hopen, hfl, -, -, hrun⟩ := open_for_append h
  refine ⟨ws, ?_, hrun.weaken (fun _ h => h) fun _ h => h.1⟩
  rw [eventLogAppend, Act.bind_run_run hopen (Act.bind_run_error
    (require_fail _ _ (by rw [hfl]; omega))), List.append_nil]

end

end Asper
