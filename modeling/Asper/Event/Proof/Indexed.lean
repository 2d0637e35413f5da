import Asper.Event.Indexed
import Asper.Event.Proof.Log
import Mathlib.Data.List.Induction

/-! # An index never lies

`HonestLog D d q n es t`: the log `n` holds the events `es` and a cut frame `t`, and a row of its
index that passes its checksum is a row of the full index. Every step of the log keeps this
(`step_honest`). A log opened then has all its events (`filesOpen_honest`), and an event is read as it
was written or not at all (`filesRead_honest`). -/

namespace Asper

open Durable

/-! ## Rows -/

/-- Every row that passes its checksum is a row of the full index. -/
def Honest (D : Digest) (es : List Event) (index : Bytes) : Prop :=
  ∀ i, RowSealed D (rowAt index i) → ∃ k < es.length,
    rowAt index i =
      indexRow D (logBytes D (es.take k)).length (logBytes D (es.take (k + 1))).length

section
variable {D : Digest} {es : List Event} {e : Event} {index t : Bytes} {i count : Nat}

theorem Honest.nil : Honest D es [] := fun i h => by
  have := h.1
  rw [rowAt, List.drop_nil, List.take_nil] at this
  cases this

theorem Honest.concat (h : Honest D es index) (e : Event) : Honest D (es ++ [e]) index :=
  fun i hi => by
    obtain ⟨k, hk, hrow⟩ := h i hi
    refine ⟨k, ?_, ?_⟩
    · rw [List.length_append]
      omega
    · rw [List.take_append_of_le_length (Nat.le_of_lt hk), List.take_append_of_le_length hk]
      exact hrow

theorem length_fullIndex (D : Digest) (es : List Event) :
    (fullIndex D es).length = 8 + indexRecord * es.length := by
  rw [fullIndex, List.length_append, length_indexMagic, length_rowsFrom]

theorem rowAt_fullIndex (D : Digest) {es : List Event} {i : Nat} (hi : i < es.length) :
    rowAt (fullIndex D es) i =
      indexRow D (logBytes D (es.take i)).length (logBytes D (es.take (i + 1))).length := by
  rw [rowAt, fullIndex, ← List.drop_drop, ← length_indexMagic, List.drop_left, rowsFrom_row D es 0 hi,
    Nat.zero_add, Nat.zero_add]

/-- A row lies wholly in the index. -/
theorem rowAt_length (h : (rowAt index i).length = indexRecord) :
    8 + (i + 1) * indexRecord ≤ index.length := by
  rw [rowAt, List.length_take, List.length_drop] at h
  have hpos : 0 < indexRecord := by decide
  rw [Nat.succ_mul]
  omega

theorem rowAt_append (h : 8 + (i + 1) * indexRecord ≤ index.length) (row : Bytes) :
    rowAt (index ++ row) i = rowAt index i := by
  rw [Nat.succ_mul] at h
  rw [rowAt, List.drop_append_of_le_length (by omega), List.take_append_of_le_length, rowAt]
  rw [List.length_drop]
  omega

/-- What is cut off an index does not make a row. -/
theorem Honest.take (h : Honest D es index) (k : Nat) : Honest D es (index.take k) := fun i hi => by
  have hlen := rowAt_length hi.1
  have hrow : rowAt (index.take k) i = rowAt index i := by
    conv_rhs => rw [← List.take_append_drop k index]
    exact (rowAt_append hlen _).symm
  rw [hrow] at hi ⊢
  exact h i hi

theorem Honest.full (D : Digest) (es : List Event) : Honest D es (fullIndex D es) := fun i hi => by
  have hlen := rowAt_length hi.1
  rw [length_fullIndex, Nat.mul_comm indexRecord] at hlen
  have hk : i + 1 ≤ es.length := Nat.le_of_mul_le_mul_right (by omega) (show 0 < indexRecord by decide)
  exact ⟨i, hk, rowAt_fullIndex D hk⟩

/-- The row of the next event, whole or cut, behind whole rows. -/
theorem Honest.append_row (h : Honest D es index) (hlen : index.length = 8 + indexRecord * count)
    (e : Event) (k : Nat) :
    Honest D (es ++ [e]) (index ++ (indexRow D (logBytes D es).length
      (logBytes D (es ++ [e])).length).take k) := fun i hi => by
  have hall := rowAt_length hi.1
  rw [List.length_append, hlen, List.length_take, length_indexRow,
    Nat.mul_comm indexRecord count] at hall
  by_cases hic : i < count
  · have hwhole : 8 + (i + 1) * indexRecord ≤ index.length := by
      rw [hlen, Nat.mul_comm indexRecord count]
      exact Nat.add_le_add_left (Nat.mul_le_mul_right _ hic) _
    rw [rowAt_append hwhole] at hi ⊢
    exact (h.concat e) i hi
  · -- the row is the new one
    have hle : count * indexRecord ≤ i * indexRecord := Nat.mul_le_mul_right _ (Nat.not_lt.1 hic)
    rw [Nat.succ_mul] at hall
    have hk : indexRecord ≤ k := by
      have := Nat.min_le_left k indexRecord
      omega
    have heq : i * indexRecord = count * indexRecord := by
      have := Nat.min_le_right k indexRecord
      omega
    have hdrop : 8 + i * indexRecord = index.length := by
      rw [hlen, Nat.mul_comm indexRecord count, heq]
    refine ⟨es.length, by rw [List.length_append]; exact Nat.lt_succ_self _, ?_⟩
    have hrow : (indexRow D (logBytes D es).length (logBytes D (es ++ [e])).length).length ≤ k := by
      rw [length_indexRow]
      exact hk
    have hend : (es ++ [e]).take (es.length + 1) = es ++ [e] :=
      List.take_of_length_le (by rw [List.length_append]; exact Nat.le_refl _)
    rw [rowAt, hdrop, List.drop_left, List.take_of_length_le hrow,
      List.take_of_length_le (Nat.le_of_eq (length_indexRow ..)), List.take_left, hend]

/-- **A row that is taken** gives the extent of a frame. -/
theorem indexRead_honest {log : Bytes} {a b : Nat} (h : Honest D es index)
    (hsize : (logBytes D es).length < 2 ^ 64)
    (hr : indexRead D ⟨log, index, count⟩ (i + 1) = some (a, b)) :
    ∃ k < es.length, a = (logBytes D (es.take k)).length ∧
      b = (logBytes D (es.take (k + 1))).length := by
  unfold indexRead at hr
  rw [Nat.add_sub_cancel] at hr
  dsimp only at hr
  split at hr
  · cases hr
  · next hlen =>
    split at hr
    · next hs =>
      obtain ⟨k, hk, hrow⟩ := h i ⟨by
        by_contra hn
        exact hlen (.inr (.inr hn)), hs.1⟩
      have hle := length_logBytes_take_le D es (k + 1)
      have hlt := length_logBytes_take_lt D hk
      obtain ⟨h1, h2, -⟩ := row_fields D (a := (logBytes D (es.take k)).length)
        (b := (logBytes D (es.take (k + 1))).length) (by omega) (by omega)
      rw [rowAt] at hrow
      rw [hrow, h1, h2] at hr
      obtain ⟨rfl, rfl⟩ := Prod.mk.inj (Option.some.inj hr)
      exact ⟨k, hk, rfl, rfl⟩
    · cases hr

/-- **An index in use** has a row for each event, and nothing is cut behind them. -/
theorem indexUsable_honest {log : Bytes} (h : Honest D es index) (hok : LogOk 0 es)
    (hlog : log = logBytes D es ++ t) (hsize : log.length < 2 ^ 64)
    (hu : indexUsable D log index = some count) :
    count = es.length ∧ t = [] ∧ index.length = 8 + indexRecord * count := by
  have hsize' : (logBytes D es).length < 2 ^ 64 := by
    rw [hlog, List.length_append] at hsize
    omega
  rw [indexUsable] at hu
  split at hu
  · cases hu
  · next hlen =>
    simp only [not_or, Nat.not_lt, not_not] at hlen
    obtain ⟨j, hj⟩ : ∃ j, index.length - 8 = indexRecord * j := Nat.dvd_of_mod_eq_zero hlen.2.2
    have hcount : (index.length - 8) / indexRecord = j := by
      rw [hj, Nat.mul_div_cancel_left _ (by decide)]
    have hall : index.length = 8 + indexRecord * j := by omega
    simp only [hcount] at hu
    split at hu
    · cases hu
    · split at hu
      · next h0 =>
        obtain ⟨rfl, hnil⟩ := h0
        obtain rfl := Option.some.inj hu
        rw [hlog] at hnil
        obtain ⟨hes, ht⟩ := List.append_eq_nil_iff.1 hnil
        have hle := length_le_logBytes D es
        rw [hes] at hle
        exact ⟨(Nat.le_zero.1 hle).symm, ht, hall⟩
      · cases hr : indexRead D ⟨log, index, j⟩ j with
        | none =>
          rw [hr] at hu
          cases hu
        | some p =>
          rw [hr] at hu
          dsimp only at hu
          cases j with
          | zero => simp [indexRead] at hr
          | succ i =>
            obtain ⟨k, hk, ha, hb⟩ := indexRead_honest h hsize' (a := p.1) (b := p.2) hr
            split at hu
            · cases hu
            · next hend =>
              -- the frame of the last row ends the log
              rw [not_not, hb, hlog, List.length_append] at hend
              have hkl : k + 1 = es.length := by
                by_contra hne
                have hlt := length_logBytes_take_lt D (show k + 1 < es.length by omega)
                have hle := length_logBytes_take_le D es (k + 1 + 1)
                omega
              rw [hkl, List.take_length] at hend
              have ht : t = [] := List.length_eq_zero_iff.1 (by omega)
              rw [hlog, ha, ht, List.append_nil, logBytes_split D hk, List.drop_left,
                frameRead_frameBytes D (hok.get hk).1] at hu
              dsimp only at hu
              rw [(hok.get hk).2] at hu
              split at hu
              · next hs =>
                obtain rfl := Option.some.inj hu
                exact ⟨by omega, ht, hall⟩
              · cases hu

end

/-! ## Logs -/

/-- A log with whatever index damage has left, but for rows that pass their checksum without
being rows of the log. -/
structure HonestLog (D : Digest) (d : Disk) (q : Path) (n : Bytes) (es : List Event) (t : Bytes) :
    Prop where
  bare : LogAt D (d.set (indexPath (q ++ [n])) none) q n es t
  file : d (indexPath (q ++ [n])) ≠ some .dir
  rows : Honest D es (d.data (indexPath (q ++ [n])))

section
variable {D : Digest} {d : Disk} {q : Path} {n : Bytes} {es : List Event} {t : Bytes} {e : Event}

theorem HonestLog.dir (h : HonestLog D d q n es t) : d.find q = .found .dir := by
  have := h.bare.dir
  rwa [indexPath_concat, Disk.find_set_child] at this

theorem HonestLog.log (h : HonestLog D d q n es t) :
    d (q ++ [n]) = some (.file (logBytes D es ++ t)) ∨ d (q ++ [n]) = none ∧ es = [] ∧ t = [] := by
  have := h.bare.log
  rwa [Disk.set_ne _ _ (indexPath_ne q n).symm] at this

theorem HonestLog.tmp (h : HonestLog D d q n es t) : d (indexTmp (q ++ [n])) ≠ some .dir := by
  have := h.bare.tmp
  rwa [Disk.set_ne _ _ (indexTmp_ne_indexPath q n)] at this

theorem HonestLog.logFile (h : HonestLog D d q n es t)
    (hlog : d (q ++ [n]) = some (.file (logBytes D es ++ t))) : LogFile D d q n es t :=
  ⟨h.dir, h.bare.ok, h.bare.torn, hlog, h.file, h.tmp⟩

theorem HonestLog.set_tmp (h : HonestLog D d q n es t) {x : Option Node} (hx : x ≠ some .dir) :
    HonestLog D (d.set (indexTmp (q ++ [n])) x) q n es t where
  bare := by
    rw [Disk.set_comm _ _ _ (indexTmp_ne_indexPath q n)]
    exact h.bare.set_tmp hx
  file := by
    rw [Disk.set_ne _ _ (indexTmp_ne_indexPath q n).symm]
    exact h.file
  rows := by
    rw [Disk.data, Disk.set_ne _ _ (indexTmp_ne_indexPath q n).symm]
    exact h.rows

theorem HonestLog.set_index (h : HonestLog D d q n es t) {x : Option Bytes}
    (hx : ∀ b ∈ x, Honest D es b) :
    HonestLog D (d.set (indexPath (q ++ [n])) (x.map .file)) q n es t where
  bare := by
    rw [Disk.set_set]
    exact h.bare
  file := by
    rw [Disk.set_self]
    cases x <;> simp
  rows := by
    rw [Disk.data, Disk.set_self]
    cases x with
    | none => exact Honest.nil
    | some b => exact hx b rfl

theorem HonestLog.truncate (h : HonestLog D d q n es t) :
    HonestLog D ((Write.truncate (q ++ [n]) (logBytes D es).length).apply d) q n es [] where
  bare := by
    rw [← Write.apply_set d none (fun hn => indexPath_ne q n (List.mem_singleton.1 hn))]
    exact h.bare.truncate
  file := by
    rw [Write.apply, Disk.set_ne _ _ (indexPath_ne q n)]
    exact h.file
  rows := by
    rw [Write.apply, Disk.data, Disk.set_ne _ _ (indexPath_ne q n)]
    exact h.rows

theorem LogAt.honest (h : LogAt D d q n es t) : HonestLog D d q n es t where
  bare := h.set_index (.inl rfl)
  file := h.index_ne_dir
  rows := by
    rcases h.index with hi | ⟨k, hi⟩
    · rw [Disk.data, hi]
      exact Honest.nil
    · rw [Disk.data, hi]
      exact (Honest.full D es).take k

/-- What a run of writes that keeps the events makes of the log. -/
abbrev Kept (D : Digest) (q : Path) (n : Bytes) (es : List Event) (d : Disk) : Prop :=
  ∃ t, HonestLog D d q n es t

theorem HonestLog.rebuild (h : HonestLog D d q n es t)
    (hlog : d (q ++ [n]) = some (.file (logBytes D es ++ t))) :
    rebuild D (q ++ [n]) (logBytes D es ++ t) d =
        ⟨rebuildWrites D q n es t, .ok (filesOf D es)⟩ ∧
      LogRun d q n (rebuildWrites D q n es t) (Kept D q n es) (LogFull D q n es) := by
  have hf := h.logFile hlog
  have hsize := h.bare.size
  rw [List.length_append] at hsize
  have hrun := rebuild_keeps hf (P := Kept D q n es) ⟨t, h⟩ (fun ⟨t', h⟩ hx => ⟨t', h.set_tmp hx⟩)
    (fun ⟨_, h⟩ => ⟨[], h.truncate⟩)
    fun ⟨t', h⟩ => ⟨t', h.set_index (x := some _) fun b hb => by
      rw [← Option.some.inj hb]
      exact Honest.full D es⟩
  exact ⟨rebuild_run hf, hrun.within, hrun.crash, rebuild_full hf (by omega)⟩

/-- Opened files of the events, over a disk with their log. -/
structure OpenedLog (D : Digest) (q : Path) (n : Bytes) (es : List Event) (fs : EventFiles)
    (d : Disk) : Prop where
  disk : HonestLog D d q n es []
  log : d (q ++ [n]) = some (.file (logBytes D es))
  bytes : fs.log = logBytes D es
  count : fs.count = es.length
  rows : Honest D es fs.index
  index : d (indexPath (q ++ [n])) = some (.file fs.index)
  length : fs.index.length = 8 + indexRecord * es.length

theorem OpenedLog.kept {fs : EventFiles} (h : OpenedLog D q n es fs d) : Kept D q n es d :=
  ⟨[], h.disk⟩

theorem LogFull.opened (h : LogFull D q n es d) : OpenedLog D q n es (filesOf D es) d :=
  ⟨h.1.honest, h.2.1, rfl, rfl, Honest.full D es, h.2.2, length_fullIndex D es⟩

/-- **Opening a log** gives all its events. -/
theorem filesOpen_honest (h : HonestLog D d q n es t)
    (hlog : d (q ++ [n]) = some (.file (logBytes D es ++ t))) :
    ∃ ws fs, filesOpen D (q ++ [n]) d = ⟨ws, .ok fs⟩ ∧
      LogRun d q n ws (Kept D q n es) (OpenedLog D q n es fs) := by
  have hblob : osBlobOpen (q ++ [n]) d = ⟨[], .ok (logBytes D es ++ t)⟩ := by
    show Outcome.mk [] (blob d (q ++ [n])) = _
    rw [blob_child n h.dir, hlog]
  have hidx : orElse (osBlobOpen (indexPath (q ++ [n]))) .notFound [] d =
      ⟨[], .ok (d.data (indexPath (q ++ [n])))⟩ := by
    have hb : osBlobOpen (indexPath (q ++ [n])) d = ⟨[], blob d (indexPath (q ++ [n]))⟩ := rfl
    have hne := h.file
    rw [Disk.data]
    rw [indexPath_concat] at hne hb ⊢
    rw [blob_child _ h.dir] at hb
    cases hi : d (q ++ [n ++ ascii ".idx"]) with
    | none =>
      rw [hi] at hb
      rw [orElse_run _ _ hb (by simp)]
    | some x =>
      cases x with
      | dir => exact absurd hi hne
      | file b =>
        rw [hi] at hb
        rw [orElse_run _ _ hb (by simp)]
  have hopen : filesOpen D (q ++ [n]) d =
      filesUse D (q ++ [n]) (logBytes D es ++ t) (d.data (indexPath (q ++ [n]))) d := by
    have huse := Act.bind_run_run (f := filesUse D (q ++ [n]) (logBytes D es ++ t)) hidx rfl
    rw [filesOpen]
    exact Act.bind_run_run hblob ((require_bind h.bare.size).trans huse)
  rw [filesUse] at hopen
  cases hu : indexUsable D (logBytes D es ++ t) (d.data (indexPath (q ++ [n]))) with
  | none =>
    rw [hu] at hopen
    obtain ⟨hrun, hlr⟩ := h.rebuild hlog
    exact ⟨_, _, hopen.trans hrun, hlr.within, hlr.crash, hlr.final.opened⟩
  | some count =>
    obtain ⟨rfl, rfl, hlen⟩ := indexUsable_honest h.rows h.bare.ok rfl (size_lt h.bare.size) hu
    rw [hu] at hopen
    rw [List.append_nil] at hlog hopen
    have hfile : d (indexPath (q ++ [n])) = some (.file (d.data (indexPath (q ++ [n])))) := by
      cases hi : d (indexPath (q ++ [n])) with
      | none =>
        rw [Disk.data, hi, List.length_nil] at hlen
        omega
      | some x =>
        cases x with
        | dir => exact absurd hi h.file
        | file b => rw [Disk.data, hi]
    exact ⟨[], _, hopen, .idle ⟨[], h⟩ ⟨h, hlog, rfl, rfl, h.rows, hfile, hlen⟩⟩

/-! ## Reading -/

/-- The row of an event is that of a frame, though maybe not of its own. -/
theorem filesRow_honest {fs : EventFiles} (h : OpenedLog D q n es fs d) {i : Nat}
    (hi : i < es.length) :
    ∃ ws fs' k, k < es.length ∧ filesRow D (q ++ [n]) fs (i + 1) d =
        ⟨ws, .ok (fs', (logBytes D (es.take k)).length, (logBytes D (es.take (k + 1))).length)⟩ ∧
      LogRun d q n ws (Kept D q n es) (OpenedLog D q n es fs') := by
  have hreq : 0 < i + 1 ∧ i + 1 ≤ fs.count := ⟨Nat.succ_pos i, by rw [h.count]; exact hi⟩
  have hlog := h.log
  rw [← List.append_nil (logBytes D es)] at hlog
  have hsize := size_lt h.disk.bare.size
  rw [List.append_nil] at hsize
  rw [filesRow, require_bind hreq]
  cases hr : indexRead D fs (i + 1) with
  | some p =>
    obtain ⟨k, hk, ha, hb⟩ := indexRead_honest (a := p.1) (b := p.2) h.rows hsize hr
    refine ⟨[], fs, k, hk, ?_, .idle h.kept h⟩
    rw [← ha, ← hb]
    rfl
  | none =>
    obtain ⟨hrun, hlr⟩ := h.disk.rebuild hlog
    rw [List.append_nil, ← h.bytes] at hrun
    have hopened := hlr.final.opened
    rw [← List.append_nil (rebuildWrites D q n es [])] at hlr hopened
    refine ⟨rebuildWrites D q n es [] ++ [], filesOf D es, i, hi, ?_, hlr.within, hlr.crash, hopened⟩
    have hrow := indexRead_fullIndex D es.length (t := []) (k := (fullIndex D es).length)
      hi (by
        rw [length_fullIndex, Nat.mul_comm]
        exact Nat.add_le_add_left (Nat.mul_le_mul_left _ hi) _) hi (by rwa [List.append_nil])
    rw [List.take_length, List.append_nil] at hrow
    refine Act.bind_run_run hrun ?_
    rw [show indexRead D (filesOf D es) (i + 1) = _ from hrow]
    rfl

/-- What reading an event gives: a refusal, or the event `e` and files to read on with. -/
def Reads (D : Digest) (q : Path) (n : Bytes) (es : List Event) (e : Event)
    (r : Except Err (Event × EventFiles)) (d : Disk) : Prop :=
  r = .error .parse ∧ Kept D q n es d ∨ ∃ fs, r = .ok (e, fs) ∧ OpenedLog D q n es fs d

theorem Reads.kept {r : Except Err (Event × EventFiles)} (h : Reads D q n es e r d) :
    Kept D q n es d :=
  h.elim And.right fun ⟨_, _, h⟩ => ⟨[], h.disk⟩

/-- **An event is read as it was written or refused.** -/
theorem filesRead_honest {fs : EventFiles} (h : OpenedLog D q n es fs d) {i : Nat}
    (hi : i < es.length) :
    ∃ ws r, filesRead D (q ++ [n]) fs (i + 1) d = ⟨ws, r⟩ ∧
      LogRun d q n ws (Kept D q n es) (Reads D q n es es[i] r) := by
  obtain ⟨ws, fs', k, hk, hrow, hlr⟩ := filesRow_honest h hi
  obtain ⟨hread, hstop⟩ := frameRead_logBytes (D := D) h.disk.bare.ok hk
  have hseq := (h.disk.bare.ok.get hk).2
  rw [← hlr.final.bytes] at hread hstop
  rw [← List.append_nil ws] at hlr
  by_cases hki : k = i
  · subst hki
    refine ⟨ws ++ [], .ok (es[k], fs'), Act.bind_run_run hrow ?_, hlr.within, hlr.crash,
      .inr ⟨fs', rfl, hlr.final⟩⟩
    dsimp only
    rw [hread]
    dsimp only
    rw [hstop, if_neg (by simp [hseq])]
    rfl
  · refine ⟨ws ++ [], .error .parse, Act.bind_run_run hrow ?_, hlr.within, hlr.crash,
      .inl ⟨rfl, [], hlr.final.disk⟩⟩
    dsimp only
    rw [hread]
    dsimp only
    rw [if_pos (.inl (by rw [hseq]; omega))]
    rfl

/-- The metadata of an event as well. -/
theorem filesHead_honest {fs : EventFiles} (h : OpenedLog D q n es fs d) {i : Nat}
    (hi : i < es.length) :
    ∃ ws r, filesHead D (q ++ [n]) fs (i + 1) d = ⟨ws, r⟩ ∧
      LogRun d q n ws (Kept D q n es) (Reads D q n es es[i].bare r) := by
  obtain ⟨ws, fs', k, hk, hrow, hlr⟩ := filesRow_honest h hi
  obtain ⟨hash, rest, hread, hstop⟩ := frameHead_logBytes (D := D) h.disk.bare.ok hk
  have hseq : es[k].bare.sequence = 0 + k + 1 := (h.disk.bare.ok.get hk).2
  rw [← hlr.final.bytes] at hread hstop
  rw [← List.append_nil ws] at hlr
  by_cases hki : k = i
  · subst hki
    refine ⟨ws ++ [], .ok (es[k].bare, fs'), Act.bind_run_run hrow ?_, hlr.within, hlr.crash,
      .inr ⟨fs', rfl, hlr.final⟩⟩
    dsimp only
    rw [hread]
    dsimp only
    rw [hstop, if_neg (by simp [hseq])]
    rfl
  · refine ⟨ws ++ [], .error .parse, Act.bind_run_run hrow ?_, hlr.within, hlr.crash,
      .inl ⟨rfl, [], hlr.final.disk⟩⟩
    dsimp only
    rw [hread]
    dsimp only
    rw [if_pos (.inl (by rw [hseq]; omega))]
    rfl

/-- **A page** shows the events after the cursor that contain the query, or is refused. -/
theorem pageFrom_honest (query : Bytes) (limit : Nat) : ∀ (fuel cursor : Nat) (page : List Event)
    {fs : EventFiles} {d : Disk}, OpenedLog D q n es fs d → es.length - cursor ≤ fuel →
    ∃ ws r, pageFrom D (q ++ [n]) query limit fuel fs cursor page d = ⟨ws, r⟩ ∧
      (r = .error .parse ∨ r = .ok (pageOf query limit (es.drop cursor) cursor page)) ∧
      LogRun d q n ws (Kept D q n es) (Kept D q n es)
  | 0, cursor, page, fs, d, h, hf => by
    refine ⟨[], _, rfl, .inr ?_, .idle h.kept h.kept⟩
    rw [List.drop_eq_nil_of_le (by omega)]
    rfl
  | fuel + 1, cursor, page, fs, d, h, hf => by
    rw [pageFrom, h.count]
    by_cases hc : cursor < es.length ∧ page.length < limit
    · rw [if_pos hc]
      obtain ⟨ws, r, hrun, hlr⟩ := filesRead_honest h hc.1
      rcases hlr.final with ⟨rfl, hk⟩ | ⟨fs', rfl, ho⟩
      · exact ⟨ws, .error .parse, Act.bind_run_error hrun, .inl rfl, hlr.within, hlr.crash, hk⟩
      · rw [List.drop_eq_getElem_cons hc.1, pageOf, if_pos hc.2]
        by_cases hq : query ≠ [] ∧ hasText es[cursor].text query = false
        · obtain ⟨us, r, hrest, hout, hlr'⟩ := pageFrom_honest query limit fuel
            (cursor + 1) page ho (by omega)
          refine ⟨ws ++ us, r, Act.bind_run_run hrun ?_, ?_,
            (hlr.weaken (fun _ h => h) fun _ h => h.kept).append hlr'⟩
          · dsimp only
            rw [if_pos hq]
            exact hrest
          · rwa [if_pos hq]
        · obtain ⟨us, r, hrest, hout, hlr'⟩ := pageFrom_honest query limit fuel
            (cursor + 1) (page ++ [es[cursor]]) ho (by omega)
          refine ⟨ws ++ us, r, Act.bind_run_run hrun ?_, ?_,
            (hlr.weaken (fun _ h => h) fun _ h => h.kept).append hlr'⟩
          · dsimp only
            rw [if_neg hq]
            exact hrest
          · rwa [if_neg hq]
    · rw [if_neg hc]
      refine ⟨[], _, rfl, .inr ?_, .idle h.kept h.kept⟩
      by_cases hl : cursor < es.length
      · rw [pageOf_full query (by omega)]
      · rw [List.drop_eq_nil_of_le (by omega)]
        rfl

/-- The log is not there, and has no events, or can be opened. -/
theorem filesOpen_cases (h : HonestLog D d q n es t) :
    (d (q ++ [n]) = none ∧ es = [] ∧ filesOpen D (q ++ [n]) d = ⟨[], .error .notFound⟩) ∨
      ∃ ws fs, filesOpen D (q ++ [n]) d = ⟨ws, .ok fs⟩ ∧
        LogRun d q n ws (Kept D q n es) (OpenedLog D q n es fs) := by
  rcases h.log with hlog | ⟨hlog, hes, -⟩
  · exact .inr (filesOpen_honest h hlog)
  · refine .inl ⟨hlog, hes, ?_⟩
    have hblob : osBlobOpen (q ++ [n]) d = ⟨[], .error .notFound⟩ := by
      show Outcome.mk [] (blob d (q ++ [n])) = _
      rw [blob_child n h.dir, hlog]
    rw [filesOpen, Act.bind_run_error hblob]

theorem eventLogPage_honest (h : HonestLog D d q n es t) (query : Bytes) (after limit : Nat) :
    ∃ ws r, eventLogPage D (q ++ [n]) query after limit d = ⟨ws, r⟩ ∧
      (r = .error .parse ∨ r = .ok (pageOf query limit (es.drop after) after [])) ∧
      LogRun d q n ws (Kept D q n es) (Kept D q n es) := by
  rcases filesOpen_cases h with ⟨-, rfl, hopen⟩ | ⟨ws, fs, hopen, hlr⟩
  · refine ⟨[], .ok ([], after), ?_, .inr (by rw [List.drop_nil]; rfl), .idle ⟨t, h⟩ ⟨t, h⟩⟩
    rw [eventLogPage, Act.bind_run (Act.attempt_run hopen)]
    rfl
  · obtain ⟨us, r, hpage, hout, hlr'⟩ := pageFrom_honest query limit _ after []
      hlr.final (Nat.le_trans (Nat.sub_le ..)
        (Nat.le_trans (Nat.le_of_eq hlr.final.count.symm) (Nat.le_max_left _ fs.log.length)))
    exact ⟨ws ++ us, r, Act.bind_run_run (Act.attempt_run hopen) hpage, hout,
      (hlr.weaken (fun _ h => h) fun _ h => h.kept).append hlr'⟩

/-- A row beyond the last one is not looked for. -/
theorem filesRow_outside {fs : EventFiles} {seq : Nat} (h : OpenedLog D q n es fs d)
    (hs : seq = 0 ∨ es.length < seq) : filesRow D (q ++ [n]) fs seq d = ⟨[], .error .notFound⟩ := by
  refine Act.bind_run_error (require_fail _ _ ?_)
  rw [h.count]
  omega

/-- **A call that reads the log keeps it**, wherever it stops. -/
theorem call_kept (h : HonestLog D d q n es t) (r : LogRead) :
    LogRun d q n ((r.call D (q ++ [n])).writes d) (Kept D q n es) (Kept D q n es) := by
  -- after the opening one operation, which keeps the log
  have opened : ∀ {α : Type} (f : EventFiles → Io α), (∀ fs d, OpenedLog D q n es fs d →
      LogRun d q n ((f fs).writes d) (Kept D q n es) (Kept D q n es)) →
      LogRun d q n ((filesOpen D (q ++ [n]) >>= fun fs => f fs >>= fun _ => pure ()).writes d)
        (Kept D q n es) (Kept D q n es) := by
    intro α f hf
    rcases filesOpen_cases h with ⟨-, -, hopen⟩ | ⟨ws, fs, hopen, hlr⟩
    · rw [Act.writes, Act.bind_run_error hopen]
      exact .idle ⟨t, h⟩ ⟨t, h⟩
    · have hrun : LogRun d q n ((filesOpen D (q ++ [n])).writes d) (Kept D q n es)
          (Kept D q n es) := by
        rw [Act.writes, hopen]
        exact hlr.weaken (fun _ h => h) fun _ h => h.kept
      refine LogRun.bind hrun fun fs' hfs => ?_
      have hfin : (filesOpen D (q ++ [n])).final d = applyAll ws d := by
        rw [Act.final, Act.writes, hopen]
      rw [Act.result, hopen] at hfs
      obtain rfl := Except.ok.inj hfs
      rw [hfin]
      refine LogRun.bind (hf _ _ hlr.final) fun a _ => ?_
      have hk := (hf _ _ hlr.final).final
      exact .idle hk hk
  cases r with
  | open_ => exact opened (fun _ => (pure () : Io Unit)) fun fs d h => .idle h.kept h.kept
  | event seq =>
    refine opened (fun fs => filesRead D (q ++ [n]) fs seq) fun fs d h => ?_
    by_cases hs : seq = 0 ∨ es.length < seq
    · rw [Act.writes, filesRead, Act.bind_run_error (filesRow_outside h hs)]
      exact .idle h.kept h.kept
    · obtain ⟨i, rfl⟩ : ∃ i, seq = i + 1 := ⟨seq - 1, by omega⟩
      obtain ⟨ws, r, hrun, hlr⟩ := filesRead_honest h (i := i) (by omega)
      rw [Act.writes, hrun]
      exact hlr.weaken (fun _ h => h) fun _ h => h.kept
  | head seq =>
    refine opened (fun fs => filesHead D (q ++ [n]) fs seq) fun fs d h => ?_
    by_cases hs : seq = 0 ∨ es.length < seq
    · rw [Act.writes, filesHead, Act.bind_run_error (filesRow_outside h hs)]
      exact .idle h.kept h.kept
    · obtain ⟨i, rfl⟩ : ∃ i, seq = i + 1 := ⟨seq - 1, by omega⟩
      obtain ⟨ws, r, hrun, hlr⟩ := filesHead_honest h (i := i) (by omega)
      rw [Act.writes, hrun]
      exact hlr.weaken (fun _ h => h) fun _ h => h.kept
  | page query after limit =>
    obtain ⟨ws, r, hrun, -, hlr⟩ := eventLogPage_honest h query after limit
    refine LogRun.bind (by rw [Act.writes, hrun]; exact hlr) fun a _ => ?_
    have hk : Kept D q n es ((eventLogPage D (q ++ [n]) query after limit).final d) := by
      rw [Act.final, Act.writes, hrun]
      exact hlr.final
    exact .idle hk hk

/-! ## Appending -/

/-- What the index is when the next row is written: nothing, or whole rows for all events. -/
def RowsAt (D : Digest) (q : Path) (n : Bytes) (es : List Event) (d : Disk) : Prop :=
  es = [] ∨ ∃ b, d (indexPath (q ++ [n])) = some (.file b) ∧ b.length = 8 + indexRecord * es.length

/-- The index, if there are events, is the one of a run in which nothing fails. -/
def Intact (D : Digest) (q : Path) (n : Bytes) (es : List Event) (d : Disk) : Prop :=
  es = [] ∨ d (indexPath (q ++ [n])) = some (.file (fullIndex D es))

/-- The log after opening it for an append. -/
theorem append_open_honest (h : HonestLog D d q n es t) :
    ∃ ws fs, orElse (filesOpen D (q ++ [n])) .notFound ⟨[], [], 0⟩ d = ⟨ws, .ok fs⟩ ∧
      fs.log = logBytes D es ∧ fs.count = es.length ∧
      LogRun d q n ws (Kept D q n es) (fun d' => HonestLog D d' q n es [] ∧ RowsAt D q n es d') := by
  rcases filesOpen_cases h with ⟨hlog, rfl, hopen⟩ | ⟨ws, fs, hopen, hlr⟩
  · have ht : t = [] := by
      rcases h.log with hn | ⟨-, -, ht⟩
      · rw [hlog] at hn
        cases hn
      · exact ht
    exact ⟨[], ⟨[], [], 0⟩, orElse_run _ _ hopen (by simp), rfl, rfl,
      .idle ⟨t, h⟩ ⟨ht ▸ h, .inl rfl⟩⟩
  · exact ⟨ws, fs, orElse_run _ _ hopen (by simp), hlr.final.bytes, hlr.final.count,
      hlr.weaken (fun _ h => h) fun _ h => ⟨h.disk, .inr ⟨_, h.index, h.length⟩⟩⟩

/-- The frame lands whole or is cut; the index is as it was. -/
theorem append_frame_honest (h : HonestLog D d q n es []) (he : e.Ok)
    (hseq : e.sequence = es.length + 1)
    (hroom : (logBytes D es).length + e.text.length + 512 ≤ eventLogBytes) :
    LogRun d q n [.append (q ++ [n]) (frameBytes D e)]
      (fun d' => Kept D q n es d' ∨ HonestLog D d' q n (es ++ [e]) [])
      fun d' => HonestLog D d' q n (es ++ [e]) [] ∧
        d' (indexPath (q ++ [n])) = d (indexPath (q ++ [n])) := by
  have hother : ∀ w ∈ [Write.append (q ++ [n]) (frameBytes D e)],
      indexPath (q ++ [n]) ∉ w.paths := fun w hw hn => by
    rw [List.mem_singleton.1 hw] at hn
    exact indexPath_ne q n (List.mem_singleton.1 hn)
  have hlr := append_frame_logRun h.bare he hseq hroom
  -- the events are those of the log without its index, and no write is to the index
  have lift : ∀ {d' es' t'}, d' (indexPath (q ++ [n])) = d (indexPath (q ++ [n])) →
      (∀ b, Honest D es b → Honest D es' b) →
      LogAt D (d'.set (indexPath (q ++ [n])) none) q n es' t' → HonestLog D d' q n es' t' := by
    intro d' es' t' hi hmono hl
    refine ⟨hl, by rw [hi]; exact h.file, ?_⟩
    rw [Disk.data, hi]
    exact hmono _ h.rows
  refine ⟨hlr.within, fun hc => ?_, ?_⟩
  · have hi := hc.frame hother
    rcases hlr.crash (hc.set none hother) with ⟨t', hl⟩ | hl
    · exact .inl ⟨t', lift hi (fun _ h => h) hl⟩
    · exact .inr (lift hi (fun _ h => h.concat e) hl)
  · have hi := applyAll_frame d hother
    refine ⟨lift hi (fun _ h => h.concat e) ?_, hi⟩
    have hfin := hlr.final.1
    rwa [applyAll_cons, applyAll_nil, Write.apply_set _ _ (hother _ (.head _))] at hfin

/-- The index row of event `e`, written whole or cut. -/
theorem appendIndexRow_honest (h : HonestLog D d q n (es ++ [e]) []) {fs : EventFiles}
    (hlog : fs.log = logBytes D es) (hcount : fs.count = es.length) (hi : RowsAt D q n es d)
    (hes : Honest D es (d.data (indexPath (q ++ [n])))) :
    ∃ ws, appendIndexRow D (q ++ [n]) fs ((logBytes D es).length + (frameBytes D e).length) d =
        ⟨ws, .ok ()⟩ ∧
      LogRun d q n ws (fun d' => HonestLog D d' q n (es ++ [e]) [])
        fun d' => HonestLog D d' q n (es ++ [e]) [] ∧
          (Intact D q n es d → Intact D q n (es ++ [e]) d') := by
  have hlen : (logBytes D es).length + (frameBytes D e).length =
      (logBytes D (es ++ [e])).length := by
    rw [logBytes_append, List.length_append, logBytes_cons, logBytes_nil, List.append_nil]
  have hfull := fullIndex_concat D es e
  rw [hlen] at hfull ⊢
  rw [appendIndexRow, hlog, hcount]
  generalize hrow : indexRow D (logBytes D es).length (logBytes D (es ++ [e])).length = row at hfull
  have happ : ∀ {b}, Honest D es b → b.length = 8 + indexRecord * es.length → ∀ k,
      Honest D (es ++ [e]) (b ++ row.take k) := fun hb hlen k => by
    rw [← hrow]
    exact hb.append_row hlen e k
  -- one write, which leaves an honest index, whole or cut
  suffices hw : ∃ w, (if es.length = 0 then
          ignore (osWriteFile (indexPath (q ++ [n])) (indexMagic ++ row))
        else ignore (osAppend (indexPath (q ++ [n])) row) : Io Unit) d = ⟨[w], .ok ()⟩ ∧
      w.paths = [indexPath (q ++ [n])] ∧
      (∃ c, w.apply d = d.set (indexPath (q ++ [n])) (some (.file c)) ∧ Honest D (es ++ [e]) c ∧
        (Intact D q n es d → c = fullIndex D (es ++ [e]))) ∧
      ∀ k w', w.cut k = some w' → ∃ c, w'.apply d =
        d.set (indexPath (q ++ [n])) (some (.file c)) ∧ Honest D (es ++ [e]) c by
    obtain ⟨w, hrun, hp, ⟨c, hfin, hc, hin⟩, hcut⟩ := hw
    have keep : ∀ {c}, Honest D (es ++ [e]) c →
        HonestLog D (d.set (indexPath (q ++ [n])) (some (.file c))) q n (es ++ [e]) [] := fun {c} hc =>
      h.set_index (x := some c) fun b hb => by
        rw [← Option.some.inj hb]
        exact hc
    have hdone := keep hc
    rw [← hfin] at hdone
    refine ⟨[w], hrun, fun w' hw' p hp' => ?_, fun hcr => ?_, hdone, fun hi => .inr ?_⟩
    · rw [List.mem_singleton.1 hw', hp] at hp'
      rw [List.mem_singleton.1 hp']
      exact .tail _ (.head _)
    · rcases hcr.cons with rfl | ⟨k, w', hk, -, rfl⟩ | hcr
      · exact h
      · obtain ⟨c', hc', hh⟩ := hcut k w' hk
        rw [hc']
        exact keep hh
      · exact hcr.nil ▸ hdone
    · rw [applyAll_cons, applyAll_nil, hfin, Disk.set_self, hin hi]
  have hne := h.file
  by_cases h0 : es.length = 0
  · obtain rfl := List.length_eq_zero_iff.1 h0
    have hrun : ∀ b, osWriteFile (indexPath (q ++ [n])) b d =
        ⟨[.create (indexPath (q ++ [n])) b], .ok ()⟩ := fun b => by
      rw [indexPath_concat] at hne ⊢
      exact osWriteFile_child _ _ h.dir hne
    refine ⟨_, by rw [if_pos h0, ignore_run (hrun _)], rfl, ⟨_, rfl, ?_, fun _ => hfull.symm⟩,
      fun k w' hc => ?_⟩
    · have := Honest.full D ([] ++ [e])
      rwa [hfull] at this
    · cases hc
      refine ⟨_, rfl, ?_⟩
      have := (Honest.full D ([] ++ [e])).take k
      rwa [hfull] at this
  · obtain ⟨b, hb, hlenb⟩ := hi.resolve_left fun hn => h0 (by rw [hn]; rfl)
    have hdata : d.data (indexPath (q ++ [n])) = b := by rw [Disk.data, hb]
    rw [hdata] at hes
    have hrun : ∀ r, osAppend (indexPath (q ++ [n])) r d =
        ⟨[.append (indexPath (q ++ [n])) r], .ok ()⟩ := fun r => by
      rw [indexPath_concat] at hne ⊢
      exact osAppend_child _ _ h.dir hne
    refine ⟨_, by rw [if_neg h0, ignore_run (hrun _)], rfl, ⟨b ++ row, ?_, ?_, fun hin => ?_⟩,
      fun k w' hc => ?_⟩
    · rw [Write.apply, hdata]
    · have hwhole := happ hes hlenb row.length
      rwa [List.take_length] at hwhole
    · have hfi := hin.resolve_left fun hn => h0 (by rw [hn]; rfl)
      rw [hb] at hfi
      rw [hfull, Node.file.inj (Option.some.inj hfi)]
    · cases hc
      exact ⟨_, by rw [Write.apply, hdata], happ hes hlenb k⟩

/-- An append to an opened log. -/
theorem append_opened {ws : List Write} {fs : EventFiles} (he : e.Fields)
    (hroom : (logBytes D es).length + e.text.length + 512 ≤ eventLogBytes)
    (hopen : orElse (filesOpen D (q ++ [n])) .notFound ⟨[], [], 0⟩ d = ⟨ws, .ok fs⟩)
    (hlog : fs.log = logBytes D es) (hcount : fs.count = es.length)
    (h : HonestLog D (applyAll ws d) q n es []) (hrows : RowsAt D q n es (applyAll ws d)) :
    ∃ us, eventLogAppend D (q ++ [n]) e d = ⟨ws ++ us, .ok (nextEvent es e)⟩ ∧
      LogRun (applyAll ws d) q n us
        (fun d' => Kept D q n es d' ∨ HonestLog D d' q n (es ++ [nextEvent es e]) [])
        fun d' => HonestLog D d' q n (es ++ [nextEvent es e]) [] ∧
          (Intact D q n es (applyAll ws d) → Intact D q n (es ++ [nextEvent es e]) d') := by
  have hok := h.bare.nextEvent_ok he
  have happ := osAppend_child n (frameBytes D (nextEvent es e)) h.dir (by
    rcases h.log with hl | ⟨hl, -, -⟩ <;> rw [hl] <;> simp)
  have hframe := append_frame_honest h hok rfl hroom
  have hidx := hframe.final.2
  obtain ⟨us, hrow, hrowrun⟩ := appendIndexRow_honest hframe.final.1 hlog hcount
    (by unfold RowsAt; rw [hidx]; exact hrows) (by rw [Disk.data, hidx]; exact h.rows)
  refine ⟨[.append (q ++ [n]) (frameBytes D (nextEvent es e))] ++ us, ?_,
    hframe.append ((hrowrun.weaken (fun _ h => .inr h) fun _ h => ⟨h.1, fun hi => h.2 ?_⟩))⟩
  · have hnext : ({ e with sequence := fs.count + 1 } : Event) = nextEvent es e := by
      rw [hcount]
      rfl
    have hwrite : appendFrame D (q ++ [n]) fs { e with sequence := fs.count + 1 } (applyAll ws d) =
        ⟨[.append (q ++ [n]) (frameBytes D (nextEvent es e))] ++ us, .ok (nextEvent es e)⟩ := by
      rw [hnext, appendFrame, frameWrite_ok D hok]
      dsimp only
      rw [hlog, Act.bind_run_run happ (Act.bind_run_run hrow rfl), List.append_nil]
    have hfit : e.text.length ≤ eventBytes ∧
        fs.log.length + e.text.length + 512 ≤ eventLogBytes := ⟨he.size, by rw [hlog]; exact hroom⟩
    exact Act.bind_run_run hopen ((require_bind hfit).trans hwrite)
  · unfold Intact
    rw [hidx]
    exact hi

/-- **An append with room for the event**: wherever it stops, the log has its events or one more. -/
theorem eventLogAppend_honest (h : HonestLog D d q n es t) (he : e.Fields)
    (hroom : (logBytes D es).length + e.text.length + 512 ≤ eventLogBytes) :
    ∃ ws, eventLogAppend D (q ++ [n]) e d = ⟨ws, .ok (nextEvent es e)⟩ ∧
      LogRun d q n ws
        (fun d' => Kept D q n es d' ∨ HonestLog D d' q n (es ++ [nextEvent es e]) [])
        fun d' => HonestLog D d' q n (es ++ [nextEvent es e]) [] := by
  obtain ⟨ws, fs, hopen, hlog, hcount, hlr⟩ := append_open_honest h
  obtain ⟨us, hrun, hlr'⟩ := append_opened he hroom hopen hlog hcount hlr.final.1 hlr.final.2
  exact ⟨ws ++ us, hrun, (hlr.weaken (fun _ h => .inl h) fun _ h => h).append
    (hlr'.weaken (fun _ h => h) fun _ h => h.1)⟩

/-- An append without room fails, and only opens the log. -/
theorem eventLogAppend_refused (h : HonestLog D d q n es t)
    (hroom : ¬ (e.text.length ≤ eventBytes ∧
      (logBytes D es).length + e.text.length + 512 ≤ eventLogBytes)) :
    ∃ ws, eventLogAppend D (q ++ [n]) e d = ⟨ws, .error .invalid⟩ ∧
      LogRun d q n ws (Kept D q n es) (Kept D q n es) := by
  obtain ⟨ws, fs, hopen, hlog, -, hlr⟩ := append_open_honest h
  rw [← List.append_nil ws] at hlr
  refine ⟨ws ++ [], Act.bind_run_run hopen (Act.bind_run_error (require_fail _ _ ?_)),
    hlr.weaken (fun _ h => h) fun _ h => ⟨[], h.1⟩⟩
  rwa [hlog]

/-! ## Runs -/

/-- The events that landed, as they were acknowledged; of an append that failed, the event may
have. -/
inductive Landed : List LogLabel → List Event → Prop where
  | nil : Landed [] []
  | other {ls : List LogLabel} {es : List Event} (h : Landed ls es) : Landed (ls ++ [.other]) es
  | append {ls : List LogLabel} {es : List Event} (h : Landed ls es) (e : Event) :
      Landed (ls ++ [.append e (some (nextEvent es e))]) (es ++ [nextEvent es e])
  | lost {ls : List LogLabel} {es : List Event} (h : Landed ls es) (e : Event) :
      Landed (ls ++ [.append e none]) es
  | late {ls : List LogLabel} {es : List Event} (h : Landed ls es) (e : Event) :
      Landed (ls ++ [.append e none]) (es ++ [nextEvent es e])

/-- The event an append acknowledged. -/
def LogLabel.acked : LogLabel → Option Event
  | .append _ r => r
  | .other => none

/-- Every event that was acknowledged is there, in order. -/
theorem Landed.acked {ls : List LogLabel} {es : List Event} (h : Landed ls es) :
    (ls.filterMap LogLabel.acked).Sublist es := by
  induction h with
  | nil => exact .slnil
  | other _ ih | lost _ _ ih =>
    rw [List.filterMap_append]
    exact (List.append_nil _).symm ▸ ih
  | append _ _ ih =>
    rw [List.filterMap_append]
    exact ih.append (List.Sublist.refl _)
  | late _ _ ih =>
    rw [List.filterMap_append]
    exact ih.append (List.nil_sublist _)

/-- Each event had room when it was appended. -/
def Roomy (D : Digest) (es : List Event) : Prop :=
  ∀ fs e, fs ++ [e] <+: es → (logBytes D fs).length + e.text.length + 512 ≤ eventLogBytes

theorem Roomy.concat (h : Roomy D es)
    (he : (logBytes D es).length + e.text.length + 512 ≤ eventLogBytes) : Roomy D (es ++ [e]) := by
  intro fs e' hp
  rcases List.prefix_concat_iff.1 hp with heq | hp
  · obtain ⟨rfl, he'⟩ := List.append_inj' heq rfl
    rw [List.singleton_inj.1 he']
    exact he
  · exact h fs e' hp

/-- What holds of a log in any run. -/
structure Indexed (D : Digest) (q : Path) (n : Bytes) (ls : List LogLabel) (d : Disk)
    (es : List Event) : Prop where
  kept : Kept D q n es d
  landed : Landed ls es
  roomy : Roomy D es

theorem NewLog.indexed (h : NewLog q n d) : Indexed D q n [] d [] where
  kept := by
    refine ⟨[], ⟨⟨?_, trivial, frameRead_nil D, Nat.zero_le _, .inr ⟨?_, rfl, rfl⟩, .inl ?_, ?_⟩, ?_, ?_⟩⟩
    · rw [indexPath_concat, Disk.find_set_child]
      exact h.dir
    · rw [Disk.set_ne _ _ (indexPath_ne q n).symm]
      exact h.log
    · exact Disk.set_self ..
    · rw [Disk.set_ne _ _ (indexTmp_ne_indexPath q n), h.tmp]
      exact nofun
    · rw [h.index]
      exact nofun
    · rw [Disk.data, h.index]
      exact Honest.nil
  landed := .nil
  roomy fs e hp := by simp at hp

theorem HonestLog.data_log (h : HonestLog D d q n es t) :
    d.data (q ++ [n]) = logBytes D es ++ t := by
  have hd := h.bare.data_log
  rwa [Disk.data, Disk.set_ne _ _ (indexPath_ne q n).symm] at hd

/-- What a rebuild writes for the log. -/
theorem HonestLog.scanIndex (h : HonestLog D d q n es t) :
    scanIndex D (d.data (q ++ [n])) = fullIndex D es := by
  rw [h.data_log, Asper.scanIndex, scanLog_logBytes D h.bare.torn h.bare.ok (Nat.le_refl _)]
  rfl

/-- A log with the whole frame of an append has the event. -/
theorem HonestLog.landed (h : HonestLog D d q n es t) (he : e.Ok)
    (hlog : d (q ++ [n]) = some (.file (logBytes D (es ++ [e])))) : False := by
  have hframe : logBytes D es ++ t = logBytes D es ++ frameBytes D e := by
    have hd := h.data_log
    rw [Disk.data, hlog] at hd
    rw [← hd, logBytes_append, logBytes_cons, logBytes_nil, List.append_nil]
  have ht := h.bare.torn
  rw [List.append_cancel_left hframe, ← List.append_nil (frameBytes D e),
    frameRead_frameBytes D he] at ht
  cases ht

/-- **One step keeps the index honest.** -/
theorem step_indexed {ls : List LogLabel} {l : LogLabel} {d' : Disk}
    (h : Indexed D q n ls d es) (hs : IndexedLog.Step D q n d l d') :
    ∃ es', Indexed D q n (ls ++ [l]) d' es' := by
  obtain ⟨t, hk⟩ := h.kept
  -- an append has room, and then its event is as the callers make it, or is refused
  have run : ∀ {e : Event}, e.Appended →
      (∃ ws, eventLogAppend D (q ++ [n]) e d = ⟨ws, .ok (nextEvent es e)⟩ ∧ e.Fields ∧
        (logBytes D es).length + e.text.length + 512 ≤ eventLogBytes ∧
        LogRun d q n ws
          (fun d' => Kept D q n es d' ∨ HonestLog D d' q n (es ++ [nextEvent es e]) [])
          fun d' => HonestLog D d' q n (es ++ [nextEvent es e]) []) ∨
      ∃ ws, eventLogAppend D (q ++ [n]) e d = ⟨ws, .error .invalid⟩ ∧
        LogRun d q n ws (Kept D q n es) (Kept D q n es) := by
    intro e he
    by_cases hroom : e.text.length ≤ eventBytes ∧
        (logBytes D es).length + e.text.length + 512 ≤ eventLogBytes
    · have hf := he.resolve_left (Nat.not_lt.2 hroom.1)
      obtain ⟨ws, hrun, hlr⟩ := eventLogAppend_honest hk hf hroom.2
      exact .inl ⟨ws, hrun, hf, hroom.2, hlr⟩
    · exact .inr (eventLogAppend_refused hk hroom)
  cases hs with
  | @append e e' he hr =>
    rcases run he with ⟨ws, hrun, hf, hroom, hlr⟩ | ⟨ws, hrun, -⟩
    · rw [Act.result, hrun] at hr
      obtain rfl := Except.ok.inj hr
      refine ⟨es ++ [nextEvent es e], ⟨[], ?_⟩, h.landed.append e, h.roomy.concat hroom⟩
      rw [Act.final, Act.writes, hrun]
      exact hlr.final
    · rw [Act.result, hrun] at hr
      cases hr
  | @unindexed e e' cut d' he hr hc hlog =>
    rcases run he with ⟨ws, hrun, hf, hroom, hlr⟩ | ⟨ws, hrun, -⟩
    · rw [Act.result, hrun] at hr
      obtain rfl := Except.ok.inj hr
      rw [Act.final, Act.writes, hrun] at hlog
      rw [Act.writes, hrun] at hc
      refine ⟨es ++ [nextEvent es e], ?_, h.landed.append e, h.roomy.concat hroom⟩
      rcases hlr.crash hc with ⟨t', hl⟩ | hl
      · rcases hlr.final.log with hfin | ⟨-, hnil, -⟩
        · rw [List.append_nil, ← hlog] at hfin
          exact (hl.landed (hk.bare.nextEvent_ok hf) hfin).elim
        · simp at hnil
      · exact ⟨[], hl⟩
    · rw [Act.result, hrun] at hr
      cases hr
  | @broken e cut d' he hc =>
    rcases run he with ⟨ws, hrun, -, hroom, hlr⟩ | ⟨ws, hrun, hlr⟩
    · rw [Act.writes, hrun] at hc
      rcases hlr.crash hc with hl | hl
      · exact ⟨es, hl, h.landed.lost e, h.roomy⟩
      · exact ⟨es ++ [nextEvent es e], ⟨[], hl⟩, h.landed.late e, h.roomy.concat hroom⟩
    · rw [Act.writes, hrun] at hc
      exact ⟨es, hlr.crash hc, h.landed.lost e, h.roomy⟩
  | read r hc => exact ⟨es, (call_kept hk r).crash hc, h.landed.other, h.roomy⟩
  | damage x hx =>
    refine ⟨es, ⟨t, hk.set_index fun b hb i hi => ?_⟩, h.landed.other, h.roomy⟩
    obtain ⟨j, hj, hrow⟩ := hx b hb i hi
    rw [hk.scanIndex] at hj hrow
    rw [hrow]
    exact Honest.full D es j hj
  | elsewhere d' hdir hp =>
    have hidx := hp _ (.tail _ (.head _))
    refine ⟨es, ⟨t, ?_, by rw [hidx]; exact hk.file, by rw [Disk.data, hidx]; exact hk.rows⟩,
      h.landed.other, h.roomy⟩
    have hfiles : ∀ p ∈ logFiles q n, (d'.set (indexPath (q ++ [n])) none) p =
        (d.set (indexPath (q ++ [n])) none) p := fun p hm => by
      by_cases hpi : p = indexPath (q ++ [n])
      · rw [hpi, Disk.set_self, Disk.set_self]
      · rw [Disk.set_ne _ _ hpi, Disk.set_ne _ _ hpi, hp p hm]
    refine hk.bare.congr ?_ hfiles
    rw [indexPath_concat, Disk.find_set_child, hdir]
    exact hk.dir

theorem run_indexed {ls : List LogLabel} {d' : Disk} (h0 : NewLog q n d)
    (h : Runs (IndexedLog.Step D q n) d ls d') : ∃ es, Indexed D q n ls d' es :=
  h.inv (I := fun ls d => ∃ es, Indexed D q n ls d es) ⟨[], h0.indexed⟩
    fun _ _ _ _ ⟨_, hi⟩ hs => step_indexed hi hs

/-! ## Without failures -/

theorem NewLog.logAt (h : NewLog q n d) : LogAt D d q n [] [] :=
  ⟨h.dir, trivial, frameRead_nil D, Nat.zero_le _, .inr ⟨h.log, rfl, rfl⟩, .inl h.index, by
    rw [h.tmp]
    exact nofun⟩

/-- **The index of a run in which nothing fails** is the full one. -/
theorem appendAll_intact (h : NewLog q n d) : ∀ {es : List Event}, LogOk 0 es → Roomy D es →
    LogAt D (appendAll D (q ++ [n]) es d) q n es [] ∧
      Intact D q n es (appendAll D (q ++ [n]) es d) := by
  intro es
  induction es using List.reverseRecOn with
  | nil => exact fun _ _ => ⟨h.logAt, .inl rfl⟩
  | append_singleton es e ih =>
    intro hok hroom
    obtain ⟨hes, hlast⟩ := LogOk.append.1 hok
    obtain ⟨hl, -⟩ := ih hes fun fs e' hp => hroom fs e' (hp.trans (List.prefix_append _ _))
    have hnext : nextEvent es e = e := by
      have hs := hlast.2.1
      rw [Nat.zero_add] at hs
      rw [nextEvent, ← hs]
    have hthis := hroom es e (List.prefix_refl _)
    have hfin : appendAll D (q ++ [n]) (es ++ [e]) d =
        (eventLogAppend D (q ++ [n]) e).final (appendAll D (q ++ [n]) es d) := by
      rw [appendAll, List.foldl_append]
      rfl
    -- the log is opened with its index whole
    obtain ⟨ws, fs, hopen, hlog, hcount, -, hlr⟩ := open_for_append hl
    have hrows : RowsAt D q n es (applyAll ws (appendAll D (q ++ [n]) es d)) :=
      hlr.final.2.imp_right fun hi => ⟨_, hi, length_fullIndex D es⟩
    obtain ⟨us, hrun, hlr'⟩ := append_opened hlast.1.toFields hthis hopen hlog hcount
      hlr.final.1.honest hrows
    have hi := hlr'.final.2 hlr.final.2
    obtain ⟨ws', hrun', hlr''⟩ := eventLogAppend_run hl hlast.1.toFields hthis
    have hdone := hlr''.final
    rw [hnext] at hi hdone
    rw [hrun'] at hrun
    rw [← applyAll_append] at hi
    rw [hfin, Act.final, Act.writes, hrun']
    exact ⟨hdone, by rwa [(Outcome.mk.inj hrun).1]⟩

end

/-- **The index never lies**: in every run of a log whose index may be lost, cut or damaged, a log
that is opened has as many events as whole frames, each is read as it was appended or not at all, and
a rebuild writes the index of a run in which nothing fails. -/
theorem index_honest {D : Digest} {q : Path} {n : Bytes} {d d' : Disk} {ls : List LogLabel}
    (h0 : NewLog q n d) (h : Runs (IndexedLog.Step D q n) d ls d') :
    ∃ es t, Landed ls es ∧ d'.data (q ++ [n]) = logBytes D es ++ t ∧
      frameRead D t = .error .notFound ∧
      (d' (q ++ [n]) ≠ none → ∃ fs, (filesOpen D (q ++ [n])).result d' = .ok fs) ∧
      (∀ fs, (filesOpen D (q ++ [n])).result d' = .ok fs →
        OpenedLog D q n es fs ((filesOpen D (q ++ [n])).final d')) ∧
      (∀ fs d1, OpenedLog D q n es fs d1 → fs.count = es.length ∧
        (∀ seq, seq = 0 ∨ es.length < seq →
          (filesRead D (q ++ [n]) fs seq).result d1 = .error .notFound) ∧
        ∀ i (hi : i < es.length),
          Reads D q n es es[i] ((filesRead D (q ++ [n]) fs (i + 1)).result d1)
            ((filesRead D (q ++ [n]) fs (i + 1)).final d1) ∧
          Reads D q n es es[i].bare ((filesHead D (q ++ [n]) fs (i + 1)).result d1)
            ((filesHead D (q ++ [n]) fs (i + 1)).final d1)) ∧
      (∀ query after limit page,
        (eventLogPage D (q ++ [n]) query after limit).result d' = .ok page →
          page = pageOf query limit (es.drop after) after []) ∧
      (d' (q ++ [n]) ≠ none →
        (rebuild D (q ++ [n]) (d'.data (q ++ [n]))).final d' (indexPath (q ++ [n])) =
            some (.file (fullIndex D es)) ∧
          (es ≠ [] → appendAll D (q ++ [n]) es d (indexPath (q ++ [n])) =
            some (.file (fullIndex D es)))) := by
  obtain ⟨es, ⟨t, hk⟩, hlanded, hroom⟩ := run_indexed h0 h
  have hlog : d' (q ++ [n]) ≠ none → d' (q ++ [n]) = some (.file (logBytes D es ++ t)) := fun hn =>
    hk.log.resolve_right fun hno => hn hno.1
  refine ⟨es, t, hlanded, hk.data_log, hk.bare.torn, fun hn => ?_, fun fs hfs => ?_,
    fun fs d1 ho => ⟨ho.count, fun seq hs => ?_, fun i hi => ⟨?_, ?_⟩⟩,
    fun query after limit page hp => ?_, fun hn => ⟨?_, fun hne => ?_⟩⟩
  · obtain ⟨ws, fs, hopen, -⟩ := filesOpen_honest hk (hlog hn)
    exact ⟨fs, congrArg Outcome.result hopen⟩
  · rcases filesOpen_cases hk with ⟨-, -, hopen⟩ | ⟨ws, fs', hopen, hlr⟩
    · rw [Act.result, hopen] at hfs
      cases hfs
    · rw [Act.result, hopen] at hfs
      obtain rfl := Except.ok.inj hfs
      rw [Act.final, Act.writes, hopen]
      exact hlr.final
  · rw [Act.result, filesRead, Act.bind_run_error (filesRow_outside ho hs)]
  · obtain ⟨ws, r, hrun, hlr⟩ := filesRead_honest ho hi
    rw [Act.result, Act.final, Act.writes, hrun]
    exact hlr.final
  · obtain ⟨ws, r, hrun, hlr⟩ := filesHead_honest ho hi
    rw [Act.result, Act.final, Act.writes, hrun]
    exact hlr.final
  · obtain ⟨ws, r, hrun, hout, -⟩ := eventLogPage_honest hk query after limit
    rw [Act.result, hrun] at hp
    rcases hout with hr | hr
    · rw [hr] at hp
      cases hp
    · rw [hr] at hp
      exact (Except.ok.inj hp).symm
  · obtain ⟨hrun, hlr⟩ := hk.rebuild (hlog hn)
    rw [hk.data_log, Act.final, Act.writes, hrun]
    exact hlr.final.2.2
  · exact (appendAll_intact h0 hk.bare.ok hroom).2.resolve_left hne

/-! ## A row that is forged

The checksum of a row has no key. A row that is made to pass it leads to whatever frame is in a
text. -/

/-- The event that is never appended. -/
def forgedEvent : Event := ⟨1, 0, .user, false, uuidV4 fun _ => 1, [], ascii "y"⟩

/-- An event whose text is a frame, but for the newline at its end. -/
def carrierEvent (D : Digest) : Event :=
  ⟨0, 0, .user, false, uuidV4 fun _ => 2, [], headLine D forgedEvent ++ forgedEvent.text⟩

section
variable (D : Digest)

theorem forgedEvent_ok : forgedEvent.Ok where
  at_ge := by decide
  at_lt := by decide
  id_valid := by decide +kernel
  object := .inl rfl
  no_nul := by decide
  utf8 := by decide +kernel
  size := by decide
  seq_pos := by decide
  seq_lt := by decide

theorem carrierEvent_fields : (carrierEvent D).Fields := by
  obtain ⟨l, hl, hp, hlen, -⟩ := headLine_eq D forgedEvent_ok
  have hall : ∀ b ∈ headLine D forgedEvent ++ forgedEvent.text, 0 < b ∧ b < 128 := by
    rw [hl]
    intro b hb
    rcases List.mem_append.1 hb with hb | hb
    · rcases List.mem_append.1 hb with hb | hb
      · obtain ⟨h1, h2⟩ := hp b hb
        exact ⟨Nat.lt_of_lt_of_le (show 0 < 32 by decide) h1, h2⟩
      · rw [List.mem_singleton.1 hb]
        decide
    · rw [show forgedEvent.text = [121] by rfl] at hb
      rw [List.mem_singleton.1 hb]
      decide
  have hid : uuidValid (uuidV4 fun _ => 2) = true := by decide +kernel
  refine ⟨forgedEvent_ok.at_ge, forgedEvent_ok.at_lt, hid, .inl rfl, fun hn => ?_,
    utf8Valid_ascii fun b hb => (hall b hb).2, ?_⟩
  · exact absurd (hall 0 hn).1 (by decide)
  · show (headLine D forgedEvent ++ forgedEvent.text).length ≤ eventBytes
    rw [hl, List.length_append, List.length_append]
    have : forgedEvent.text.length = 1 := rfl
    have : eventBytes = 16777216 := rfl
    rw [List.length_singleton]
    omega

/-- The log of the one event ends with the frame in its text. -/
theorem carrier_log : logBytes D [nextEvent [] (carrierEvent D)] =
    headLine D (nextEvent [] (carrierEvent D)) ++ frameBytes D forgedEvent := by
  rw [logBytes_cons, logBytes_nil, List.append_nil, frameBytes, frameBytes]
  show _ ++ ([] ++ (headLine D forgedEvent ++ forgedEvent.text ++ [10])) = _
  rw [List.nil_append, List.append_assoc]
  rfl

/-- The index that leads to it. -/
def forgedIndex : Bytes :=
  indexMagic ++ indexRow D (headLine D (nextEvent [] (carrierEvent D))).length
    (logBytes D [nextEvent [] (carrierEvent D)]).length

end

/-- **The forged row is taken**: the log opens with it, and reads an event that was not appended. -/
theorem forged_read {D : Digest} {d : Disk} {q : Path} {n : Bytes}
    (h : LogFile D d q n [nextEvent [] (carrierEvent D)] [])
    (hsize : (logBytes D [nextEvent [] (carrierEvent D)]).length ≤ eventLogBytes)
    (hi : d (indexPath (q ++ [n])) = some (.file (forgedIndex D))) :
    ∃ fs, filesOpen D (q ++ [n]) d = ⟨[], .ok fs⟩ ∧
      filesRead D (q ++ [n]) fs 1 d = ⟨[], .ok (forgedEvent, fs)⟩ := by
  have hlog := h.log
  rw [List.append_nil] at hlog
  have hlt := size_lt hsize
  have hlen : (logBytes D [nextEvent [] (carrierEvent D)]).length =
      (headLine D (nextEvent [] (carrierEvent D))).length + (frameBytes D forgedEvent).length := by
    rw [carrier_log, List.length_append]
  have hpos := length_frameBytes_pos D forgedEvent
  obtain ⟨h1, h2, h3⟩ := row_fields D (a := (headLine D (nextEvent [] (carrierEvent D))).length)
    (b := (logBytes D [nextEvent [] (carrierEvent D)]).length) (by omega) hlt
  have hil : (forgedIndex D).length = 8 + indexRecord := by
    rw [forgedIndex, List.length_append, length_indexMagic, length_indexRow]
  -- the row of the one event
  have hrow : indexRead D ⟨logBytes D [nextEvent [] (carrierEvent D)], forgedIndex D, 1⟩ 1 =
      some ((headLine D (nextEvent [] (carrierEvent D))).length,
        (logBytes D [nextEvent [] (carrierEvent D)]).length) := by
    have hr : ((forgedIndex D).drop (8 + (1 - 1) * indexRecord)).take indexRecord =
        indexRow D (headLine D (nextEvent [] (carrierEvent D))).length
          (logBytes D [nextEvent [] (carrierEvent D)]).length := by
      rw [Nat.sub_self, Nat.zero_mul, Nat.add_zero, ← length_indexMagic, forgedIndex, List.drop_left,
        List.take_of_length_le (Nat.le_of_eq (length_indexRow ..))]
    unfold indexRead
    rw [hr]
    dsimp only
    rw [length_indexRow, h1, h2, if_neg (by simp), if_pos ⟨h3, by omega, Nat.le_refl _⟩]
  have hframe : frameRead D ((logBytes D [nextEvent [] (carrierEvent D)]).drop
      (headLine D (nextEvent [] (carrierEvent D))).length) = .ok (forgedEvent, []) := by
    rw [carrier_log, List.drop_left, ← List.append_nil (frameBytes D forgedEvent),
      frameRead_frameBytes D forgedEvent_ok]
  have hblob : osBlobOpen (q ++ [n]) d =
      ⟨[], .ok (logBytes D [nextEvent [] (carrierEvent D)])⟩ := by
    show Outcome.mk [] (blob d (q ++ [n])) = _
    rw [blob_child n h.dir, hlog]
  have hidx : orElse (osBlobOpen (indexPath (q ++ [n]))) .notFound [] d =
      ⟨[], .ok (forgedIndex D)⟩ := by
    have hb : osBlobOpen (indexPath (q ++ [n])) d = ⟨[], blob d (indexPath (q ++ [n]))⟩ := rfl
    rw [indexPath_concat] at hi hb ⊢
    rw [blob_child _ h.dir, hi] at hb
    rw [orElse_run _ _ hb (by simp)]
  have huse : indexUsable D (logBytes D [nextEvent [] (carrierEvent D)]) (forgedIndex D) =
      some 1 := by
    have h8 : (forgedIndex D).take 8 = indexMagic := by
      rw [forgedIndex, ← length_indexMagic, List.take_left]
    rw [indexUsable, hil, if_neg (by decide)]
    dsimp only
    rw [h8, if_neg (not_not.2 rfl), if_neg (fun hn => absurd hn.1 (by decide)),
      show (8 + indexRecord - 8) / indexRecord = 1 by decide, hrow]
    dsimp only
    rw [if_neg (not_not.2 rfl), hframe]
    exact if_pos ⟨rfl, rfl⟩
  refine ⟨⟨logBytes D [nextEvent [] (carrierEvent D)], forgedIndex D, 1⟩, ?_, ?_⟩
  · refine Act.bind_run_run (w := []) (v := []) hblob ((require_bind hsize).trans
      (Act.bind_run_run (w := []) (v := []) hidx ?_))
    rw [filesUse, huse]
    rfl
  · refine Act.bind_run_run (w := []) (v := []) (a := (⟨logBytes D [nextEvent [] (carrierEvent D)],
      forgedIndex D, 1⟩, _, _)) ((require_bind ⟨Nat.one_pos, Nat.le_refl 1⟩).trans (by rw [hrow]; rfl)) ?_
    dsimp only
    rw [hframe]
    dsimp only
    rw [if_neg (by rw [List.length_nil, Nat.sub_zero]; exact fun hn => hn.elim (· rfl) (· rfl))]
    rfl

/-- The run of one append to a new log. -/
theorem carrier_run (D : Digest) : ∃ d,
    Runs (IndexedLog.Step D [] (ascii "log")) (fun _ => none)
      [.append (carrierEvent D) (some (nextEvent [] (carrierEvent D)))] d ∧
    LogAt D d [] (ascii "log") [nextEvent [] (carrierEvent D)] [] := by
  have hnew : NewLog [] (ascii "log") (fun _ => none) := ⟨rfl, rfl, rfl, rfl⟩
  have hf := carrierEvent_fields D
  have hroom : (logBytes D []).length + (carrierEvent D).text.length + 512 ≤ eventLogBytes := by
    have hsize := hf.size
    have h1 : eventBytes = 16777216 := rfl
    have h2 : eventLogBytes = 536870912 := rfl
    rw [logBytes_nil, List.length_nil]
    omega
  obtain ⟨ws, hrun, hlr⟩ := eventLogAppend_run (hnew.logAt (D := D)) hf hroom
  have hs := IndexedLog.Step.append (D := D) (q := []) (n := ascii "log") (d := fun _ => none)
    (.inr hf) (congrArg Outcome.result hrun)
  refine ⟨_, .single hs, ?_⟩
  rw [Act.final, Act.writes]
  exact (congrArg Outcome.writes hrun) ▸ hlr.final

/-- One event is appended, its index is overwritten by a row that passes its checksum, and the log
opens and reads an event that was never appended. -/
theorem index_forged : ∃ d fs, Runs (IndexedLog.Step padDigest [] (ascii "log")) (fun _ => none)
      [.append (carrierEvent padDigest) (some (nextEvent [] (carrierEvent padDigest)))] d ∧
    (filesOpen padDigest [ascii "log"]).result
      (d.set (indexPath [ascii "log"]) (some (.file (forgedIndex padDigest)))) = .ok fs ∧
    (filesRead padDigest [ascii "log"] fs 1).result
      (d.set (indexPath [ascii "log"]) (some (.file (forgedIndex padDigest)))) =
        .ok (forgedEvent, fs) ∧
    forgedEvent ≠ nextEvent [] (carrierEvent padDigest) := by
  obtain ⟨d, hrun, hl⟩ := carrier_run padDigest
  have hlog := hl.log.resolve_right fun hn => List.cons_ne_nil _ _ hn.2.1
  have hsize := hl.size
  rw [List.append_nil] at hsize
  have hfile : LogFile padDigest (d.set (indexPath ([] ++ [ascii "log"]))
      (some (.file (forgedIndex padDigest)))) [] (ascii "log")
      [nextEvent [] (carrierEvent padDigest)] [] := by
    refine ⟨rfl, hl.ok, hl.torn, ?_, ?_, ?_⟩
    · rw [Disk.set_ne _ _ (indexPath_ne [] (ascii "log")).symm]
      exact hlog
    · rw [Disk.set_self]
      exact nofun
    · rw [Disk.set_ne _ _ (indexTmp_ne_indexPath [] (ascii "log"))]
      exact hl.tmp
  obtain ⟨fs, hopen, hread⟩ := forged_read hfile hsize (Disk.set_self ..)
  refine ⟨d, fs, hrun, congrArg Outcome.result hopen, congrArg Outcome.result hread, fun hn => ?_⟩
  exact absurd (congrArg Event.id hn) (by decide +kernel)

/-- The index of the one event is lost: the log still opens, with the event. -/
theorem index_honest_lost : ∃ d fs es, d (indexPath [ascii "log"]) = none ∧
    (filesOpen padDigest [ascii "log"]).result d = .ok fs ∧ fs.count = es.length ∧
    [nextEvent [] (carrierEvent padDigest)].Sublist es := by
  obtain ⟨d, hrun, hl⟩ := carrier_run padDigest
  have hlog := hl.log.resolve_right fun hn => List.cons_ne_nil _ _ hn.2.1
  have hall := hrun.snoc (.damage none nofun)
  obtain ⟨es, t, hland, -, -, hopens, hopened, hreads, -⟩ :=
    index_honest ⟨rfl, rfl, rfl, rfl⟩ hall
  obtain ⟨fs, hfs⟩ := hopens (by
    rw [Disk.set_ne _ _ (indexPath_ne [] (ascii "log")).symm, hlog]
    exact nofun)
  exact ⟨_, fs, es, Disk.set_self .., hfs, (hreads fs _ (hopened fs hfs)).1, hland.acked⟩

end Asper
