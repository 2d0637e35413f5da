import Asper.Journal.Proof.Replay

/-! # An append that may fail

`journalAppend_steps`: whatever fails in an append, and wherever the process stops in it, the journal
holds the frames it held, with the new one behind them or a cut piece of it. A writer that is not
poisoned knows which. -/

namespace Asper

open Durable

section
variable {σ Op : Type} (C : OpCodec σ Op) {D : Digest} {d : Disk} {q : Path} {n : Bytes}
  {es : List Event} {e : Event}

/-- The journal holds the frames `es`, maybe with a cut frame, or these and the frame of `e`. -/
def JournalHolds (D : Digest) (q : Path) (n : Bytes) (es : List Event) (e : Event) (d : Disk) : Prop :=
  (∃ t, JournalFile D d q n es t) ∨ JournalFile D d q n (es ++ [e]) []

/-- Where an append left the writer and the journal. -/
inductive AppendLeft (D : Digest) (q : Path) (n : Bytes) (es : List Event) (e : Event) :
    JournalState × Option Err → Disk → Prop
  | done {d : Disk} (h : JournalFile D d q n (es ++ [e]) []) :
    AppendLeft D q n es e (.opened (es.length + 1), none) d
  | undone {d : Disk} {err : Err} (h : JournalFile D d q n es []) :
    AppendLeft D q n es e (.opened es.length, some err) d
  | unknown {d : Disk} {j : JournalState} {err : Err} (hp : j.poisoned = true)
    (h : JournalHolds D q n es e d) : AppendLeft D q n es e (j, some err) d

/-- The next frame of a journal. -/
structure NextFrame (D : Digest) (es : List Event) (e : Event) : Prop where
  ok : e.Ok
  sequence : e.sequence = es.length + 1
  room : (logBytes D es).length + e.text.length + 512 ≤ eventLogBytes

/-- The journal with these bytes behind its frames. -/
theorem JournalFile.push (h : JournalFile D d q n es []) {t : Bytes}
    (ht : frameRead D t = .error .notFound) (hsize : (logBytes D es ++ t).length ≤ eventLogBytes) :
    JournalFile D ((Write.append (q ++ [n]) t).apply d) q n es t where
  dir := by rw [Write.apply, Disk.find_set_child, h.dir]
  ok := h.ok
  torn := ht
  size := hsize
  log := by rw [Write.apply, Disk.set_self, Disk.data, h.log, List.append_nil]

/-- **Any part of a frame** behind the others is cut or whole. -/
theorem JournalFile.append_take (h : JournalFile D d q n es []) (he : NextFrame D es e) (k : Nat) :
    JournalHolds D q n es e ((Write.append (q ++ [n]) ((frameBytes D e).take k)).apply d) := by
  have hlen := length_frameBytes_le D he.ok
  have hroom := he.room
  by_cases hk : k < (frameBytes D e).length
  · refine .inl ⟨_, h.push (frameRead_torn D he.ok hk) ?_⟩
    rw [List.length_append, List.length_take]
    omega
  · refine .inr ⟨?_, LogOk.append.2 ⟨h.ok, he.ok, by rw [Nat.zero_add]; exact he.sequence, trivial⟩,
      frameRead_nil D, ?_, ?_⟩
    · rw [Write.apply, Disk.find_set_child, h.dir]
    · rw [List.append_nil]
      exact size_push he.ok hroom
    · rw [List.take_of_length_le (Nat.le_of_not_lt hk), Write.apply, Disk.set_self, Disk.data, h.log]
      simp

/-- The whole frame behind the others. -/
theorem JournalFile.append_frame (h : JournalFile D d q n es []) (he : NextFrame D es e) :
    JournalFile D ((Write.append (q ++ [n]) (frameBytes D e)).apply d) q n (es ++ [e]) [] where
  dir := by rw [Write.apply, Disk.find_set_child, h.dir]
  ok := LogOk.append.2 ⟨h.ok, he.ok, by rw [Nat.zero_add]; exact he.sequence, trivial⟩
  torn := frameRead_nil D
  size := by
    rw [List.append_nil]
    exact size_push he.ok he.room
  log := by
    rw [Write.apply, Disk.set_self, Disk.data, h.log]
    simp

/-- Taking back what was written behind the frames. -/
theorem JournalFile.retract (h : JournalFile D d q n es []) (t : Bytes) :
    JournalFile D ((Write.truncate (q ++ [n]) (logBytes D es).length).apply
      ((Write.append (q ++ [n]) t).apply d)) q n es [] where
  dir := by rw [Write.apply, Write.apply, Disk.find_set_child, Disk.find_set_child, h.dir]
  ok := h.ok
  torn := frameRead_nil D
  size := h.size
  log := by
    have hdata : ((Write.append (q ++ [n]) t).apply d).data (q ++ [n]) = logBytes D es ++ t := by
      rw [Write.apply, Disk.data, Disk.set_self]
      dsimp only
      rw [Disk.data, h.log, List.append_nil]
    show Disk.set _ _ (some (.file ((Disk.data _ _).take _))) _ = _
    rw [Disk.set_self, hdata, List.take_left, List.append_nil]

/-- A write of some of the frame. -/
theorem JournalFile.append_steps (h : JournalFile D d q n es []) (he : NextFrame D es e) (k : Nat) :
    Steps (fun _ _ => False) d [.append (q ++ [n]) ((frameBytes D e).take k)] (JournalHolds D q n es e)
      (JournalHolds D q n es e) := by
  refine .single (.inl ⟨[], h⟩) (fun i w' hw _ => ?_) (h.append_take he k) (h.append_take he k)
  obtain rfl := Option.some.inj hw
  rw [List.take_take]
  exact h.append_take he _

theorem journalRollback_steps (h : JournalFile D d q n es []) (he : NextFrame D es e) (k : Nat)
    (F : JournalFaults) (err : Err) : ∃ ws j,
    journalRollback F (q ++ [n]) (.opened es.length) (logBytes D es).length
        ((Write.append (q ++ [n]) ((frameBytes D e).take k)).apply d) = ⟨ws, .ok j⟩ ∧
      Steps (fun _ _ => False) ((Write.append (q ++ [n]) ((frameBytes D e).take k)).apply d) ws
        (JournalHolds D q n es e) (AppendLeft D q n es e (j, some err)) := by
  have hbefore := h.append_take he k
  unfold journalRollback
  cases ht : F.truncate with
  | true => exact ⟨[], _, rfl, .nil hbefore (.unknown rfl hbefore)⟩
  | false =>
    have hback := h.retract ((frameBytes D e).take k)
    cases hr : F.reopen with
    | true =>
      exact ⟨_, _, rfl, .whole (fun _ => rfl) hbefore (.inl ⟨[], hback⟩)
        (.unknown rfl (.inl ⟨[], hback⟩))⟩
    | false =>
      exact ⟨_, _, rfl, .whole (fun _ => rfl) hbefore (.inl ⟨[], hback⟩) (.undone hback)⟩

theorem journalWrite_steps (h : JournalFile D d q n es []) (he : NextFrame D es e)
    (F : JournalFaults) (sync : Bool) : ∃ ws r,
    journalWrite F D (q ++ [n]) (.opened es.length) sync (logBytes D es).length e d = ⟨ws, .ok r⟩ ∧
      Steps (fun _ _ => False) d ws (JournalHolds D q n es e) (AppendLeft D q n es e r) := by
  unfold journalWrite
  rw [frameWrite_ok D he.ok]
  dsimp only
  cases hw : F.write with
  | some k =>
    obtain ⟨ws, j, hrun, hsteps⟩ := journalRollback_steps h he k F .io
    refine ⟨.append (q ++ [n]) ((frameBytes D e).take k) :: ws, (j, some .io), ?_, ?_⟩
    · exact Act.bind_run_run (w := [.append (q ++ [n]) ((frameBytes D e).take k)]) rfl
        ((Act.bind_run hrun).trans (by rw [Act.writes_pure, Act.result_pure, List.append_nil]))
    · exact (h.append_steps he k).append hsteps
  | none =>
    have hdone := h.append_frame he
    have hwhole : Steps (fun _ _ => False) d [.append (q ++ [n]) (frameBytes D e)]
        (JournalHolds D q n es e) (fun d' => JournalFile D d' q n (es ++ [e]) []) := by
      refine .single (.inl ⟨[], h⟩) (fun i w' hw _ => ?_) (.inr hdone) hdone
      obtain rfl := Option.some.inj hw
      exact h.append_take he i
    by_cases hs : (sync && F.sync) = true
    · refine ⟨[.append (q ++ [n]) (frameBytes D e)],
        ((JournalState.opened es.length).poison, some .io), ?_,
        hwhole.weaken (fun _ hd => hd) fun _ hd => .unknown rfl (.inr hd)⟩
      dsimp only
      rw [if_pos hs]
      rfl
    · refine ⟨[.append (q ++ [n]) (frameBytes D e)], (.opened (es.length + 1), none), ?_,
        hwhole.weaken (fun _ hd => hd) fun _ hd => .done hd⟩
      dsimp only
      rw [if_neg hs]
      rfl

/-- A replay goes on over one more operation. -/
theorem replayAll_push {s s' s'' : σ} {op : Op} {text : Bytes} (id : Uuid)
    (hs : replayAll C s 0 es = .ok s') (hop : C.decode text = .ok op)
    (ha : C.apply s' op = .ok s'') :
    replayAll C s 0 (es ++ [journalEvent C (.opened es.length) op text id]) = .ok s'' := by
  have hfields : ¬ ((journalEvent C (.opened es.length) op text id).sequence ≠ es.length + 1 ∨
      (journalEvent C (.opened es.length) op text id).kind ≠ .diagnostic ∨
      (journalEvent C (.opened es.length) op text id).pinned = true ∨
      (journalEvent C (.opened es.length) op text id).objectRef ≠ []) := by
    simp [journalEvent, JournalState.opened]
  have hat : ¬ (C.at_ op ≠ (journalEvent C (.opened es.length) op text id).at_) := not_not.2 rfl
  have hdecode : C.decode (journalEvent C (.opened es.length) op text id).text = .ok op := hop
  have hframe : replayFrame C s' (journalEvent C (.opened es.length) op text id)
      (es.length + 1) = .ok s'' := by
    rw [replayFrame, if_neg hfields, hdecode]
    dsimp only
    rw [if_neg hat, ha]
  rw [replayAll_append, hs]
  show replayAll C s' (0 + es.length) _ = _
  rw [Nat.zero_add, replayAll, hframe]
  rfl

/-- **An append that may fail**: wherever it stops, the journal holds its frames, and the new one
behind them or a cut piece of it; unless the writer is poisoned it knows whether the frame is there. -/
theorem journalAppend_steps (h : JournalFile D d q n es []) (op : Op) {text : Bytes} (id : Uuid)
    (hop : C.serialize op = .ok text) (he : text.length ≤ eventBytes →
      (logBytes D es).length + text.length + 512 ≤ eventLogBytes →
      (journalEvent C (.opened es.length) op text id).Fields)
    (F : JournalFaults) (sync : Bool) : ∃ ws r,
    journalAppend C F D (q ++ [n]) (.opened es.length) op id sync d = ⟨ws, .ok r⟩ ∧
      Steps (fun _ _ => False) d ws
        (JournalHolds D q n es (journalEvent C (.opened es.length) op text id))
        (AppendLeft D q n es (journalEvent C (.opened es.length) op text id) r) := by
  have hsame : ∀ err, Steps (fun _ _ => False) d []
      (JournalHolds D q n es (journalEvent C (.opened es.length) op text id))
      (AppendLeft D q n es (journalEvent C (.opened es.length) op text id)
        (.opened es.length, some err)) := fun err => .nil (.inl ⟨[], h⟩) (.undone h)
  unfold journalAppend
  split
  · exact ⟨[], _, rfl, hsame _⟩
  · rw [hop]
    dsimp only
    have hdata : d.data (q ++ [n]) = logBytes D es := by rw [Disk.data, h.log, List.append_nil]
    have hbytes : journalBytes (q ++ [n]) d = ⟨[], .ok (logBytes D es).length⟩ := by
      rw [journalBytes, Act.look, hdata]
    rw [Act.bind_run hbytes]
    dsimp only [applyAll_nil, List.nil_append]
    split
    · exact ⟨[], _, rfl, hsame _⟩
    · split
      · exact ⟨[], _, rfl, hsame _⟩
      · next hlimit =>
        have hlen := length_le_logBytes D es
        have hroom : (logBytes D es).length + text.length + 512 ≤ eventLogBytes := by omega
        have hnext : NextFrame D es (journalEvent C (.opened es.length) op text id) :=
          { ok := { toFields := he (by omega) hroom
                    seq_pos := Nat.succ_pos _
                    seq_lt := by
                      show es.length + 1 < 2 ^ 64
                      unfold eventLogBytes at hroom
                      omega }
            sequence := rfl
            room := hroom }
        obtain ⟨ws, r, hrun, hsteps⟩ := journalWrite_steps h hnext F sync
        refine ⟨ws, r, ?_, hsteps⟩
        rw [Act.writes, Act.result, hrun]

/-! ## A replay that is stopped -/

/-- The journal without what follows its frames. -/
theorem JournalFile.cut {t : Bytes} (h : JournalFile D d q n es t) :
    JournalFile D (d.set (q ++ [n]) (some (.file (logBytes D es)))) q n es [] where
  dir := by rw [Disk.find_set_child, h.dir]
  ok := h.ok
  torn := frameRead_nil D
  size := by
    have hsize := h.size
    rw [List.length_append] at hsize
    rw [List.append_nil]
    omega
  log := by rw [Disk.set_self, List.append_nil]

/-- Cutting a torn frame off. -/
theorem discardTail_steps {t : Bytes} (h : JournalFile D d q n es t) (s : σ) (k : Nat) : ∃ ws,
    discardTail (q ++ [n]) ⟨s, k, (logBytes D es).length, decide (t ≠ [])⟩ d = ⟨ws, .ok ()⟩ ∧
      Steps (fun _ _ => False) d ws (fun d' => ∃ t, JournalFile D d' q n es t)
        (JournalFile D · q n es []) ∧
      ∀ w ∈ ws, ∀ p ∈ w.paths, p = q ++ [n] := by
  by_cases ht : t = []
  · subst ht
    exact ⟨[], rfl, .nil ⟨[], h⟩ h, fun _ hw => absurd hw List.not_mem_nil⟩
  · have hcut : (Write.truncate (q ++ [n]) (logBytes D es).length).apply d =
        d.set (q ++ [n]) (some (.file (logBytes D es))) := by
      rw [Write.apply, Disk.data, h.log, List.take_left]
    have hshort := h.cut
    generalize hd₁ : d.set (q ++ [n]) (some (.file (logBytes D es))) = d₁ at hcut hshort
    have hempty : ∀ w : Write, w = .append (q ++ [n]) [] → JournalFile D (w.apply d₁) q n es [] := by
      rintro w rfl
      exact hshort.push (frameRead_nil D) (hshort.size)
    have htruncate := osTruncate_child (d := d) n (logBytes D es).length h.dir h.log
    have happend := osAppend_child (d := d₁) n [] hshort.dir (by rw [hshort.log]; simp)
    refine ⟨[.truncate (q ++ [n]) (logBytes D es).length] ++ [.append (q ++ [n]) []], ?_, ?_, ?_⟩
    · rw [discardTail, if_pos (decide_eq_true ht)]
      exact Act.bind_run_run htruncate (by rw [applyAll_cons, applyAll_nil, hcut]; exact happend)
    · have hwhole : Steps (fun _ _ => False) d [.truncate (q ++ [n]) (logBytes D es).length]
          (fun d' => ∃ t, JournalFile D d' q n es t) fun _ => True :=
        .whole (fun _ => rfl) ⟨t, h⟩ (hcut ▸ ⟨[], hshort⟩) trivial
      refine hwhole.append ?_
      rw [applyAll_cons, applyAll_nil, hcut]
      refine .single ⟨[], hshort⟩ (fun i w' hw' _ => ?_) ⟨[], hempty _ rfl⟩ (hempty _ rfl)
      exact ⟨[], hempty w' (by rw [← Option.some.inj hw', List.take_nil])⟩
    · intro w hw p hp
      rcases List.mem_append.1 hw with hw | hw <;> rw [List.mem_singleton.1 hw] at hp <;>
        exact List.mem_singleton.1 hp

/-- **A replay that may be stopped** leaves the frames of the journal as they are, and cuts off what
follows them when it succeeds. -/
theorem journalReplay_steps {t : Bytes} (h : JournalFile D d q n es t) (s : σ) : ∃ ws,
    journalReplay C D (q ++ [n]) s d =
        ⟨ws, (replayAll C s 0 es).map fun s => (s, es.length)⟩ ∧
      Steps (fun _ _ => False) d ws (fun d' => ∃ t, JournalFile D d' q n es t)
        (fun d' => (∃ t, JournalFile D d' q n es t) ∧
          ∀ s', replayAll C s 0 es = .ok s' → JournalFile D d' q n es []) ∧
      ∀ w ∈ ws, ∀ p ∈ w.paths, p = q ++ [n] := by
  have hx := replayFrom_logBytes C D h.torn (s := s) (g := 0) h.ok (Nat.le_refl _)
  rw [Nat.zero_add, Nat.zero_add] at hx
  rw [journalReplay_open C h.dir h.log h.size s hx]
  cases hs : replayAll C s 0 es with
  | error e =>
    exact ⟨[], rfl, .nil ⟨t, h⟩ ⟨⟨t, h⟩, nofun⟩, fun _ hw => absurd hw List.not_mem_nil⟩
  | ok s' =>
    obtain ⟨ws, hrun, hsteps, hframe⟩ := discardTail_steps h s' es.length
    refine ⟨ws, ?_, hsteps.weaken (fun _ h => h) fun _ h => ⟨⟨[], h⟩, fun _ _ => h⟩, hframe⟩
    have hlift : (Act.lift ((Except.ok s').map fun s => (⟨s, es.length, (logBytes D es).length,
        decide (t ≠ [])⟩ : Replay σ)) : Io (Replay σ)) d = ⟨[], .ok ⟨s', es.length,
          (logBytes D es).length, decide (t ≠ [])⟩⟩ := rfl
    refine (Act.bind_run hlift).trans ?_
    rw [List.nil_append, applyAll_nil, Act.writes, Act.result, Act.bind_run hrun,
      Act.writes_pure, Act.result_pure, List.append_nil]
    rfl

end

end Asper
