import Asper.Record.Proof.Failures
import Asper.Record.Proof.Opening

/-! # A store over its processes

A store is opened, called, compacted, stopped at any time and opened again, on one disk
(`LiveStep`).
`live_refines`: whatever happens, it is a store of `storeStep`, which never fails and never stops:
every call that was answered is in it, in order, and any other is in it whole or not at all. -/

namespace Asper

open Durable
open JsonEscape

/-! ## Steps -/

/-- What the library makes of the text of an operation: it is read back as the operation, and fits a
frame. -/
structure OpSent (X : XcdnText) (esc : UInt8 → Bytes) (op : Op) : Prop where
  storable : op.Storable
  at_pos : 0 < op.at_
  at_lt : op.at_ < 2 ^ 63
  reads : X.parse (X.compact (opBuildNode op)) = some [(opBuildNode op).read esc]
  noNul : 0 ∉ X.compact (opBuildNode op)
  utf8 : utf8Valid (X.compact (opBuildNode op)) = true

/-- What a compaction draws on `d`, and what the library makes of the records `rs`. -/
structure CompactSent (X : XcdnText) (esc : UInt8 → Bytes) (w : CompactNames) (t : Table)
    (d : Disk) : Prop where
  distinct : w.Distinct
  free : NamesFree w.back d
  legible : ∀ rs : List Record, rs.Sublist t.recs → Legible X esc rs

section
variable {V : Type} (S : Settings) (X : XcdnText) (D : Digest) (purgeAfter : Int)
  (esc : UInt8 → Bytes)

inductive LiveStep : LiveStore V → LiveEvent V → LiveStore V → Prop
  | apply {x x' : Ctx V} {d : Disk} {w : Draw V} {op : Op} {fromCurator : Bool} {e : Option Err}
    (hop : OpSent X esc (op.timed w.now))
    (h : (applyOp S (opText X w.now) D w x op fromCurator).result d = .ok (x', e)) :
    LiveStep (.up x d) (.apply w op fromCurator e)
      (.up x' ((applyOp S (opText X w.now) D w x op fromCurator).final d))
  | applyStopped {x : Ctx V} {d d' : Disk} {w : Draw V} {op : Op} {fromCurator : Bool}
    (hop : OpSent X esc (op.timed w.now))
    (h : Stops (applyOp S (opText X w.now) D w x op fromCurator) d d') :
    LiveStep (.up x d) (.applyStopped w op fromCurator) (.down d')
  | compact {x x' : Ctx V} {d : Disk} {F : CompactFaults} {w : CompactNames} {e : Option Err}
    (hw : CompactSent X esc w x.memory.table d)
    (h : (storeCompactLive F X D w purgeAfter x).result d = .ok (x', e)) :
    LiveStep (.up x d) (.compact F w e)
      (.up x' ((storeCompactLive F X D w purgeAfter x).final d))
  | compactStopped {x : Ctx V} {d d' : Disk} {F : CompactFaults} {w : CompactNames}
    (hw : CompactSent X esc w x.memory.table d)
    (h : Stops (storeCompactLive F X D w purgeAfter x) d d') :
    LiveStep (.up x d) (.compactStopped F w) (.down d')
  | sync {x : Ctx V} {d : Disk} {F : JournalFaults} :
    LiveStep (.up x d) (.sync F) (.up { x with journal := (journalSync F x.journal).1 } d)
  | other {x x' : Ctx V} {d d' : Disk} (hm : x'.memory = x.memory) (hj : x'.journal = x.journal)
    (h : SameNodes d d') : LiveStep (.up x d) .other (.up x' d')
  | stopped {x : Ctx V} {d : Disk} : LiveStep (.up x d) .stopped (.down d)
  | opened {x : Ctx V} {d : Disk} {w : OpenDraw} (hw : OpenSent D w d)
    (h : (storeOpenLive X D w).result d = .ok (x.memory, x.journal)) :
    LiveStep (.down d) (.opened w) (.up x ((storeOpenLive X D w).final d))
  | openStopped {d d' : Disk} {w : OpenDraw} (hw : OpenSent D w d)
    (h : Stops (storeOpenLive X D w) d d') : LiveStep (.down d) (.openStopped w) (.down d')

end

/-! ## What a run comes to -/

section
variable {V : Type}

/-- The call of an event. -/
def LiveEvent.call : LiveEvent V → Option StoreCall
  | .apply w op fromCurator _ => some (.apply (op.timed w.now) fromCurator w.id)
  | .applyStopped w op fromCurator => some (.apply (op.timed w.now) fromCurator w.id)
  | .compact _ w _ => some (.compact w.toCompactDraw)
  | .compactStopped _ w => some (.compact w.toCompactDraw)
  | .opened w => some (.reopen w.now)
  | _ => none

/-- The event is a call that was answered without an error. -/
def LiveEvent.Answered : LiveEvent V → Prop
  | .apply _ _ _ e => e = none
  | .compact _ _ e => e = none
  | .opened _ => True
  | _ => False

/-- The calls `cs` account for the events: all calls that were answered without an error are among
them, in order, and the others are calls that failed or were stopped. -/
inductive Accounts : List (LiveEvent V) → List StoreCall → Prop
  | nil : Accounts [] []
  | took {ls : List (LiveEvent V)} {cs : List StoreCall} {e : LiveEvent V} {c : StoreCall}
    (h : Accounts ls cs) (hc : e.call = some c) : Accounts (ls ++ [e]) (cs ++ [c])
  | left {ls : List (LiveEvent V)} {cs : List StoreCall} {e : LiveEvent V} (h : Accounts ls cs)
    (hn : ¬ e.Answered) : Accounts (ls ++ [e]) cs

/-- The store `s` is what runs, or what opening the disk gives. -/
inductive LiveRelates (D : Digest) (s : StoreState) : LiveStore V → Prop
  | up {x : Ctx V} {d : Disk} (hm : x.memory = s.memory) (hj : x.journal = .opened s.journal.length)
    (h : Healthy D s d) : LiveRelates D s (.up x d)
  | poisoned {x : Ctx V} {d : Disk} (hp : x.journal.poisoned = true) (h : Rests D s d) :
    LiveRelates D s (.up x d)
  | down {d : Disk} (h : Rests D s d) : LiveRelates D s (.down d)

end

/-! ## Calls -/

section
variable {V : Type} {S : Settings} {X : XcdnText} {D : Digest} {purgeAfter : Int}
  {esc : UInt8 → Bytes} {x x' : Ctx V} {d d' : Disk} {w : Draw V} {op : Op} {fromCurator : Bool}
  {s : StoreState}

theorem OpSent.writable (hesc : ∀ b, b < 0x20 ∨ b = 34 → Escape b.toNat (esc b))
    (h : OpSent X esc op) : OpWritable X op where
  reads := opParse_build hesc h.storable h.reads
  noNul := h.noNul
  utf8 := h.utf8
  at_ge := (show (-2 ^ 63 : Int) ≤ 0 by decide).trans h.at_pos.le
  at_lt := h.at_lt

section
variable {σ Op : Type} {C : OpCodec σ Op} {I : Disk → Prop} {Bad : Write → Write → Prop} {p : Path}

theorem keeps_journalRollback {F : JournalFaults} {j : JournalState} {offset : Nat}
    (h : Act.Stable I p) : Act.Keeps Bad I (journalRollback F p j offset) fun _ => True := by
  have hemit : Act.Keeps Bad I (Act.emit (.truncate p offset) : Io Unit) fun _ => True :=
    .emit fun q hq => List.mem_singleton.1 hq ▸ h
  exact .ite (fun _ => .pure trivial) fun _ => hemit.bind fun _ _ => .pure trivial

/-- An append touches the journal only. -/
theorem keeps_journalAppend {F : JournalFaults} {j : JournalState} {op : Op} {id : Uuid}
    {sync : Bool} (h : Act.Stable I p) :
    Act.Keeps Bad I (journalAppend C F D p j op id sync) fun _ => True := by
  have hemit : ∀ b, Act.Keeps Bad I (Act.emit (.append p b) : Io Unit) fun _ => True := fun b =>
    .emit fun q hq => List.mem_singleton.1 hq ▸ h
  unfold journalAppend
  refine .ite (fun _ => .pure trivial) fun _ => ?_
  split
  · exact .pure trivial
  · refine (Act.silent_look _).keeps.bind fun offset _ => .ite (fun _ => .pure trivial) fun _ =>
      .ite (fun _ => .pure trivial) fun _ => ?_
    unfold journalWrite
    split
    · exact (keeps_journalRollback h).bind fun _ _ => .pure trivial
    · split
      · exact (hemit _).bind fun _ _ => (keeps_journalRollback h).bind fun _ _ => .pure trivial
      · exact (hemit _).bind fun _ _ => .pure trivial

end

theorem keeps_applyOp {I : Disk → Prop} {Bad : Write → Write → Prop} {T : OpText}
    (h : Act.Stable I journalFile) :
    Act.Keeps Bad I (applyOp S T D w x op fromCurator) fun _ => True := by
  unfold applyOp
  split
  · exact .pure trivial
  · unfold applyValid
    refine (keeps_journalAppend h).bind fun r _ => ?_
    obtain ⟨j, e⟩ := r
    cases e with
    | some e => exact .pure trivial
    | none =>
      dsimp only
      split <;> exact .pure trivial

/-- The store `s`, or the store after the call `c`. -/
def CallTook (S : Settings) (X : XcdnText) (D : Digest) (purgeAfter : Int) (esc : UInt8 → Bytes)
    (c : StoreCall) (s : StoreState) (R : StoreState → Prop) : Prop :=
  R s ∨ ∃ s', StoreKept S X D purgeAfter esc s c s' ∧ R s'

/-- How a call of a running store ends. -/
def CallEnd (S : Settings) (X : XcdnText) (D : Digest) (purgeAfter : Int) (esc : UInt8 → Bytes)
    (c : StoreCall) (s : StoreState) (r : Except Err (Ctx V × Option Err)) (d : Disk) : Prop :=
  ∃ x e, r = .ok (x, e) ∧
    ((∃ s', StoreKept S X D purgeAfter esc s c s' ∧ LiveRelates D s' (.up x d)) ∨
      (e ≠ none ∧ LiveRelates D s (.up x d)))

theorem callFrame_eq :
    callFrame X w s.journal.length op = s.frame X (op.timed w.now) w.id := by
  unfold callFrame journaled StoreState.frame
  rfl

theorem applied_kept (hop : OpSent X esc (op.timed w.now)) {t : Option Record} {m : Memory}
    (hv : applyValidate S s.memory fromCurator op.kind = .ok t)
    (ha : storeApply s.memory (op.timed w.now) = .ok m) :
    StoreKept S X D purgeAfter esc s (.apply (op.timed w.now) fromCurator w.id)
      ⟨m, s.files, s.journal ++ [s.frame X (op.timed w.now) w.id]⟩ := by
  refine ⟨⟨hop.storable, hop.at_pos, hop.reads⟩, ?_⟩
  rw [← Op.timed_kind op w.now] at hv
  show (applyValidate S s.memory fromCurator (op.timed w.now).kind >>= fun _ => _) = _
  rw [hv]
  show (storeApply s.memory (op.timed w.now) >>= fun _ => _) = _
  rw [ha]
  rfl

/-- **An operation of a running store** is in the store that it leaves, or is not. -/
theorem wp_apply (hesc : ∀ b, b < 0x20 ∨ b = 34 → Escape b.toNat (esc b))
    (hop : OpSent X esc (op.timed w.now)) (h : LiveRelates D s (.up x d)) :
    Act.Wp (fun d' => CallTook S X D purgeAfter esc (.apply (op.timed w.now) fromCurator w.id) s
        fun s' => Rests D s' d')
      (applyOp S (opText X w.now) D w x op fromCurator)
      (CallEnd S X D purgeAfter esc (.apply (op.timed w.now) fromCurator w.id) s) d := by
  cases h with
  | poisoned hp h =>
    exact .of_quiet (applyOp_poisoned hp) (.inl h) ⟨x, _, rfl, .inr ⟨nofun, .poisoned hp h⟩⟩
  | up hm hj h =>
    have hrest : Rests D s d := .settled (.kept h.kept)
    rcases applyOp_left S fromCurator h.journal hj (hop.writable hesc) with
      ⟨err, hrun⟩ | ⟨⟨t, hv⟩, ⟨m, ha⟩, ws, r, hrun, hsteps⟩
    · exact .of_quiet hrun (.inl hrest) ⟨x, _, rfl, .inr ⟨nofun, .up hm hj h⟩⟩
    · rw [hm] at hv ha
      have hkept : StoreKept S X D purgeAfter esc s
          (.apply (op.timed w.now) fromCurator w.id) _ := applied_kept hop hv ha
      rw [callFrame_eq] at hsteps
      have hholds : ∀ d', JournalHolds D [] journalName s.journal
          (s.frame X (op.timed w.now) w.id) d' → FilesKept s.files d' →
          CallTook S X D purgeAfter esc (.apply (op.timed w.now) fromCurator w.id) s
            fun s' => Rests D s' d' := by
        rintro d' (⟨t, hf⟩ | hf) hfiles
        · exact .inl (.settled (.kept ⟨hfiles, .frames hf⟩))
        · exact .inr ⟨_, hkept, .settled (.kept ⟨hfiles, .frames hf⟩)⟩
      have hframe : Act.Wp (FilesKept s.files)
          (applyOp S (opText X w.now) D w x op fromCurator) _ d :=
        (keeps_applyOp FilesKept.journal).wp h.files
      have hleft := Act.Wp.of_run (Q := fun r' d' => ∃ r, r' = .ok r ∧
          OpLeft D s.journal (s.frame X (op.timed w.now) w.id) x (op.timed w.now) r d') hrun
        (hsteps.weaken (fun _ h => h) fun _ h => ⟨r, rfl, h⟩)
      refine (hleft.and hframe).weaken (fun d' hd => hholds d' hd.1 hd.2) ?_
      rintro _ d' ⟨⟨r, rfl, hend⟩, hfiles, -⟩
      cases hend with
      | @done x' _ ha' hj' hf =>
        rw [hm, ha] at ha'
        refine ⟨x', none, rfl, .inl ⟨_, hkept, .up (Except.ok.inj ha').symm ?_ ⟨hfiles, hf⟩⟩⟩
        rw [hj', List.length_append]
        rfl
      | @refused x' _ err hm' hj' hf =>
        exact ⟨x', _, rfl, .inr ⟨nofun, .up (hm'.trans hm) hj' ⟨hfiles, hf⟩⟩⟩
      | @unknown x' _ err _ hp hh =>
        refine ⟨x', _, rfl, ?_⟩
        rcases hholds d' hh hfiles with hr | ⟨s', hk, hr⟩
        · exact .inr ⟨nofun, .poisoned hp hr⟩
        · exact .inl ⟨s', hk, .poisoned hp hr⟩

/-! ## Compactions -/

theorem registerAll_known {p : Projects} {rs : List Record}
    (h : ∀ r ∈ rs, ∀ slug, r.project = some slug → slug ∈ p.slugs) :
    registerAll p rs = (p, none) := by
  induction rs with
  | nil => rfl
  | cons r rs ih =>
    have hfirst : registerRecord p r = .ok p := by
      have hone : [r].foldlM registerRecord p = .ok p := registerRecords_known
        fun r' hr' => h r' (by simp [List.mem_singleton.1 hr'])
      rw [List.foldlM_cons] at hone
      obtain ⟨q, hq, hlast⟩ := except_bind_ok hone
      rw [hq, Except.ok.inj hlast]
    rw [registerAll, hfirst]
    exact ih fun r' hr' => h r' (List.mem_cons_of_mem _ hr')

theorem logged_nil {m : Memory} {files : SectionFiles}
    (h : FilesStored (storedFile files (some [])) d) : Healthy D ⟨m, files, []⟩ d := by
  obtain ⟨hfiles, hj⟩ := stored_iff.1 h
  exact ⟨hfiles, rfl, trivial, frameRead_nil D, Nat.zero_le _, hj⟩

/-- **A compaction of a running store** is in the store that it leaves, or is not. -/
theorem wp_compact {F : CompactFaults} {w : CompactNames} (hs : Restorable X D s)
    (hw : CompactSent X esc w x.memory.table d) (h : LiveRelates D s (.up x d)) :
    Act.Wp
      (fun d' => CallTook S X D purgeAfter esc (.compact w.toCompactDraw) s fun s' => Rests D s' d')
      (storeCompactLive F X D w purgeAfter x)
      (CallEnd S X D purgeAfter esc (.compact w.toCompactDraw) s) d := by
  cases h with
  | poisoned hp h =>
    have hgate : compactGate x = some .io := if_pos hp
    have hrun : storeCompactLive F X D w purgeAfter x d = ⟨[], .ok (x, some .io)⟩ := by
      unfold storeCompactLive
      rw [hgate]
      rfl
    exact .of_quiet hrun (.inl h) ⟨x, _, rfl, .inr ⟨nofun, .poisoned hp h⟩⟩
  | up hm hj h =>
    have hkept : ∀ {m : Memory} {files : SectionFiles},
        storeCompact X D w.toCompactDraw purgeAfter x.memory s.files = .ok (m, files) →
        StoreKept S X D purgeAfter esc s (.compact w.toCompactDraw) ⟨m, files, []⟩ := by
      intro m files hc
      refine ⟨fun rs hrs => hw.legible rs (hm ▸ hrs), ?_⟩
      rw [hm] at hc
      show (storeCompact X D w.toCompactDraw purgeAfter s.memory s.files >>= fun _ => _) = _
      rw [hc]
      rfl
    have hrests : ∀ d',
        Compacting D d (CompactedFiles X D w.toCompactDraw purgeAfter x.memory s.files) d' →
        CallTook S X D purgeAfter esc (.compact w.toCompactDraw) s fun s' => Rests D s' d' := by
      intro d' hd
      cases hd with
      | intact hi => exact .inl (.settled (.kept (h.kept.intact hi)))
      | armed ha => exact .inl (.settled (.armed h.kept ha))
      | done hg hst =>
        obtain ⟨m', files', hc, rfl⟩ := hg
        exact .inr ⟨_, hkept hc, .settled (.kept (logged_nil hst).kept)⟩
    have hlive : Act.Wp _ (storeCompactLive F X D w purgeAfter x) _ d :=
      wp_storeCompactLive hw.distinct h.stored hw.free
    refine hlive.weaken hrests fun r d' hend => ?_
    cases hend with
    | @failed x' e _ ht hp hj' hi =>
      rw [hm] at ht hp
      rw [registerAll_known hs.registered, or_self] at hp
      have hj' : x'.journal = x.journal := hj' (by rw [hj]; rfl)
      exact ⟨x', some e, rfl, .inr ⟨nofun, .up (congr (congrArg Memory.mk ht) hp)
        (hj'.trans hj) (h.intact hi)⟩⟩
    | @unknown x' e _ _ hp hd =>
      refine ⟨x', some e, rfl, ?_⟩
      rcases hrests d' hd with hr | ⟨s', hk, hr⟩
      · exact .inr ⟨nofun, .poisoned hp hr⟩
      · exact .inl ⟨s', hk, .poisoned hp hr⟩
    | @done x' files' _ hj' hc hst =>
      exact ⟨x', F.manifest, rfl, .inl ⟨_, hkept hc, .up rfl hj' (logged_nil hst)⟩⟩

end

/-! ## A store with one record -/

theorem sampleInsert_text : sampleText.compact (opBuildNode sampleInsert) = sampleInsertText :=
  if_pos rfl

theorem sampleInsertText_plain :
    sampleInsertText.length ≤ 1000 ∧ ∀ b ∈ sampleInsertText, b ≠ 0 ∧ b < 0x80 := by
  decide +kernel

theorem sampleInsert_sent : OpSent sampleText jsonEscape sampleInsert where
  storable := sampleInsert_storable
  at_pos := by decide
  at_lt := by decide
  reads := sampleText_insert
  noNul := by
    rw [sampleInsert_text]
    exact fun h => (sampleInsertText_plain.2 0 h).1 rfl
  utf8 := by
    rw [sampleInsert_text]
    exact utf8Valid_ascii fun b hb => (sampleInsertText_plain.2 b hb).2

def insertDraw : Draw Unit := ⟨2000000000, sampleFrame, none, .none, false, false⟩

def blankDraw : OpenDraw := ⟨0, fun _ => uuidV4 fun _ => 0, none, []⟩

theorem blankDisk_opened : ∃ d, Healthy sumDigest .empty d ∧
    LiveStep sampleSettings sampleText sumDigest 0 jsonEscape (.down blankDisk) (.opened blankDraw)
      (.up bareCtx d) := by
  have hw : OpenSent sumDigest blankDraw blankDisk := blankDisk_sent 0
  have hend := (wp_storeOpenLive (X := sampleText) (.unborn rfl blankDisk_unborn) hw.free
    hw.listed).final
  change OpenEnd _ _ _ _ _ _
    ((storeOpenLive sampleText sumDigest blankDraw).final blankDisk) at hend
  generalize hr : (storeOpenLive sampleText sumDigest blankDraw).result blankDisk = r at hend
  cases hend with
  | @opened _ m hm hd =>
    obtain rfl := Except.ok.inj ((storeOpen_empty _ _ _).symm.trans hm)
    exact ⟨_, hd, .opened hw hr⟩
  | failed he _ =>
    rcases he with he | he | he
    · exact absurd rfl he
    · exact absurd (.inl rfl) he
    · exact nomatch (storeOpen_empty _ _ _).symm.trans he

theorem bareCtx_inserted {d : Disk} (h : Healthy sumDigest .empty d) : ∃ x d',
    LiveStep sampleSettings sampleText sumDigest 0 jsonEscape (.up bareCtx d)
      (.apply insertDraw sampleInsert false none) (.up x d') := by
  have htimed : sampleInsert.timed insertDraw.now = sampleInsert := if_neg (by decide)
  have hsent : OpSent sampleText jsonEscape (sampleInsert.timed insertDraw.now) :=
    htimed.symm ▸ sampleInsert_sent
  have hlen : (sampleText.compact (opBuildNode (sampleInsert.timed insertDraw.now))).length ≤
      1000 := by
    rw [htimed, sampleInsert_text]
    exact sampleInsertText_plain.1
  have hlimits : 1000 ≤ eventBytes ∧ 1000 + 512 ≤ eventLogBytes := by decide
  have hroom : (logBytes sumDigest []).length +
      (sampleText.compact (opBuildNode (sampleInsert.timed insertDraw.now))).length + 512 ≤
        eventLogBytes := by
    rw [logBytes_nil, List.length_nil, Nat.zero_add]
    exact (Nat.add_le_add_right hlen 512).trans hlimits.2
  have hv : applyValidate sampleSettings bareCtx.memory false sampleInsert.kind = .ok none := by
    have hi : insertValidate sampleSettings .empty sampleRecord = .ok () := by decide +kernel
    unfold applyValidate sampleInsert
    dsimp only
    rw [show bareCtx.memory = .empty from rfl, hi]
    rfl
  have hfields := (hsent.writable jsonEscape_escape).fields 0 (hlen.trans hlimits.1)
  obtain ⟨ws, hrun, -⟩ := applyOp_run (T := opText sampleText insertDraw.now) (w := insertDraw)
    (x := bareCtx) h.journal rfl rfl rfl rfl hv rfl hfields hroom (htimed.symm ▸ sampleInsert_apply)
  exact ⟨_, _, .apply hsent (congrArg Outcome.result hrun)⟩

/-! ## A run -/

section
variable {V : Type} {S : Settings} {X : XcdnText} {D : Digest} {purgeAfter : Int}
  {esc : UInt8 → Bytes} {s : StoreState}

/-- An event, and what it comes to: its call was made, or it was not answered. -/
theorem LiveStep.simulates (hesc : ∀ b, b < 0x20 ∨ b = 34 → Escape b.toNat (esc b))
    {st st' : LiveStore V} {e : LiveEvent V} (hs : Restorable X D s) (hr : LiveRelates D s st)
    (h : LiveStep S X D purgeAfter esc st e st') :
    (∃ c s', e.call = some c ∧ StoreKept S X D purgeAfter esc s c s' ∧ LiveRelates D s' st') ∨
      (¬ e.Answered ∧ LiveRelates D s st') := by
  cases h with
  | @apply x x' d w op fromCurator e hop hres =>
    have hcall : Act.Wp _ (applyOp S (opText X w.now) D w x op fromCurator)
        (CallEnd S X D purgeAfter esc _ s) d := wp_apply hesc hop hr
    obtain ⟨x₁, e₁, hr₁, hend⟩ := hcall.final
    obtain ⟨rfl, rfl⟩ := Prod.mk.inj (Except.ok.inj (hr₁.symm.trans hres))
    rcases hend with ⟨s', hk, hrel⟩ | ⟨hne, hrel⟩
    · exact .inl ⟨_, s', rfl, hk, hrel⟩
    · exact .inr ⟨hne, hrel⟩
  | @applyStopped x d d' w op fromCurator hop hstop =>
    obtain ⟨t, hc⟩ := hstop
    have hcall : Act.Wp _ (applyOp S (opText X w.now) D w x op fromCurator)
        (CallEnd S X D purgeAfter esc _ s) d := wp_apply hesc hop hr
    rcases hcall.crash hc fun _ _ _ hf => hf with hd | ⟨s', hk, hd⟩
    · exact .inr ⟨nofun, .down hd⟩
    · exact .inl ⟨_, s', rfl, hk, .down hd⟩
  | @compact x x' d F w e hw hres =>
    have hcall : Act.Wp _ (storeCompactLive F X D w purgeAfter x)
        (CallEnd S X D purgeAfter esc _ s) d := wp_compact hs hw hr
    obtain ⟨x₁, e₁, hr₁, hend⟩ := hcall.final
    obtain ⟨rfl, rfl⟩ := Prod.mk.inj (Except.ok.inj (hr₁.symm.trans hres))
    rcases hend with ⟨s', hk, hrel⟩ | ⟨hne, hrel⟩
    · exact .inl ⟨_, s', rfl, hk, hrel⟩
    · exact .inr ⟨hne, hrel⟩
  | @compactStopped x d d' F w hw hstop =>
    obtain ⟨t, hc⟩ := hstop
    have hcall : Act.Wp _ (storeCompactLive F X D w purgeAfter x)
        (CallEnd S X D purgeAfter esc _ s) d := wp_compact hs hw hr
    rcases hcall.crash hc fun _ _ _ hf => hf with hd | ⟨s', hk, hd⟩
    · exact .inr ⟨nofun, .down hd⟩
    · exact .inl ⟨_, s', rfl, hk, .down hd⟩
  | @sync x d F =>
    refine .inr ⟨nofun, ?_⟩
    unfold journalSync
    cases hr with
    | poisoned hp hd =>
      rw [if_pos (.inl hp)]
      exact .poisoned rfl hd
    | up hm hj hd =>
      split
      · exact .poisoned rfl (.settled (.kept hd.kept))
      · exact .up hm hj hd
  | other hm hj hsame =>
    refine .inr ⟨nofun, ?_⟩
    cases hr with
    | poisoned hp hd => exact .poisoned (hj ▸ hp) (hd.congr hsame)
    | up hm' hj' hd => exact .up (hm.trans hm') (hj.trans hj') (hd.congr hsame)
  | stopped =>
    refine .inr ⟨nofun, .down ?_⟩
    cases hr with
    | poisoned _ hd => exact hd
    | up _ _ hd => exact .settled (.kept hd.kept)
  | @opened x d w hw hres =>
    cases hr with
    | down hd =>
      have hend := (wp_storeOpenLive (X := X) hd hw.free hw.listed).final
      change OpenEnd X D w s d _ ((storeOpenLive X D w).final d) at hend
      rw [hres] at hend
      generalize hm' : x.memory = m at hend
      generalize hj' : x.journal = j at hend
      cases hend with
      | opened hm hh =>
        refine .inl ⟨_, { s with memory := m }, rfl, ⟨trivial, ?_⟩,
          .up hm' hj' ⟨hh.files, hh.journal⟩⟩
        show (storeOpen X D w.now s.files s.journal >>= fun _ => _) = _
        rw [hm]
        rfl
  | @openStopped d d' w hw hstop =>
    obtain ⟨t, hc⟩ := hstop
    cases hr with
    | down hd =>
      exact .inr ⟨nofun, .down ((wp_storeOpenLive (X := X) hd hw.free hw.listed).crash hc
        fun _ _ _ hf => hf)⟩

/-- **Whatever happens to a store**, it is a store on which some calls were made, one after the
other, without failures: those that were answered, and of the others each whole or not at all.
Where the process stopped, the store can be opened again, and is that store. -/
theorem live_refines (hesc : ∀ b, b < 0x20 ∨ b = 34 → Escape b.toNat (esc b)) {d₀ : Disk}
    (h₀ : Unborn d₀) {ls : List (LiveEvent V)} {st : LiveStore V}
    (h : Durable.Runs (LiveStep S X D purgeAfter esc) (.down d₀) ls st) :
    ∃ cs s, Durable.Runs (StoreKept S X D purgeAfter esc) .empty cs s ∧ Accounts ls cs ∧
      LiveRelates D s st ∧ ∀ d w, st = .down d → OpenSent D w d → w.manifest = none →
        DirOk d cacheDir → ∃ m, (storeOpenLive X D w).result d =
          .ok (m, .opened s.journal.length) ∧ m.Same s.memory := by
  obtain ⟨cs, s, hruns, hacc, hrel⟩ := h.inv (I := fun ls st => ∃ cs s,
      Durable.Runs (StoreKept S X D purgeAfter esc) .empty cs s ∧ Accounts ls cs ∧
        LiveRelates D s st)
    ⟨[], .empty, .nil, .nil, .down (.unborn rfl h₀)⟩ (by
      rintro ls st e st' ⟨cs, s, hruns, hacc, hrel⟩ hstep
      rcases hstep.simulates hesc (Restorable.run hesc hruns) hrel with
        ⟨c, s', hc, hk, hrel'⟩ | ⟨hn, hrel'⟩
      · exact ⟨cs ++ [c], s', .snoc hruns hk, .took hacc hc, hrel'⟩
      · exact ⟨cs, s, hruns, .left hacc hn, hrel'⟩)
  refine ⟨cs, s, hruns, hacc, hrel, ?_⟩
  rintro d w rfl hw hmanifest hcache
  cases hrel with
  | down hd =>
    obtain ⟨m, hm, hsame⟩ := (Restorable.run hesc hruns).reload w.now
    have hend := (wp_storeOpenLive (X := X) hd hw.free hw.listed).final
    generalize (storeOpenLive X D w).result d = r at hend ⊢
    cases hend with
    | opened hm' _ =>
      obtain rfl := Except.ok.inj (hm.symm.trans hm')
      exact ⟨m, rfl, hsame⟩
    | failed he _ =>
      rcases he with he | he | he
      · exact absurd hmanifest he
      · exact absurd hcache he
      · rw [hm] at he
        cases he

end

theorem live_refines_sample : ∃ (d : Disk) (cs : List StoreCall) (s : StoreState),
    Durable.Runs (StoreKept sampleSettings sampleText sumDigest 0 jsonEscape) .empty cs s ∧
      Accounts [.opened blankDraw, .apply insertDraw sampleInsert false none, .stopped] cs ∧
      LiveRelates sumDigest s (.down d : LiveStore Unit) := by
  obtain ⟨d, hd, hopen⟩ := blankDisk_opened
  obtain ⟨x, d', hcall⟩ := bareCtx_inserted hd
  have hruns : Durable.Runs (LiveStep sampleSettings sampleText sumDigest 0 jsonEscape)
      (.down blankDisk) ([] ++ [.opened blankDraw] ++
        [.apply insertDraw sampleInsert false none] ++ [.stopped]) (.down d') :=
    ((Durable.Runs.nil.snoc hopen).snoc hcall).snoc .stopped
  obtain ⟨cs, s, hkept, hacc, hrel, -⟩ := live_refines jsonEscape_escape blankDisk_unborn hruns
  exact ⟨d', cs, s, hkept, hacc, hrel⟩

end Asper
