import PersistX.Aries.Runs
import PersistX.Page.Laws

/-!
# PersistX — checkpoints and stable storage

`DiskManager::write_page` hands a page to the file; what is on stable storage
changes with `DiskManager::flush()`, the fsync, and with nothing else. A crash
may lose any of the page writes since. `checkpoint()` writes the dirty pages
and syncs the log, but it does not sync the page file: from CHECKPOINT_END on,
recovery takes pages for written that a crash can still lose.

Main results: `kept_checkpoint_recovers`, for the runs in which no crash
takes back a page write that a completed checkpoint counts on, and
`checkpoint_without_sync`, a run in which one does.
-/

namespace PersistX

open PageOps LawfulPageOps Transition

variable {P : Type}

-- ---------------------------------------------------------------------------
-- Model
-- ---------------------------------------------------------------------------

/-- Of the images written for a page, newest first, those that can be left if
none of the oldest `n` writes is lost. -/
def Survives [PageOps P] (images : List P) (n : Nat) (x : P) : Prop :=
  x ∈ images.take (images.length - n) ∨ x = (images.drop (images.length - n)).headD zero

/-- How many images were written for a page. -/
def BufferManager.written (bm : BufferManager P) (p : Nat) : Nat := (bm.images p).length

/-- The storage system on a device that loses unsynced writes. -/
structure Storage (P : Type) where
  sys : Sys P
  /-- For each page, its writes up to the last `DiskManager::flush()`. -/
  synced : Nat → Nat
  /-- For each page, its writes up to the return of the last `checkpoint()`. -/
  checkpointed : Nat → Nat

/-- An empty log and an empty page file. -/
def Storage.init : Storage P := ⟨Sys.init, fun _ => 0, fun _ => 0⟩

/-- A piece of work of the managers, or `DiskManager::flush()`. -/
inductive StorageEvent (P : Type) where
  | sys (e : Event P)
  | diskFlush

section Model

variable [PageOps P]

/-- What the code does; `none` where it would not be there to do it. What a
crash leaves of the page file is on stable storage. -/
def storageStep (s : Storage P) : StorageEvent P → Option (Storage P)
  | .diskFlush => some { s with synced := s.sys.bm.written }
  | .sys (.crash choice) =>
    some { s with sys := s.sys.crash choice, synced := (s.sys.crash choice).bm.written }
  | .sys .ckptFinish =>
    (step s.sys .ckptFinish).map fun sys => { s with sys, checkpointed := sys.bm.written }
  | .sys e => (step s.sys e).map fun sys => { s with sys }

/-- The protocol of the clients; a crash leaves each page as stable storage
has it or as one of the unsynced writes made it. -/
def StorageProtocol (s : Storage P) : StorageEvent P → Prop
  | .diskFlush => True
  | .sys (.crash choice) => ∀ p, Survives (s.sys.bm.images p) (s.synced p) (choice p)
  | .sys e => Protocol s.sys e

/-- What an undo step forces into its slot has room on the page. -/
def StorageRoom (s : Storage P) : StorageEvent P → Prop
  | .diskFlush => True
  | .sys e => UndoRoom s.sys e

/-- A crash takes back no page write that was made before the last completed
checkpoint returned, and does not come in the middle of another checkpoint
whose CHECKPOINT_END is in the log file already. -/
def CheckpointKept (s : Storage P) : StorageEvent P → Prop
  | .sys (.crash choice) =>
    (∀ e forced, s.sys.ckpt = .writing e forced → s.sys.lm.file.length ≤ e) ∧
    ∀ p, Survives (s.sys.bm.images p) (s.checkpointed p) (choice p)
  | _ => True

/-- A step of a run whose checkpoints are kept. -/
def Kept (s : Storage P) (e : StorageEvent P) : Prop :=
  StorageProtocol s e ∧ StorageRoom s e ∧ CheckpointKept s e

end Model

-- ---------------------------------------------------------------------------
-- Images
-- ---------------------------------------------------------------------------

section Images

variable [PageOps P]

theorem Survives.mem {images : List P} {n : Nat} {x : P} (h : Survives images n x) :
    x ∈ images ∨ x = zero := by
  rcases h with h | h
  · exact Or.inl (List.mem_of_mem_take h)
  · cases hd : images.drop (images.length - n) with
    | nil =>
      rw [hd] at h
      exact Or.inr h
    | cons y l =>
      rw [hd] at h
      refine Or.inl (List.mem_of_mem_drop (i := images.length - n) ?_)
      rw [hd, h]
      exact List.mem_cons_self

/-- One more write is one more image that can be left. -/
theorem survives_cons {images : List P} {n : Nat} {x y : P} (hn : n ≤ images.length) :
    Survives (y :: images) n x ↔ x = y ∨ Survives images n x := by
  rw [Survives, List.length_cons, Nat.succ_sub hn, List.take_succ_cons, List.drop_succ_cons,
    List.mem_cons, or_assoc]
  rfl

/-- The last write can be left. -/
theorem survives_readPage (bm : BufferManager P) (n p : Nat) :
    Survives (bm.images p) n (bm.readPage p) := by
  rw [BufferManager.readPage]
  cases hi : bm.images p with
  | nil =>
    rw [Survives, List.drop_nil]
    exact Or.inr rfl
  | cons y l =>
    rcases Nat.lt_or_ge l.length n with hlt | hle
    · refine Or.inr ?_
      rw [List.length_cons, Nat.sub_eq_zero_of_le hlt]
      rfl
    · exact (survives_cons hle).mpr (Or.inl rfl)

/-- With all writes kept, the last one is left. -/
theorem survives_written {bm : BufferManager P} {p : Nat} {x : P}
    (h : Survives (bm.images p) (bm.written p) x) : x = bm.readPage p := by
  rw [Survives, BufferManager.written, Nat.sub_self, List.take_zero, List.drop_zero] at h
  exact h.resolve_left List.not_mem_nil

/-- With no write synced, the page can still be zeros. -/
theorem survives_zero (images : List P) : Survives images 0 (zero : P) := by
  rw [Survives, Nat.sub_zero, List.drop_length]
  exact Or.inr rfl

/-- The fewer writes are lost, the fewer images can be left. -/
theorem Survives.of_le {images : List P} {n m : Nat} {x : P} (h : Survives images m x)
    (hle : n ≤ m) (hm : m ≤ images.length) : Survives images n x := by
  induction images with
  | nil =>
    obtain rfl : m = 0 := by simpa using hm
    obtain rfl : n = 0 := by omega
    exact h
  | cons y l ih =>
    rcases Nat.lt_or_ge l.length m with hlt | hge
    · -- nothing is lost: `y` is left
      have hy : x = y := by
        rcases h with h | h
        · rw [List.length_cons, Nat.sub_eq_zero_of_le hlt, List.take_zero] at h
          exact absurd h List.not_mem_nil
        · rw [List.length_cons, Nat.sub_eq_zero_of_le hlt] at h
          exact h
      rcases Nat.lt_or_ge l.length n with hn | hn
      · have hnm : n = m := by
          rw [List.length_cons] at hm
          omega
        rw [hnm]
        exact h
      · exact (survives_cons hn).mpr (Or.inl hy)
    · rcases (survives_cons hge).mp h with hy | h
      · exact (survives_cons (Nat.le_trans hle hge)).mpr (Or.inl hy)
      · exact (survives_cons (Nat.le_trans hle hge)).mpr (Or.inr (ih h hge))

/-- Each page was written at most once more, with an image that is not older. -/
def Wrote (bm bm' : BufferManager P) : Prop :=
  ∀ p, bm'.images p = bm.images p ∨
    ∃ x, bm'.images p = x :: bm.images p ∧ pageLsn (bm.readPage p) ≤ pageLsn x

theorem Wrote.of_eq {bm bm' : BufferManager P} (h : bm'.images = bm.images) : Wrote bm bm' :=
  fun p => Or.inl (by rw [h])

theorem images_modify (bm : BufferManager P) (p : Nat) (x : P) (d : Bool) :
    ((bm.fetchPage p).1.unpinPage p x d).images = bm.images := by
  rw [BufferManager.modify_eq]

theorem images_redoOne (dpt : Table) (bm : BufferManager P) (r : Record) :
    (Sys.redoOne dpt bm r).images = bm.images := by
  rw [Sys.redoOne]
  split
  · rfl
  · split
    · rfl
    · split
      · rfl
      · split
        · rfl
        · simp only
          split
          · exact images_modify _ _ _ _
          · exact images_modify _ _ _ _

theorem images_undoOne (s : Sys P) (toUndo : Finset Nat) (att : Table) (lsn : Nat) :
    (s.undoOne toUndo att lsn).bm.images = s.bm.images := by
  rw [Sys.undoOne]
  simp only [LogManager.readRecordAtLsn]
  split
  · rfl
  · split
    · exact images_modify _ _ _ _
    · rfl
    · rfl
    · rfl
    · rfl

theorem images_abortStep {s s' : Sys P} {t : Nat} (hs : s.abortStep t = some s') :
    s'.bm.images = s.bm.images ∧ s'.ckpt = s.ckpt := by
  rw [Sys.abortStep] at hs
  split at hs
  · simp only [LogManager.readRecordAtLsn] at hs
    split at hs
    · obtain rfl := Option.some.inj hs
      exact ⟨rfl, rfl⟩
    · split at hs
      · obtain rfl := Option.some.inj hs
        exact ⟨rfl, rfl⟩
      · obtain rfl := Option.some.inj hs
        exact ⟨images_modify _ _ _ _, rfl⟩
      · obtain rfl := Option.some.inj hs
        exact ⟨rfl, rfl⟩
      · obtain rfl := Option.some.inj hs
        exact ⟨rfl, rfl⟩
  · obtain rfl := Option.some.inj hs
    exact ⟨rfl, rfl⟩
  · cases hs

theorem ckpt_undoOne (s : Sys P) (toUndo : Finset Nat) (att : Table) (lsn : Nat) :
    (s.undoOne toUndo att lsn).ckpt = s.ckpt := by
  rw [Sys.undoOne]
  simp only [LogManager.readRecordAtLsn]
  split
  · rfl
  · split <;> rfl

end Images

section Steps

variable [LawfulPageOps P]

/-- The write of a frame is not older than what is on disk. -/
theorem DiskInv.wrote {log : List Record} {n p : Nat} {bm : BufferManager P} {f : Frame P}
    (h : DiskInv log n bm) (hf : bm.frames.lookup p = some f) : Wrote bm (bm.writeFrame p f) := by
  intro q
  by_cases hq : q = p
  · subst hq
    refine Or.inr ⟨f.page, if_pos rfl, ?_⟩
    rw [← BufferManager.page_of_lookup hf]
    exact h.mono q
  · exact Or.inl (if_neg hq)

theorem DiskInv.wrote_flushPage {s : Sys P} {n : Nat} (h : DiskInv s.log n s.bm) (p : Nat) :
    Wrote s.bm (s.flushPage p).bm := by
  rw [Sys.flushPage]
  split
  · rename_i f hf
    exact h.wrote hf
  · exact .of_eq rfl

theorem DiskInv.wrote_evict {s : Sys P} {n : Nat} (h : DiskInv s.log n s.bm) (p : Nat) :
    Wrote s.bm (s.evict p).bm := by
  rw [Sys.evict]
  split
  · rename_i f hf
    cases hd : f.dirty with
    | true => exact h.wrote_flushPage p
    | false => exact .of_eq rfl
  · exact .of_eq rfl

theorem DiskInv.wrote_recoverStep {s : Sys P} {n : Nat} (h : DiskInv s.log n s.bm) :
    s.recoverStep.ckpt = s.ckpt ∧ Wrote s.bm s.recoverStep.bm := by
  rw [Sys.recoverStep]
  cases hmode : s.mode with
  | normal => exact ⟨rfl, .of_eq rfl⟩
  | down => exact ⟨rfl, .of_eq rfl⟩
  | redo rest dpt att =>
    cases rest with
    | nil => exact ⟨rfl, .of_eq rfl⟩
    | cons r rest => exact ⟨rfl, .of_eq (images_redoOne dpt s.bm r)⟩
  | undo toUndo att =>
    simp only
    split
    · exact ⟨rfl, .of_eq rfl⟩
    · exact ⟨ckpt_undoOne _ _ _ _, .of_eq (images_undoOne _ _ _ _)⟩
  | flushing =>
    simp only
    split
    · exact ⟨flushPage_ckpt _ _, h.wrote_flushPage _⟩
    · exact ⟨rfl, .of_eq rfl⟩

/-- **Effect of a step outside of checkpoints.** No checkpoint is under way
before and after, and each page is written at most once. -/
theorem Inv.step_wrote {strict : Prop} {s s' : Sys P} {e : Event P} (h : Inv strict s)
    (he : e.isCkpt = false) (hcrash : ∀ choice, e ≠ .crash choice) (hs : PersistX.step s e = some s') :
    s.ckpt = .idle ∧ s'.ckpt = .idle ∧ Wrote s.bm s'.bm := by
  cases e with
  | begin =>
    simp only [PersistX.step, Option.ite_none_right_eq_some] at hs
    obtain rfl := Option.some.inj hs.2
    have hidle := (running_iff.mp hs.1).2
    exact ⟨hidle, hidle, .of_eq rfl⟩
  | update t p op key =>
    simp only [PersistX.step, Option.ite_none_right_eq_some, Sys.update] at hs
    obtain ⟨hrun, hs⟩ := hs
    have hidle := (running_iff.mp hrun).2
    split at hs
    · rw [Option.map_eq_some_iff] at hs
      obtain ⟨x, -, rfl⟩ := hs
      exact ⟨hidle, hidle, .of_eq (images_modify _ _ _ _)⟩
    · cases hs
  | commitLog t =>
    simp only [PersistX.step, Option.ite_none_right_eq_some, Sys.commitLog] at hs
    obtain ⟨hrun, hs⟩ := hs
    have hidle := (running_iff.mp hrun).2
    split at hs
    · obtain rfl := Option.some.inj hs
      exact ⟨hidle, hidle, .of_eq rfl⟩
    · cases hs
  | commitForce t =>
    simp only [PersistX.step, Option.ite_none_right_eq_some, Sys.commitForce] at hs
    obtain ⟨hrun, hs⟩ := hs
    have hidle := (running_iff.mp hrun).2
    split at hs
    · obtain rfl := Option.some.inj hs
      exact ⟨hidle, hidle, .of_eq rfl⟩
    · cases hs
  | commitEnd t =>
    simp only [PersistX.step, Option.ite_none_right_eq_some, Sys.commitEnd] at hs
    obtain ⟨hrun, hs⟩ := hs
    have hidle := (running_iff.mp hrun).2
    split at hs
    · obtain rfl := Option.some.inj hs
      exact ⟨hidle, hidle, .of_eq rfl⟩
    · cases hs
  | abortLog t =>
    simp only [PersistX.step, Option.ite_none_right_eq_some, Sys.abortLog] at hs
    obtain ⟨hrun, hs⟩ := hs
    have hidle := (running_iff.mp hrun).2
    split at hs
    · obtain rfl := Option.some.inj hs
      exact ⟨hidle, hidle, .of_eq rfl⟩
    · cases hs
  | abortStep t =>
    simp only [PersistX.step, Option.ite_none_right_eq_some] at hs
    have hidle := (running_iff.mp hs.1).2
    obtain ⟨himg, hck⟩ := images_abortStep hs.2
    exact ⟨hidle, hck.trans hidle, .of_eq himg⟩
  | abortEnd t =>
    simp only [PersistX.step, Option.ite_none_right_eq_some, Sys.abortEnd] at hs
    obtain ⟨hrun, hs⟩ := hs
    have hidle := (running_iff.mp hrun).2
    split at hs
    · obtain rfl := Option.some.inj hs
      exact ⟨hidle, hidle, .of_eq rfl⟩
    · cases hs
  | newPage p d =>
    simp only [PersistX.step, Option.ite_none_right_eq_some] at hs
    obtain rfl := Option.some.inj hs.2
    have hidle := (running_iff.mp hs.1).2
    exact ⟨hidle, hidle, .of_eq rfl⟩
  | flushPage p =>
    simp only [PersistX.step, Option.ite_none_right_eq_some] at hs
    obtain rfl := Option.some.inj hs.2
    exact ⟨hs.1, (flushPage_ckpt s p).trans hs.1, h.disk.wrote_flushPage p⟩
  | evict p =>
    simp only [PersistX.step, Option.ite_none_right_eq_some] at hs
    obtain rfl := Option.some.inj hs.2
    exact ⟨hs.1, (evict_ckpt s p).trans hs.1, h.disk.wrote_evict p⟩
  | flushLog =>
    simp only [PersistX.step, Option.ite_none_right_eq_some] at hs
    obtain rfl := Option.some.inj hs.2
    exact ⟨hs.1, hs.1, .of_eq rfl⟩
  | crash choice => exact absurd rfl (hcrash choice)
  | recoverStep =>
    simp only [PersistX.step, Option.ite_none_left_eq_some] at hs
    obtain rfl := Option.some.inj hs.2
    have hidle := h.idle fun hm => hs.1 (by rw [hm]; rfl)
    obtain ⟨hck, hw⟩ := h.disk.wrote_recoverStep
    exact ⟨hidle, hck.trans hidle, hw⟩
  | ckptBegin => cases he
  | ckptSnapshot => cases he
  | ckptEnd => cases he
  | ckptForce p => cases he
  | ckptWrite => cases he
  | ckptFinish => cases he

-- ---------------------------------------------------------------------------
-- Invariant
-- ---------------------------------------------------------------------------

/-- The log without the CHECKPOINT_END of a checkpoint under way. -/
def Sys.logBeforeEnd (s : Sys P) : List Record :=
  match s.ckpt with
  | .writing e _ => s.log.take e
  | _ => s.log

omit [LawfulPageOps P] in
theorem Sys.logBeforeEnd_of_idle {s : Sys P} (h : s.ckpt = .idle) : s.logBeforeEnd = s.log := by
  rw [logBeforeEnd, h]

/-- No image that can be left with the last completed checkpoint kept misses
what redo skips. -/
structure Storage.Inv (s : Storage P) : Prop where
  sys : PersistX.Inv False s.sys
  synced : ∀ p, s.synced p ≤ s.sys.bm.written p
  checkpointed : ∀ p, s.checkpointed p ≤ s.sys.bm.written p
  reflects : ∀ p x, Survives (s.sys.bm.images p) (s.checkpointed p) x →
    Reflects s.sys.logBeforeEnd p x

omit [LawfulPageOps P] in
theorem Wrote.written_le [PageOps P] {bm bm' : BufferManager P} (h : Wrote bm bm') (p : Nat) :
    bm.written p ≤ bm'.written p := by
  rw [BufferManager.written, BufferManager.written]
  rcases h p with hi | ⟨x, hi, -⟩
  · rw [hi]
  · rw [hi, List.length_cons]
    exact Nat.le_succ _

theorem Sys.logBeforeEnd_history {s : Sys P} (h : PersistX.Inv False s) :
    History (SysRule P) s.logBeforeEnd := by
  rw [Sys.logBeforeEnd]
  split
  · exact h.hist.take _
  · exact h.hist

/-- The pages are written, and the log grows by records that are no checkpoint. -/
theorem Storage.Inv.next {s : Storage P} {sys : Sys P} (h : s.Inv) (hinv : PersistX.Inv False sys)
    (hw : Wrote s.sys.bm sys.bm) (hlog : Grows s.sys.logBeforeEnd sys.logBeforeEnd) :
    Storage.Inv { s with sys } := by
  have hist := Sys.logBeforeEnd_history hinv
  obtain ⟨l, hl, hno⟩ := hlog
  have hkeep : ∀ p x, Survives (s.sys.bm.images p) (s.checkpointed p) x →
      Reflects sys.logBeforeEnd p x := by
    intro p x hx
    rw [hl] at hist ⊢
    exact (h.reflects p x hx).append hist hno
  refine ⟨hinv, fun p => Nat.le_trans (h.synced p) (hw.written_le p),
    fun p => Nat.le_trans (h.checkpointed p) (hw.written_le p), fun p x hx => ?_⟩
  rcases hw p with hi | ⟨y, hi, hle⟩
  · rw [hi] at hx
    exact hkeep p x hx
  · rw [hi, survives_cons (h.checkpointed p)] at hx
    rcases hx with rfl | hx
    · exact (hkeep p _ (survives_readPage s.sys.bm _ p)).mono hle
    · exact hkeep p x hx

/-- At the end of a checkpoint every page is on disk as the log has it. -/
theorem Storage.Inv.ckptFinish {s : Storage P} {sys : Sys P} (h : s.Inv)
    (hinv : PersistX.Inv False sys) (hw : Wrote s.sys.bm sys.bm) (hidle : sys.ckpt = .idle) :
    Storage.Inv { s with sys, checkpointed := sys.bm.written } := by
  refine ⟨hinv, fun p => Nat.le_trans (h.synced p) (hw.written_le p), fun p => Nat.le_refl _,
    fun p x hx => ?_⟩
  have hno := hinv.ckpt
  simp only [CkptInv, hidle] at hno
  rw [survives_written hx]
  show Reflects sys.logBeforeEnd p _
  rw [Sys.logBeforeEnd_of_idle hidle]
  exact (redoOk_iff.mp (hinv.redo (Or.inr hidle)) p).append hinv.hist hno

/-- A crash that keeps the last completed checkpoint. -/
theorem Storage.Inv.crash {s : Storage P} {choice : Nat → P} (h : s.Inv)
    (hprot : StorageProtocol s (.sys (.crash choice)))
    (hkept : CheckpointKept s (.sys (.crash choice))) :
    Storage.Inv { s with
      sys := s.sys.crash choice, synced := (s.sys.crash choice).bm.written } := by
  obtain ⟨hwin, hck⟩ := hkept
  have hlog : s.sys.lm.file <+: s.sys.logBeforeEnd := by
    rw [Sys.logBeforeEnd]
    split
    · rename_i e forced hw
      exact List.prefix_take_iff.mpr ⟨⟨s.sys.lm.buffer, rfl⟩, hwin e forced hw⟩
    · exact ⟨s.sys.lm.buffer, rfl⟩
  obtain ⟨l, hl⟩ := hlog
  have hfile : ∀ p x, Survives (s.sys.bm.images p) (s.checkpointed p) x →
      Reflects s.sys.lm.file p x := by
    intro p x hx
    have := h.reflects p x hx
    rw [← hl] at this
    exact this.of_append
  have hlen : ∀ p, (s.sys.crash choice).bm.written p = s.sys.bm.written p + 1 := fun p => rfl
  refine ⟨h.sys.crash_of_redo (fun p => (hprot p).mem) fun p => hfile p _ (hck p),
    fun p => Nat.le_refl _, fun p => ?_, fun p x hx => ?_⟩
  · rw [hlen]
    exact Nat.le_succ_of_le (h.checkpointed p)
  · have hbefore : (s.sys.crash choice).logBeforeEnd = s.sys.lm.file := List.append_nil _
    show Reflects (s.sys.crash choice).logBeforeEnd p x
    rw [hbefore]
    rcases (survives_cons (h.checkpointed p)).mp hx with rfl | hx
    · exact hfile p _ (hck p)
    · exact hfile p x hx

omit [LawfulPageOps P] in
theorem storageStep_sys [PageOps P] {s : Storage P} {e : Event P}
    (hcrash : ∀ choice, e ≠ .crash choice) (hfin : e ≠ .ckptFinish) :
    storageStep s (.sys e) = (step s.sys e).map fun sys => { s with sys } := by
  cases e with
  | crash choice => exact absurd rfl (hcrash choice)
  | ckptFinish => exact absurd rfl hfin
  | _ => rfl

omit [LawfulPageOps P] in
theorem storageProtocol_sys [PageOps P] {s : Storage P} {e : Event P}
    (hcrash : ∀ choice, e ≠ .crash choice) : StorageProtocol s (.sys e) ↔ Protocol s.sys e := by
  cases e with
  | crash choice => exact absurd rfl (hcrash choice)
  | _ => exact Iff.rfl

/-- A step of a checkpoint writes at most one page, and logs at most the record
that `logBeforeEnd` leaves out. -/
theorem Inv.ckpt_wrote {s s' : Sys P} {e : Event P} (h : PersistX.Inv False s)
    (he : e.isCkpt = true) (hfin : e ≠ .ckptFinish) (hs : PersistX.step s e = some s') :
    Wrote s.bm s'.bm ∧ Grows s.logBeforeEnd s'.logBeforeEnd := by
  cases e with
  | ckptBegin =>
    simp only [PersistX.step, Option.ite_none_right_eq_some] at hs
    obtain rfl := Option.some.inj hs.2
    rw [Sys.logBeforeEnd_of_idle (running_iff.mp hs.1).2]
    exact ⟨.of_eq rfl, .append s.lm _ _ rfl⟩
  | ckptSnapshot =>
    simp only [PersistX.step, Option.ite_none_right_eq_some] at hs
    obtain rfl := Option.some.inj hs.2
    refine ⟨.of_eq rfl, .of_eq ?_⟩
    rw [Sys.logBeforeEnd, Sys.logBeforeEnd, hs.1]
    rfl
  | ckptEnd =>
    simp only [PersistX.step] at hs
    split at hs
    · rename_i a d hsnap
      obtain rfl := Option.some.inj hs
      have hck := h.ckpt
      simp only [CkptInv, hsnap] at hck
      have hnext : s.lm.nextLsn = s.log.length := h.next_eq hck.1
      refine ⟨.of_eq rfl, .of_eq ?_⟩
      rw [Sys.logBeforeEnd, Sys.logBeforeEnd, hsnap]
      show (s.lm.append invalidU64 none (.checkpointEnd a d)).1.log.take s.lm.nextLsn = s.log
      rw [LogManager.append_log, hnext]
      exact List.take_left
    · cases hs
  | ckptForce p =>
    simp only [PersistX.step] at hs
    split at hs
    · rename_i e x hw hf
      obtain rfl := Option.some.inj hs
      refine ⟨.of_eq rfl, .of_eq ?_⟩
      rw [Sys.logBeforeEnd, Sys.logBeforeEnd, hw]
      show (s.lm.flush _).log.take e = s.log.take e
      rw [LogManager.flush_log]
    · cases hs
  | ckptWrite =>
    simp only [PersistX.step] at hs
    split at hs
    · rename_i e p hw
      rw [Option.map_eq_some_iff] at hs
      obtain ⟨f, hf, rfl⟩ := hs
      refine ⟨h.disk.wrote hf, .of_eq ?_⟩
      rw [Sys.logBeforeEnd, Sys.logBeforeEnd, hw]
      rfl
    · cases hs
  | ckptFinish => exact absurd rfl hfin
  | _ => cases he

omit [LawfulPageOps P] in
theorem Sys.ckptFinish_of_step [PageOps P] {s s' : Sys P} (hs : step s .ckptFinish = some s') :
    s'.ckpt = .idle ∧ s'.bm = s.bm := by
  simp only [step] at hs
  split at hs
  · rw [Option.ite_none_right_eq_some] at hs
    obtain rfl := Option.some.inj hs.2
    exact ⟨rfl, rfl⟩
  · cases hs

/-- **Every step of such a run keeps the invariant.** -/
theorem Storage.Inv.step {s s' : Storage P} {e : StorageEvent P} (h : s.Inv) (hok : Kept s e)
    (hs : storageStep s e = some s') : s'.Inv := by
  obtain ⟨hprot, hroom, hkept⟩ := hok
  cases e with
  | diskFlush =>
    obtain rfl := Option.some.inj hs
    exact ⟨h.sys, fun p => Nat.le_refl _, h.checkpointed, h.reflects⟩
  | sys e =>
    by_cases hcrash : ∃ choice, e = .crash choice
    · obtain ⟨choice, rfl⟩ := hcrash
      obtain rfl := Option.some.inj hs
      exact h.crash hprot hkept
    have hcrash' : ∀ choice, e ≠ .crash choice := fun choice hc => hcrash ⟨choice, hc⟩
    have hnext : ∀ {sys}, PersistX.step s.sys e = some sys → PersistX.Inv False sys := by
      intro sys hstep
      refine h.sys.step ⟨(storageProtocol_sys hcrash').mp hprot, hroom, Or.inr ?_,
        fun choice hc => absurd hc (hcrash' choice), fun hf => hf.elim⟩ hstep
      cases e with
      | crash choice => exact absurd rfl (hcrash' choice)
      | _ => trivial
    by_cases hfin : e = .ckptFinish
    · subst hfin
      obtain ⟨sys, hstep, rfl⟩ := Option.map_eq_some_iff.mp hs
      obtain ⟨hidle, hbm⟩ := Sys.ckptFinish_of_step hstep
      exact h.ckptFinish (hnext hstep) (.of_eq (by rw [hbm])) hidle
    · rw [storageStep_sys hcrash' hfin] at hs
      obtain ⟨sys, hstep, rfl⟩ := Option.map_eq_some_iff.mp hs
      cases he : e.isCkpt with
      | true =>
        obtain ⟨hw, hlog⟩ := h.sys.ckpt_wrote he hfin hstep
        exact h.next (hnext hstep) hw hlog
      | false =>
        obtain ⟨hidle, hidle', hw⟩ := h.sys.step_wrote he hcrash' hstep
        refine h.next (hnext hstep) hw ?_
        rw [Sys.logBeforeEnd_of_idle hidle, Sys.logBeforeEnd_of_idle hidle']
        exact h.sys.step_log he hcrash' hstep

theorem Storage.Inv.init : (Storage.init : Storage P).Inv :=
  ⟨PersistX.Inv.init, fun _ => Nat.le_refl _, fun _ => Nat.le_refl _,
    fun p x _ i hi j r hr => by
      rw [Nat.le_zero.mp hi] at hr
      cases hr⟩

theorem kept_inv {s : Storage P} (h : Steps storageStep Kept Storage.init s) : s.Inv :=
  h.invariant (I := Storage.Inv) (fun _ _ _ hinv hok hs => hinv.step hok hs) Storage.Inv.init

end Steps

/-- **A checkpoint that is kept.** In every run in which no crash takes back a
page write made before the last completed checkpoint returned, or comes inside
another checkpoint whose CHECKPOINT_END is durable, and in which undo has room:
after a crash at any point `recover()` comes to an end with every slot as the
committed transactions of the log file left it. -/
theorem kept_checkpoint_recovers {s : Storage Page}
    (hrun : Steps storageStep Kept Storage.init s) (hdown : s.sys.mode = .down)
    (hroom : ∀ i, UndoRoom (Sys.recoverStep^[i] s.sys) .recoverStep) :
    ∃ n, (Sys.recoverStep^[n] s.sys).mode = .normal ∧
      ∀ p slot, (Sys.recoverStep^[n] s.sys).read p slot =
        committedContents s.sys.lm.file p slot := by
  exact (kept_inv hrun).sys.recovers_down hdown hroom

/-- With `DiskManager::flush()` between the return of the last checkpoint and
the crash, no write the checkpoint counts on is lost. -/
theorem Storage.Inv.survives_of_synced [LawfulPageOps P] {s : Storage P} {choice : Nat → P}
    (h : s.Inv) (hsync : ∀ p, s.checkpointed p ≤ s.synced p)
    (hprot : StorageProtocol s (.sys (.crash choice))) (p : Nat) :
    Survives (s.sys.bm.images p) (s.checkpointed p) (choice p) :=
  (hprot p).of_le (hsync p) (h.synced p)

-- ---------------------------------------------------------------------------
-- With and without a sync
-- ---------------------------------------------------------------------------

/-- Two inserts into page 0 are committed and a checkpoint is taken. -/
def checkpointedInserts : List (StorageEvent Page) :=
  List.map .sys [.begin, .newPage 0 true, .update 0 0 (.insert [1]) 0,
    .update 0 0 (.insert [2]) 0, .commitLog 0, .commitForce 0, .commitEnd 0,
    .ckptBegin, .ckptSnapshot, .ckptEnd, .ckptForce 0, .ckptWrite, .ckptFinish]

/-- The rules of a run, decided up to a crash. -/
def storageCheck (s : Storage Page) : StorageEvent Page → Bool
  | .diskFlush => true
  | .sys e => protocolCheck s.sys e && undoRoomCheck s.sys e

theorem kept_of_check (s : Storage Page) (e : StorageEvent Page) (h : storageCheck s e = true) :
    Kept s e := by
  cases e with
  | diskFlush => exact ⟨trivial, trivial, trivial⟩
  | sys e =>
    rw [storageCheck, Bool.and_eq_true] at h
    have hcrash : ∀ choice, e ≠ .crash choice := by
      rintro choice rfl
      cases h.1
    refine ⟨(storageProtocol_sys hcrash).mpr (protocol_of_check h.1), undoRoom_of_check h.2, ?_⟩
    cases e with
    | crash choice => exact absurd rfl (hcrash choice)
    | _ => trivial

/-- The storage after these events. -/
def afterEvents (es : List (StorageEvent Page)) : Storage Page :=
  (run storageStep storageCheck Storage.init es).1

/-- The storage after the crash that leaves these pages. -/
def Storage.crashed (s : Storage Page) (choice : Nat → Page) : Storage Page :=
  { s with sys := s.sys.crash choice, synced := (s.sys.crash choice).bm.written }

/-- With a sync behind the checkpoint both records are there after recovery. -/
theorem synced_checkpoint_recovers :
    ∃ n, (Sys.recoverStep^[n]
        ((afterEvents (checkpointedInserts ++ [.diskFlush])).crashed
          (afterEvents (checkpointedInserts ++ [.diskFlush])).sys.bm.readPage).sys).mode = .normal ∧
      ∀ p slot, (Sys.recoverStep^[n]
          ((afterEvents (checkpointedInserts ++ [.diskFlush])).crashed
            (afterEvents (checkpointedInserts ++ [.diskFlush])).sys.bm.readPage).sys).read p slot =
        committedContents ((afterEvents (checkpointedInserts ++ [.diskFlush])).crashed
          (afterEvents (checkpointedInserts ++ [.diskFlush])).sys.bm.readPage).sys.lm.file p slot := by
  have hrun : Steps storageStep Kept Storage.init
      (afterEvents (checkpointedInserts ++ [.diskFlush])) :=
    Steps.of_run kept_of_check (by decide +kernel)
  have hprot : StorageProtocol (afterEvents (checkpointedInserts ++ [.diskFlush]))
      (.sys (.crash (afterEvents (checkpointedInserts ++ [.diskFlush])).sys.bm.readPage)) :=
    fun p => survives_readPage _ _ p
  have hidle : (afterEvents (checkpointedInserts ++ [.diskFlush])).sys.ckpt = .idle := by
    decide +kernel
  have hcrash := hrun.next (.sys (.crash _)) ⟨hprot, trivial,
    fun e forced hw => (by rw [hidle] at hw; cases hw),
    (kept_inv hrun).survives_of_synced (fun p => Nat.le_refl _) hprot⟩ rfl
  exact kept_checkpoint_recovers hcrash rfl
    (undoRoom_of_normal (n := 12) (Mode.eq_normal (by decide +kernel)) (by decide +kernel))

/-- The checkpoint has returned, and nothing was synced. Page 0 is still zeros
after the crash, redo starts at the `rec_lsn` that CHECKPOINT_END has for it,
and the first of the two committed records is gone. -/
theorem checkpoint_without_sync :
    Steps storageStep StorageProtocol Storage.init
      ((afterEvents checkpointedInserts).crashed fun _ => Page.zero) ∧
    (afterEvents checkpointedInserts).sys.ckpt = .idle ∧
    (afterEvents checkpointedInserts).sys.lm.file[6]?.map Record.body =
      some (.checkpointEnd [] [(0, 2)]) ∧
    (Sys.recoverStep^[12] ((afterEvents checkpointedInserts).crashed fun _ => Page.zero).sys).mode =
      .normal ∧
    committedContents ((afterEvents checkpointedInserts).crashed fun _ => Page.zero).sys.lm.file 0 0 =
      some [1] ∧
    (Sys.recoverStep^[12] ((afterEvents checkpointedInserts).crashed fun _ => Page.zero).sys).read
      0 0 = none := by
  have hrun : Steps storageStep StorageProtocol Storage.init (afterEvents checkpointedInserts) :=
    Steps.of_run (fun s e h => (kept_of_check s e h).1) (by decide +kernel)
  have hsync : ∀ p, (afterEvents checkpointedInserts).synced p = 0 := fun p => rfl
  refine ⟨hrun.next (.sys (.crash fun _ => Page.zero)) (fun p => ?_) rfl, by decide +kernel,
    by decide +kernel, Mode.eq_normal (by decide +kernel), by decide +kernel, by decide +kernel⟩
  rw [hsync]
  exact survives_zero _

end PersistX
