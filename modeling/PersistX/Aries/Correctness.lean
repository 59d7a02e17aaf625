import PersistX.Aries.Recovery
import PersistX.Lib.Transition

/-!
# PersistX — recovery restores the committed contents

`recover()` is `recoverStep` repeated until the system is in normal operation.

Main results:

* `Inv.recovers` — it gets there, from every state of a run, provided that
  what the undo steps force back has room on the pages;
* `Inv.read_recovered` — then every slot reads what the committed transactions
  of the log wrote, and nobody is left open.
-/

namespace PersistX

open PageOps LawfulPageOps

variable {P : Type} [LawfulPageOps P] {strict : Prop}

-- ---------------------------------------------------------------------------
-- What recovery logs
-- ---------------------------------------------------------------------------

/-- No COMMIT among these records. -/
def CommitFree (l : List Record) : Prop := ∀ r ∈ l, r.body ≠ .commit

/-- Records other than COMMITs commit nothing. -/
theorem committedContents_append {a b : List Record} (h : CommitFree b) :
    committedContents (a ++ b) = committedContents a := by
  induction b using List.reverseRecOn with
  | nil => rw [List.append_nil]
  | append_singleton b r ih =>
    rw [← List.append_assoc, committedContents_append_one (h r (by simp)),
      ih fun x hx => h x (List.mem_append_left _ hx)]

/-- The records that recovery writes: CLR and TXN_END. -/
def RecordBody.isUndo : RecordBody → Bool
  | .clr .. => true
  | .txnEnd => true
  | _ => false

/-- Only records that recovery writes. -/
def UndoOnly (l : List Record) : Prop := ∀ r ∈ l, r.body.isUndo = true

theorem UndoOnly.commitFree {l : List Record} (h : UndoOnly l) : CommitFree l := by
  intro r hr hb
  have := h r hr
  rw [hb] at this
  cases this

theorem UndoOnly.noEnd {l : List Record} (h : UndoOnly l) : NoEnd l := by
  intro r hr
  have := h r hr
  cases hb : r.body <;> rw [hb] at this <;> simp_all [RecordBody.isUndo, RecordBody.isCheckpointEnd]

omit [LawfulPageOps P] in
theorem undoOne_log [PageOps P] (s : Sys P) (toUndo : Finset Nat) (att : Table) (x : Nat) :
    ∃ l, (s.undoOne toUndo att x).log = s.log ++ l ∧ UndoOnly l := by
  have hsame : ∃ l, s.lm.flushAll.log = s.lm.log ++ l ∧ UndoOnly l :=
    ⟨[], by rw [LogManager.flushAll_log, List.append_nil], fun r hr => by cases hr⟩
  have hone : ∀ (t : Nat) (pr : Option Nat) (b : RecordBody), b.isUndo = true →
      ∃ l, (s.lm.flushAll.append t pr b).1.log = s.lm.log ++ l ∧ UndoOnly l := by
    intro t pr b hb
    refine ⟨_, by rw [LogManager.append_log, LogManager.flushAll_log], fun r hr => ?_⟩
    rw [List.mem_singleton.mp hr]
    exact hb
  rw [Sys.undoOne]
  simp only [LogManager.readRecordAtLsn]
  split
  · exact ⟨[], by simp [Sys.finishUndo, Sys.log], fun r hr => by cases hr⟩
  · split
    · exact hone _ _ _ rfl
    · exact hsame
    · exact hone _ _ _ rfl
    · exact hone _ _ _ rfl
    · exact hsame

/-- A step of recovery appends at most a CLR or a TXN_END. -/
theorem Inv.recoverStep_log {s : Sys P} (h : Inv strict s) :
    ∃ l, s.recoverStep.log = s.log ++ l ∧ UndoOnly l := by
  have hsame : ∃ l, s.log = s.log ++ l ∧ UndoOnly l :=
    ⟨[], by rw [List.append_nil], fun r hr => by cases hr⟩
  rw [Sys.recoverStep]
  cases hmode : s.mode with
  | normal => exact hsame
  | down =>
    have hm := h.mode
    rw [ModeInv, hmode] at hm
    refine ⟨[], ?_, fun r hr => by cases hr⟩
    show s.lm.file ++ [] = s.lm.file ++ s.lm.buffer ++ []
    rw [hm.2, List.append_nil, List.append_nil]
  | redo rest dpt att =>
    cases rest with
    | nil => exact hsame
    | cons r rest => exact hsame
  | undo toUndo att =>
    simp only
    split
    · exact ⟨[], by simp [Sys.finishUndo, Sys.log], fun r hr => by cases hr⟩
    · exact undoOne_log s toUndo att _
  | flushing =>
    simp only
    split
    · refine ⟨[], ?_, fun r hr => by cases hr⟩
      rw [Sys.flushPage]
      split
      · simp [Sys.log]
      · simp
    · exact hsame

omit [LawfulPageOps P] in
/-- Recovery never makes the log file shorter. -/
theorem length_file_recoverStep [PageOps P] (s : Sys P) :
    s.lm.file.length ≤ s.recoverStep.lm.file.length := by
  have hflush : s.lm.file.length ≤ s.lm.flushAll.file.length := by
    rw [LogManager.flushAll_file]
    exact LogManager.length_file_le
  rw [Sys.recoverStep]
  split
  · exact Nat.le_refl _
  · exact Nat.le_refl _
  · exact Nat.le_refl _
  · exact Nat.le_refl _
  · split
    · exact hflush
    · rw [Sys.undoOne]
      simp only [LogManager.readRecordAtLsn]
      split
      · simpa [Sys.finishUndo] using hflush
      · split <;> exact hflush
  · split
    · rw [Sys.flushPage]
      split
      · exact LogManager.length_file_le_flush _
      · exact Nat.le_refl _
    · exact Nat.le_refl _

/-- Nobody is open, and the whole log is on disk. -/
def Settled (s : Sys P) : Prop := (∀ t, active s.log t = none) ∧ s.lm.buffer = []

/-- Recovery reaches normal operation only when it is through. -/
theorem Inv.recoverStep_settled {s : Sys P} (h : Inv strict s) (hroom : UndoRoom s .recoverStep)
    (hs : s.mode = .normal → Settled s) (hn : s.recoverStep.mode = .normal) :
    Settled s.recoverStep := by
  cases hmode : s.mode with
  | normal =>
    have : s.recoverStep = s := by rw [Sys.recoverStep, hmode]
    rw [this]
    exact hs hmode
  | down => simp [Sys.recoverStep, hmode, Sys.startRecovery] at hn
  | redo rest dpt att => cases rest <;> simp [Sys.recoverStep, hmode] at hn
  | undo toUndo att =>
    simp only [Sys.recoverStep, hmode] at hn
    split at hn
    · simp [Sys.finishUndo] at hn
    · rename_i x hmax
      obtain ⟨-, U, A, hU, -⟩ := h.undoStep hmode hmax (hroom toUndo att x hmode hmax)
      rw [hU] at hn
      cases hn
  | flushing =>
    have hm := h.mode
    rw [ModeInv, hmode] at hm
    simp only [Sys.recoverStep, hmode] at hn ⊢
    split at hn
    · rw [Sys.flushPage] at hn
      split at hn <;> simp [hmode] at hn
    · exact ⟨hm.2.2, hm.2.1⟩

-- ---------------------------------------------------------------------------
-- Recovery comes to an end
-- ---------------------------------------------------------------------------

/-- The invariant, with room for all undo steps to come. -/
structure Recovering (strict : Prop) (s : Sys P) : Prop where
  inv : Inv strict s
  room : ∀ i, UndoRoom (Sys.recoverStep^[i] s) .recoverStep
  settled : s.mode = .normal → Settled s

theorem Recovering.step {s : Sys P} (h : Recovering strict s) : Recovering strict s.recoverStep :=
  ⟨h.inv.recoverStep (h.room 0), fun i => by
    have := h.room (i + 1)
    rwa [Function.iterate_succ_apply] at this,
    h.inv.recoverStep_settled (h.room 0) h.settled⟩

theorem Recovering.iterate {s : Sys P} (h : Recovering strict s) (n : Nat) :
    Recovering strict (Sys.recoverStep^[n] s) := by
  induction n with
  | zero => exact h
  | succ n ih =>
    rw [Function.iterate_succ_apply']
    exact ih.step

/-- One past the largest LSN still to be undone. -/
def undoHeight (toUndo : Finset Nat) : Nat :=
  match toUndo.max with
  | none => 0
  | some x => x + 1

theorem undoHeight_le {toUndo : Finset Nat} {n : Nat} (h : ∀ y ∈ toUndo, y < n) :
    undoHeight toUndo ≤ n := by
  rw [undoHeight]
  split
  · exact Nat.zero_le n
  · rename_i x hx
    exact h x (Finset.mem_of_max hx)

/-- What is left of the three passes. -/
def passesLeft (s : Sys P) : Nat :=
  match s.mode with
  | .normal => 0
  | .down => 2 * s.lm.file.length + 3
  | .redo rest _ _ => rest.length + s.lm.file.length + 2
  | .undo toUndo _ => undoHeight toUndo + 1
  | .flushing => 0

theorem Inv.passesLeft_lt {s : Sys P} (h : Inv strict s) (hroom : UndoRoom s .recoverStep)
    (hd : ¬ (s.mode = .normal ∨ s.mode = .flushing)) : passesLeft s.recoverStep < passesLeft s := by
  cases hmode : s.mode with
  | normal => exact absurd (Or.inl hmode) hd
  | flushing => exact absurd (Or.inr hmode) hd
  | down =>
    simp only [passesLeft, Sys.recoverStep, hmode, Sys.startRecovery, LogManager.readLog,
      LogManager.ofFile]
    split
    · simp only [List.length_nil]
      omega
    · omega
  | redo rest dpt att =>
    cases rest with
    | nil =>
      have h' := (h.redoEnd hmode).mode
      simp only [ModeInv] at h'
      have hm := h.mode
      simp only [ModeInv, hmode] at hm
      have hlog : s.lm.log.length = s.lm.file.length := by
        rw [LogManager.log, hm.1, List.append_nil]
      have hle : undoHeight (att.entries.map (·.2)).toFinset ≤ s.lm.file.length := by
        refine undoHeight_le fun x hx => ?_
        obtain ⟨t, v, -, hc⟩ := h'.2.2.only x hx
        have : x < s.lm.log.length := hc.lt_length
        omega
      simp only [passesLeft, Sys.recoverStep, hmode, List.length_nil]
      omega
    | cons r rest =>
      simp only [passesLeft, Sys.recoverStep, hmode, List.length_cons]
      omega
  | undo toUndo att =>
    cases hmax : toUndo.max with
    | bot =>
      have : s.recoverStep = s.finishUndo := by
        simp only [Sys.recoverStep, hmode]
        rw [hmax]
      rw [this]
      simp only [passesLeft, Sys.finishUndo, hmode]
      omega
    | coe x =>
      have : s.recoverStep = s.undoOne toUndo att x := by
        simp only [Sys.recoverStep, hmode]
        rw [hmax]
      obtain ⟨-, U, A, hU, hlt⟩ := h.undoStep hmode hmax (hroom toUndo att x hmode hmax)
      rw [this]
      simp only [passesLeft, hU, hmode]
      have h1 : undoHeight U ≤ x := undoHeight_le hlt
      have h2 : undoHeight toUndo = x + 1 := by rw [undoHeight, hmax]
      omega

/-- The dirty pages of the pool. -/
def dirtyPages {P : Type} (bm : BufferManager P) : Finset Nat :=
  bm.frames.keys.toFinset.filter fun p => (bm.frames.lookup p).any Frame.dirty

omit [LawfulPageOps P] in
theorem dirtyPages_lt [PageOps P] {s : Sys P} {e : Sigma fun _ : Nat => Frame P} (he : e ∈ s.bm.frames.entries)
    (hdirty : e.2.dirty = true) :
    (dirtyPages (s.flushPage e.1).bm).card < (dirtyPages s.bm).card := by
  have hl : s.bm.frames.lookup e.1 = some e.2 := AList.mem_lookup_iff.mpr he
  have hmem : ∀ {bm : BufferManager P} {q : Nat}, q ∈ dirtyPages bm ↔
      ∃ f, bm.frames.lookup q = some f ∧ f.dirty = true := by
    intro bm q
    simp only [dirtyPages, Finset.mem_filter, List.mem_toFinset, Option.any_eq_true]
    constructor
    · exact fun h => h.2
    · rintro ⟨f, hf, hd⟩
      exact ⟨AList.mem_keys.mp (AList.lookup_isSome.mp (by rw [hf]; rfl)), f, hf, hd⟩
  rw [Sys.flushPage, hl]
  refine Finset.card_lt_card ((Finset.ssubset_iff_of_subset ?_).mpr ⟨e.1, ?_, ?_⟩)
  · intro q hq
    obtain ⟨f, hf, hd⟩ := hmem.mp hq
    by_cases hqe : q = e.1
    · rw [hqe]
      exact hmem.mpr ⟨e.2, hl, hdirty⟩
    · simp only [BufferManager.writeFrame] at hf
      rw [AList.lookup_insert_ne hqe] at hf
      exact hmem.mpr ⟨f, hf, hd⟩
  · exact hmem.mpr ⟨e.2, hl, hdirty⟩
  · intro hq
    obtain ⟨f, hf, hd⟩ := hmem.mp hq
    simp only [BufferManager.writeFrame] at hf
    rw [AList.lookup_insert] at hf
    rw [← Option.some.inj hf] at hd
    cases hd

/-- What is left of the final `flush_all_pages()`. -/
def flushesLeft {P : Type} (s : Sys P) : Nat :=
  (dirtyPages s.bm).card + if s.mode.isNormal then 0 else 1

omit [LawfulPageOps P] in
theorem recoverStep_flushing [PageOps P] {s : Sys P} (hmode : s.mode = .flushing) :
    (s.recoverStep.mode = .normal ∨ s.recoverStep.mode = .flushing) ∧
      flushesLeft s.recoverStep < flushesLeft s := by
  simp only [Sys.recoverStep, hmode]
  split
  · rename_i e he
    have hlt := dirtyPages_lt (s := s) (List.mem_of_find?_eq_some he)
      (by simpa using List.find?_some he)
    have hsame : (s.flushPage e.1).mode = s.mode := by
      rw [Sys.flushPage]
      split <;> rfl
    refine ⟨Or.inr (hsame.trans hmode), ?_⟩
    rw [flushesLeft, flushesLeft, hsame]
    exact Nat.add_lt_add_right hlt _
  · refine ⟨Or.inl rfl, ?_⟩
    rw [flushesLeft, flushesLeft, hmode]
    exact Nat.lt_succ_self _

/-- **Recovery terminates.** -/
theorem Recovering.terminates {s : Sys P} (h : Recovering strict s) :
    ∃ n, (Sys.recoverStep^[n] s).mode = .normal := by
  -- the passes first, then the pages that are still dirty
  obtain ⟨n, hn, -⟩ := Transition.exists_iterate (f := Sys.recoverStep) (Recovering strict)
    (fun s => s.mode = .normal ∨ s.mode = .flushing) passesLeft
    (fun s hs _ => hs.step) (fun s hs hd => hs.inv.passesLeft_lt (hs.room 0) hd) s h
  obtain ⟨m, hm, -⟩ := Transition.exists_iterate (f := Sys.recoverStep)
    (fun s : Sys P => s.mode = .normal ∨ s.mode = .flushing) (fun s => s.mode = .normal)
    flushesLeft
    (fun s hs hd => (recoverStep_flushing (hs.resolve_left hd)).1)
    (fun s hs hd => (recoverStep_flushing (hs.resolve_left hd)).2) _ hn
  refine ⟨m + n, ?_⟩
  rw [Function.iterate_add_apply]
  exact hm

-- ---------------------------------------------------------------------------
-- What recovery gives
-- ---------------------------------------------------------------------------

/-- In normal operation every slot reads what the log says. -/
theorem Inv.read_eq {s : Sys P} (h : Inv strict s) (hn : s.mode = .normal) (p slot : Nat) :
    s.read p slot = contents s.log p slot := by
  obtain ⟨hwf, hread⟩ := read_stateAt h.hist p
  have hcur := (h.normal hn).1 p
  rw [Sys.read, eqv_read slot (eqv_wf (eqv_symm hcur) hwf) hcur, hread]

/-- With nobody open, that is what the committed transactions wrote. -/
theorem Recovering.read_eq {s : Sys P} (h : Recovering strict s) (hn : s.mode = .normal)
    (p slot : Nat) : s.read p slot = committedContents s.lm.file p slot := by
  obtain ⟨hnone, hbuf⟩ := h.settled hn
  rw [h.inv.read_eq hn, contents_eq_committed h.inv.hist.legit hnone]
  show committedContents (s.lm.file ++ s.lm.buffer) p slot = _
  rw [hbuf, List.append_nil]

theorem Recovering.iterate_log {s : Sys P} (h : Recovering strict s) (n : Nat) :
    ∃ l, (Sys.recoverStep^[n] s).log = s.log ++ l ∧ UndoOnly l := by
  induction n with
  | zero => exact ⟨[], (List.append_nil _).symm, fun r hr => by cases hr⟩
  | succ n ih =>
    obtain ⟨l, hl, hfree⟩ := ih
    obtain ⟨l', hl', hfree'⟩ := (h.iterate n).inv.recoverStep_log
    rw [Function.iterate_succ_apply']
    refine ⟨l ++ l', by rw [hl', hl, List.append_assoc], fun r hr => ?_⟩
    rcases List.mem_append.mp hr with hr | hr
    · exact hfree r hr
    · exact hfree' r hr

/-- A transaction that has begun and is not open any more has ended. -/
theorem ended_of_active_none {log : List Record} {t : Nat} (h : active log t = none) :
    ∀ (i : Nat) (r : Record), log[i]? = some r → r.txnId = t → r.body = .begin →
    ∃ (j : Nat) (r' : Record), i < j ∧ log[j]? = some r' ∧ r'.txnId = t ∧
      (r'.body = .commit ∨ r'.body = .txnEnd) := by
  -- by induction on the log: while it has not ended, it is open
  have key : ∀ (l : List Record) (i : Nat) (r : Record), l[i]? = some r → r.txnId = t →
      r.body = .begin → (active l t).isSome ∨ ∃ (j : Nat) (r' : Record), i < j ∧
        l[j]? = some r' ∧ r'.txnId = t ∧ (r'.body = .commit ∨ r'.body = .txnEnd) := by
    intro l
    induction l using List.reverseRecOn with
    | nil => intro i r hr; simp at hr
    | append_singleton l x ih =>
      intro i r hr ht hb
      rcases Nat.lt_or_ge i l.length with hi | hi
      · rw [List.getElem?_append_left hi] at hr
        rcases ih i r hr ht hb with hopen | ⟨j, r', hj, hr', rest⟩
        · obtain ⟨v, hv⟩ := Option.isSome_iff_exists.mp hopen
          by_cases hx : x.txnId = t
          · have hlast : (l ++ [x])[l.length]? = some x := by simp
            cases hxb : x.body with
            | commit => exact Or.inr ⟨l.length, x, hi, hlast, hx, Or.inl hxb⟩
            | txnEnd => exact Or.inr ⟨l.length, x, hi, hlast, hx, Or.inr hxb⟩
            | _ =>
              left
              rw [active_append_one, if_pos hx, hv]
              simp [stepTxn, hxb]
          · exact Or.inl (by rw [active_append_one_ne hx]; exact hopen)
        · exact Or.inr ⟨j, r', hj, getElem?_append_of_some hr', rest⟩
      · rw [List.getElem?_append_right hi, List.getElem?_singleton] at hr
        split at hr
        · obtain rfl := Option.some.inj hr
          left
          rw [active_append_one, if_pos ht]
          simp [stepTxn, hb]
        · cases hr
  intro i r hr ht hb
  rcases key log i r hr ht hb with hopen | hend
  · rw [h] at hopen
    cases hopen
  · exact hend

/-- **Recovery is correct.** From every state of a run that is not in normal
operation, recovery comes to an end, with every slot as the committed
transactions of the log left it, and with every transaction ended in the log
file. -/
theorem Inv.recovers {s : Sys P} (h : Inv strict s) (hm : s.mode ≠ .normal)
    (hroom : ∀ i, UndoRoom (Sys.recoverStep^[i] s) .recoverStep) :
    ∃ n, (Sys.recoverStep^[n] s).mode = .normal ∧
      (∀ p slot, (Sys.recoverStep^[n] s).read p slot = committedContents s.log p slot) ∧
      ∀ t, active (Sys.recoverStep^[n] s).lm.file t = none := by
  have hrec : Recovering strict s := ⟨h, hroom, fun hn => absurd hn hm⟩
  obtain ⟨n, hn⟩ := hrec.terminates
  obtain ⟨hnone, hbuf⟩ := (hrec.iterate n).settled hn
  have hfile : (Sys.recoverStep^[n] s).log = (Sys.recoverStep^[n] s).lm.file := by
    show (Sys.recoverStep^[n] s).lm.file ++ (Sys.recoverStep^[n] s).lm.buffer = _
    rw [hbuf, List.append_nil]
  refine ⟨n, hn, fun p slot => ?_, fun t => by rw [← hfile]; exact hnone t⟩
  obtain ⟨l, hl, hfree⟩ := hrec.iterate_log n
  rw [(hrec.iterate n).read_eq hn, ← hfile, hl,
    committedContents_append hfree.commitFree]

/-- The same after a crash, when all that is left of the log is in the file. -/
theorem Inv.recovers_down {s : Sys P} (h : Inv strict s) (hdown : s.mode = .down)
    (hroom : ∀ i, UndoRoom (Sys.recoverStep^[i] s) .recoverStep) :
    ∃ n, (Sys.recoverStep^[n] s).mode = .normal ∧
      ∀ p slot, (Sys.recoverStep^[n] s).read p slot = committedContents s.lm.file p slot := by
  obtain ⟨n, hn, hread, -⟩ := h.recovers (by rw [hdown]; simp) hroom
  have hm := h.mode
  rw [ModeInv, hdown] at hm
  have hlog : s.log = s.lm.file := by
    show s.lm.file ++ s.lm.buffer = _
    rw [hm.2, List.append_nil]
  exact ⟨n, hn, fun p slot => by rw [hread, hlog]⟩

end PersistX
