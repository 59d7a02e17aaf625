import PersistX.Aries.CrashRecovery

/-!
# PersistX — transactions on shared pages

Several transactions work on the same pages, commit and abort in any order.
Updates and deletes stay off the records that another open transaction has
written (`Concurrent`); an insert takes the slot that `insert_record` hands out,
and `insert_record` hands out any tombstone, also one whose delete may still be
undone.

Main result: `committed_records_survive` — as long as no insert is handed a slot
that another open transaction has written (`InsertsOffHeld`), and undo has room
for what it puts back, every slot that no open transaction has written reads
what was committed. `reused_slot_overwritten` shows that without the first
condition an abort destroys a committed record.
-/

namespace PersistX

open PageOps LawfulPageOps Transition

variable {P : Type}

section Rules

variable [PageOps P]

/-- The record that a data operation targets. -/
def DataOp.target : DataOp → Option Nat
  | .insert _ => none
  | .delete slot => some slot
  | .update slot _ => some slot

/-- The event is work of a transaction or of the buffer pool. -/
def Event.isWork : Event P → Bool
  | .begin => true
  | .update .. => true
  | .commitLog _ => true
  | .commitForce _ => true
  | .commitEnd _ => true
  | .abortLog _ => true
  | .abortStep _ => true
  | .abortEnd _ => true
  | .newPage .. => true
  | .flushPage _ => true
  | .evict _ => true
  | .flushLog => true
  | _ => false

/-- A step of transactions whose updates and deletes stay off the records that
another open transaction has written. -/
def Concurrent (s : Sys P) (e : Event P) : Prop :=
  e.isWork = true ∧
  match e with
  | .update t p op _ => inited (s.bm.page p) = true ∧
      ∀ slot, op.target = some slot → ¬ HeldByOther s.log t p slot
  | .newPage p _ => (∀ r ∈ s.log, r.body.page? ≠ some p) ∧ p ∉ s.bm.frames
  | _ => True

/-- The slot that `insert_record` hands out is none that another open
transaction has written. -/
def InsertsOffHeld (s : Sys P) : Event P → Prop
  | .update t p (.insert data) _ => ∀ x slot, insertRecord (s.bm.page p) data 0 = some (x, slot) →
      ¬ HeldByOther s.log t p slot
  | _ => True

/-- A data operation works on the record it targets, or on the slot that it is handed. -/
theorem DataOp.run_slot {op : DataOp} {x x' : P} {slot : Nat} {old new : Bytes}
    (h : op.run x = some (x', slot, old, new)) :
    op.target = some slot ∨ ∃ data, op = .insert data ∧ insertRecord x data 0 = some (x', slot) := by
  cases op with
  | insert data =>
    simp only [DataOp.run, Option.ite_none_left_eq_some, Option.map_eq_some_iff] at h
    obtain ⟨-, ⟨y, s⟩, hins, heq⟩ := h
    simp only [Prod.mk.injEq] at heq
    obtain ⟨rfl, rfl, -, -⟩ := heq
    exact .inr ⟨data, rfl, hins⟩
  | delete s =>
    simp only [DataOp.run, Option.map_eq_some_iff, Prod.mk.injEq] at h
    obtain ⟨_, -, -, rfl, -⟩ := h
    exact .inl rfl
  | update s data =>
    simp only [DataOp.run, Option.ite_none_left_eq_some, Option.bind_eq_some_iff] at h
    obtain ⟨-, _, -, h⟩ := h
    split at h
    · simp only [Option.some.injEq, Prod.mk.injEq] at h
      obtain ⟨-, rfl, -⟩ := h
      exact .inl rfl
    · rw [Option.bind_eq_some_iff] at h
      obtain ⟨_, -, h⟩ := h
      rw [Option.ite_none_right_eq_some] at h
      simp only [Option.some.injEq, Prod.mk.injEq] at h
      obtain ⟨-, -, rfl, -⟩ := h
      exact .inl rfl

/-- Such a step keeps to the protocol. -/
theorem Concurrent.plain {s : Sys P} {e : Event P} (h : Concurrent s e) (hins : InsertsOffHeld s e)
    (hroom : UndoRoom s e) : Plain s e := by
  obtain ⟨hwork, h⟩ := h
  cases e with
  | update t p op key =>
    refine ⟨⟨h.1, fun x slot old new hop => ?_⟩, hroom, rfl⟩
    rcases DataOp.run_slot hop with htarget | ⟨data, rfl, hrec⟩
    · exact h.2 slot htarget
    · exact hins x slot hrec
  | newPage p d => exact ⟨h, hroom, rfl⟩
  | crash choice => cases hwork
  | recoverStep => cases hwork
  | ckptBegin => cases hwork
  | ckptSnapshot => cases hwork
  | ckptEnd => cases hwork
  | ckptForce p => cases hwork
  | ckptWrite => cases hwork
  | ckptFinish => cases hwork
  | _ => exact ⟨trivial, hroom, rfl⟩

/-- Work leaves the system where it is. -/
theorem mode_of_isWork {s s' : Sys P} {e : Event P} (he : e.isWork = true)
    (hs : step s e = some s') : s'.mode = s.mode := by
  cases e with
  | begin =>
    simp only [step, Option.ite_none_right_eq_some] at hs
    obtain rfl := Option.some.inj hs.2
    rfl
  | update t p op key =>
    simp only [step, Option.ite_none_right_eq_some, Sys.update] at hs
    obtain ⟨-, hs⟩ := hs
    split at hs
    · rw [Option.map_eq_some_iff] at hs
      obtain ⟨x, -, rfl⟩ := hs
      rfl
    · cases hs
  | commitLog t =>
    simp only [step, Option.ite_none_right_eq_some, Sys.commitLog] at hs
    obtain ⟨-, hs⟩ := hs
    split at hs
    · obtain rfl := Option.some.inj hs
      rfl
    · cases hs
  | commitForce t =>
    simp only [step, Option.ite_none_right_eq_some, Sys.commitForce] at hs
    obtain ⟨-, hs⟩ := hs
    split at hs
    · obtain rfl := Option.some.inj hs
      rfl
    · cases hs
  | commitEnd t =>
    simp only [step, Option.ite_none_right_eq_some, Sys.commitEnd] at hs
    obtain ⟨-, hs⟩ := hs
    split at hs
    · obtain rfl := Option.some.inj hs
      rfl
    · cases hs
  | abortLog t =>
    simp only [step, Option.ite_none_right_eq_some, Sys.abortLog] at hs
    obtain ⟨-, hs⟩ := hs
    split at hs
    · obtain rfl := Option.some.inj hs
      rfl
    · cases hs
  | abortStep t =>
    simp only [step, Option.ite_none_right_eq_some, Sys.abortStep] at hs
    obtain ⟨-, hs⟩ := hs
    split at hs
    · split at hs
      · obtain rfl := Option.some.inj hs
        rfl
      · split at hs
        · obtain rfl := Option.some.inj hs
          rfl
        · obtain rfl := Option.some.inj hs
          rfl
        · obtain rfl := Option.some.inj hs
          rfl
        · obtain rfl := Option.some.inj hs
          rfl
    · obtain rfl := Option.some.inj hs
      rfl
    · cases hs
  | abortEnd t =>
    simp only [step, Option.ite_none_right_eq_some, Sys.abortEnd] at hs
    obtain ⟨-, hs⟩ := hs
    split at hs
    · obtain rfl := Option.some.inj hs
      rfl
    · cases hs
  | newPage p d =>
    simp only [step, Option.ite_none_right_eq_some] at hs
    obtain rfl := Option.some.inj hs.2
    rfl
  | flushPage p =>
    simp only [step, Option.ite_none_right_eq_some] at hs
    obtain rfl := Option.some.inj hs.2
    exact (flushPage_lm s p).2
  | evict p =>
    simp only [step, Option.ite_none_right_eq_some] at hs
    obtain rfl := Option.some.inj hs.2
    exact (evict_lm s p).2
  | flushLog =>
    simp only [step, Option.ite_none_right_eq_some] at hs
    obtain rfl := Option.some.inj hs.2
    rfl
  | _ => cases he

end Rules

/-- **Committed records survive the aborts of others**, on any pages. -/
theorem read_of_not_pending [LawfulPageOps P] {s : Sys P}
    (hrun : Steps step (fun s e => Concurrent s e ∧ InsertsOffHeld s e ∧ UndoRoom s e) Sys.init s)
    {p slot : Nat} (h : ¬ Pending s.log p slot) :
    s.read p slot = committedContents s.log p slot := by
  have hplain : Steps step Plain Sys.init s :=
    hrun.imp fun _ _ he => he.1.plain he.2.1 he.2.2
  have hn : s.mode = .normal :=
    hrun.invariant (I := fun s => s.mode = .normal)
      (fun s e s' hn he hs => (mode_of_isWork he.1.1 hs).trans hn) rfl
  have hinv := (plain_inv hplain).1
  rw [hinv.read_eq hn]
  exact (hinv.hist.legit.slots.clean p slot h).symm

/-- **Committed records survive the aborts of others.** In every run of
transactions on shared pages whose inserts are handed no slot that another open
transaction has written, and whose undo steps have room, a slot that no open
transaction has written reads what was committed. -/
theorem committed_records_survive {s : Sys Page}
    (hrun : Steps step (fun s e => Concurrent s e ∧ InsertsOffHeld s e ∧ UndoRoom s e) Sys.init s)
    {p slot : Nat} (h : ¬ Pending s.log p slot) :
    s.read p slot = committedContents s.log p slot :=
  read_of_not_pending hrun h

-- ---------------------------------------------------------------------------
-- With and without a slot in common
-- ---------------------------------------------------------------------------

/-- `Concurrent`, decided. -/
def concurrentCheck [PageOps P] (s : Sys P) (e : Event P) : Bool :=
  e.isWork &&
  match e with
  | .update t p op _ =>
    inited (s.bm.page p) && op.target.all fun slot => !heldByOther s.log t p slot
  | .newPage p _ => s.log.all (·.body.page? != some p) && !decide (p ∈ s.bm.frames)
  | _ => true

theorem concurrent_of_check [PageOps P] {s : Sys P} {e : Event P}
    (h : concurrentCheck s e = true) : Concurrent s e := by
  cases e with
  | update t p op k =>
    simp only [concurrentCheck, Bool.and_eq_true] at h
    refine ⟨rfl, h.2.1, fun slot hslot => not_heldByOther_of_check ?_⟩
    have := h.2.2
    rw [hslot] at this
    simpa using this
  | newPage p d =>
    simp only [concurrentCheck, Bool.and_eq_true, List.all_eq_true, bne_iff_ne, Bool.not_eq_true',
      decide_eq_false_iff_not] at h
    exact ⟨rfl, h.2⟩
  | _ =>
    simp only [concurrentCheck, Bool.and_eq_true] at h
    exact ⟨h.1, trivial⟩

/-- `InsertsOffHeld`, decided. -/
def insertsOffHeldCheck [PageOps P] (s : Sys P) : Event P → Bool
  | .update t p (.insert data) _ =>
    (insertRecord (s.bm.page p) data 0).all fun x => !heldByOther s.log t p x.2
  | _ => true

theorem insertsOffHeld_of_check [PageOps P] {s : Sys P} {e : Event P}
    (h : insertsOffHeldCheck s e = true) : InsertsOffHeld s e := by
  cases e with
  | update t p op k =>
    cases op with
    | insert data =>
      intro x slot hins
      refine not_heldByOther_of_check ?_
      rw [insertsOffHeldCheck, hins] at h
      simpa using h
    | _ => trivial
  | _ => trivial

/-- When every transaction of the log has ended, nothing is pending. -/
theorem not_pending_of_ended {log : List Record} (h : ∀ r ∈ log, active log r.txnId = none)
    (p slot : Nat) : ¬ Pending log p slot := by
  rintro ⟨t, v, u, o, hv, -⟩
  by_cases ht : ∃ r ∈ log, r.txnId = t
  · obtain ⟨r, hr, rfl⟩ := ht
    rw [h r hr] at hv
    cases hv
  · rw [active_eq_none fun r hr heq => ht ⟨r, hr, heq⟩] at hv
    cases hv

/-- A record is committed; one transaction does `op` on it, another inserts a
record and commits, then the first aborts. -/
def abortAround (op : DataOp) : List (Event Page) :=
  [.begin, .newPage 0 true, .update 0 0 (.insert [1]) 0, .commitLog 0, .commitForce 0, .commitEnd 0,
    .begin, .update 1 0 op 0,
    .begin, .update 2 0 (.insert [2]) 0, .commitLog 2, .commitForce 2, .commitEnd 2,
    .abortLog 1, .abortStep 1, .abortStep 1, .abortEnd 1]

theorem insert_survives_abort_of_update :
    (run step (fun s e => concurrentCheck s e && insertsOffHeldCheck s e && undoRoomCheck s e)
      Sys.init (abortAround (.update 0 [3]))).1.read 0 1 = some [2] := by
  have hrun : Steps step (fun s e => Concurrent s e ∧ InsertsOffHeld s e ∧ UndoRoom s e) Sys.init
      (run step (fun s e => concurrentCheck s e && insertsOffHeldCheck s e && undoRoomCheck s e)
        Sys.init (abortAround (.update 0 [3]))).1 := by
    refine Steps.of_run (fun s e h => ?_) (by decide +kernel)
    simp only [Bool.and_eq_true] at h
    exact ⟨concurrent_of_check h.1.1, insertsOffHeld_of_check h.1.2, undoRoom_of_check h.2⟩
  rw [committed_records_survive hrun (not_pending_of_ended (by decide +kernel) 0 1)]
  decide +kernel

/-- The insert is handed the slot of the deleted record, and the abort of the
delete puts the old record back over the committed one. -/
theorem reused_slot_overwritten :
    Steps step (fun s e => Concurrent s e ∧ UndoRoom s e) Sys.init
      (run step (fun s e => concurrentCheck s e && undoRoomCheck s e) Sys.init
        (abortAround (.delete 0))).1 ∧
    ¬ Pending (run step (fun s e => concurrentCheck s e && undoRoomCheck s e) Sys.init
        (abortAround (.delete 0))).1.log 0 0 ∧
    committedContents (run step (fun s e => concurrentCheck s e && undoRoomCheck s e) Sys.init
        (abortAround (.delete 0))).1.log 0 0 = some [2] ∧
    (run step (fun s e => concurrentCheck s e && undoRoomCheck s e) Sys.init
        (abortAround (.delete 0))).1.read 0 0 = some [1] := by
  refine ⟨Steps.of_run (fun s e h => ?_) (by decide +kernel),
    not_pending_of_ended (by decide +kernel) 0 0, by decide +kernel, by decide +kernel⟩
  simp only [Bool.and_eq_true] at h
  exact ⟨concurrent_of_check h.1, undoRoom_of_check h.2⟩

end PersistX
