import PersistX.Aries.Runs
import PersistX.Page.Laws

/-!
# PersistX — a crash inside a checkpoint

`checkpoint()` appends CHECKPOINT_END, with the `page_lsn` of each dirty page
as its `rec_lsn`, and only then writes the dirty pages. The log flush that
`enforce_wal` forces for one of them takes CHECKPOINT_END to the file while the
others still wait. From then on recovery starts behind CHECKPOINT_END, and what
a waiting page misses below its `rec_lsn` is lost when the system crashes.

Main results: `crash_in_checkpoint_recovers`, for the runs in which no such
flush comes while a dirty page misses more than its last update (`CkptSafe`),
and `checkpoint_loses_update`, a run in which one does.
-/

namespace PersistX

open PageOps LawfulPageOps Transition

variable {P : Type}

/-- A step of transactions that keep to the protocol, with checkpoints and a
crash anywhere in them; page writes are durable at once. -/
def Durably [PageOps P] (s : Sys P) (e : Event P) : Prop := Protocol s e ∧ DurableWrites s e

/-- Such a step, where the forced flushes of a checkpoint do no harm and undo steps have room. -/
def Safely [PageOps P] (s : Sys P) (e : Event P) : Prop :=
  Durably s e ∧ UndoRoom s e ∧ CkptSafe s e

section Generic

variable [LawfulPageOps P]

theorem safely_inv {s : Sys P} (h : Steps step Safely Sys.init s) : Inv True s := by
  refine h.invariant (I := Inv True) ?_ Inv.init
  rintro s e s' hinv ⟨⟨hprot, hdur⟩, hroom, hsafe⟩ hs
  exact hinv.step ⟨hprot, hroom, Or.inr hdur, fun _ _ => Or.inl trivial, fun _ => hsafe⟩ hs

/-- A durable CHECKPOINT_END carries no `rec_lsn` above an update that the disk image misses. -/
theorem Inv.recLsn_le {s : Sys P} (h : Inv True s) {e j p l : Nat} {r r' : Record}
    {a d : List (Nat × Nat)} (hr : s.lm.file[e]? = some r) (hb : r.body = .checkpointEnd a d)
    (hl : (toTable d).lookup p = some l) (hr' : s.log[j]? = some r')
    (hp : r'.body.page? = some p) (hmiss : pageLsn (s.bm.readPage p) < j) : l ≤ j := by
  have hlog : s.log[e]? = some r := getElem?_append_of_some hr
  have he : e < s.lm.file.length := (List.getElem?_eq_some_iff.mp hr).1
  have hle : l ≤ e := by
    have := ((h.hist.rule_at hlog).ckpt a d hb).2 p l hl
    rw [List.length_take] at this
    omega
  rcases Nat.lt_or_ge e j with hej | hje
  · omega
  -- the update came before the checkpoint: the DPT must not filter it out
  · have hcov := h.redo (Or.inl trivial) (e + 1) he p
    have htake : s.lm.file.take (e + 1) = s.lm.file.take e ++ [r] := by
      rw [List.take_add_one, hr, Option.toList_some]
    have hj : (s.lm.file.take (e + 1))[j]? = some r' := by
      have hfile : s.lm.file[j]? = some r' := by
        rw [← hr']
        exact (List.getElem?_append_left (by omega)).symm
      rw [List.getElem?_take, if_pos (by omega), hfile]
    by_contra hlt
    have := hcov j r' hj hp (by
      rw [htake, analyze_append_end hb]
      intro l' hl'
      obtain rfl := Option.some.inj (hl.symm.trans hl')
      omega)
    omega

end Generic

/-- **A crash inside a checkpoint.** In every run whose checkpoints force the
log only while the dirty pages miss no more than their last update, and whose
undo steps have room: a durable CHECKPOINT_END carries, for each page, no
`rec_lsn` above a logged update that the page's disk image misses; and after a
crash at any point `recover()` comes to an end with every slot as the committed
transactions of the log file left it. -/
theorem crash_in_checkpoint_recovers {s : Sys Page} (hrun : Steps step Safely Sys.init s) :
    (∀ (e j p l : Nat) (r r' : Record) (a d : List (Nat × Nat)), s.lm.file[e]? = some r →
      r.body = .checkpointEnd a d → (toTable d).lookup p = some l → s.log[j]? = some r' →
      r'.body.page? = some p → pageLsn (s.bm.readPage p) < j → l ≤ j) ∧
    (s.mode = .down → (∀ i, UndoRoom (Sys.recoverStep^[i] s) .recoverStep) →
      ∃ n, (Sys.recoverStep^[n] s).mode = .normal ∧
        ∀ p slot, (Sys.recoverStep^[n] s).read p slot = committedContents s.lm.file p slot) := by
  have hinv := safely_inv hrun
  refine ⟨fun e j p l r r' a d hr hb hl hr' hp hmiss => hinv.recLsn_le hr hb hl hr' hp hmiss, ?_⟩
  intro hdown hroom
  exact hinv.recovers_down hdown hroom

-- ---------------------------------------------------------------------------
-- A safe and an unsafe checkpoint
-- ---------------------------------------------------------------------------

/-- A transaction commits inserts into page 1, another one then inserts into
page 0, and a checkpoint has forced the log for page 0 but written no page. -/
def halfCheckpoint (committed : List Bytes) : List (Event Page) :=
  [.begin, .newPage 0 true, .newPage 1 true] ++
    committed.map (fun data => .update 0 1 (.insert data) 0) ++
    [.commitLog 0, .commitForce 0, .commitEnd 0, .begin, .update 1 0 (.insert [3]) 0,
      .ckptBegin, .ckptSnapshot, .ckptEnd, .ckptForce 0]

/-- The system when it crashes there. -/
def afterHalfCheckpoint (check : Sys Page → Event Page → Bool) (committed : List Bytes) : Sys Page :=
  let s := (run step check Sys.init (halfCheckpoint committed)).1
  s.crash s.bm.readPage

theorem durably_of_check {s : Sys Page} {e : Event Page} (h : protocolCheck s e = true) :
    Durably s e :=
  ⟨protocol_of_check h, by cases e with
    | crash choice => cases h
    | _ => trivial⟩

/-- `Safely`, decided, up to a crash. -/
def safelyCheck (s : Sys Page) (e : Event Page) : Bool :=
  protocolCheck s e && undoRoomCheck s e && ckptSafeCheck s e

theorem safely_of_check (s : Sys Page) (e : Event Page) (h : safelyCheck s e = true) :
    Safely s e := by
  simp only [safelyCheck, Bool.and_eq_true] at h
  exact ⟨durably_of_check h.1.1, undoRoom_of_check h.1.2, ckptSafe_of_check h.2⟩

/-- One committed insert: CHECKPOINT_END is durable, page 1 is not, and nothing is lost. -/
theorem half_checkpoint_recovers :
    (lastCheckpoint (afterHalfCheckpoint safelyCheck [[1]]).lm.file).isSome = true ∧
    ∃ n, (Sys.recoverStep^[n] (afterHalfCheckpoint safelyCheck [[1]])).mode = .normal ∧
      ∀ p slot, (Sys.recoverStep^[n] (afterHalfCheckpoint safelyCheck [[1]])).read p slot =
        committedContents (afterHalfCheckpoint safelyCheck [[1]]).lm.file p slot := by
  have hrun : Steps step Safely Sys.init (afterHalfCheckpoint safelyCheck [[1]]) := by
    have h : Steps step Safely Sys.init (run step safelyCheck Sys.init (halfCheckpoint [[1]])).1 :=
      Steps.of_run safely_of_check (by decide +kernel)
    exact h.next (.crash _) ⟨⟨BufferManager.readPage_mem _, rfl⟩, trivial, trivial⟩ rfl
  have hn : (Sys.recoverStep^[16] (afterHalfCheckpoint safelyCheck [[1]])).mode = .normal :=
    Mode.eq_normal (by decide +kernel)
  exact ⟨by decide +kernel,
    (crash_in_checkpoint_recovers hrun).2 rfl (undoRoom_of_normal hn (by decide +kernel))⟩

/-- Two committed inserts: CHECKPOINT_END is durable with the second one's LSN
as the `rec_lsn` of page 1, the first one is missing from the disk image, and
recovery does not bring it back. -/
theorem checkpoint_loses_update :
    Steps step Durably Sys.init (afterHalfCheckpoint protocolCheck [[1], [2]]) ∧
    (afterHalfCheckpoint protocolCheck [[1], [2]]).mode = .down ∧
    (afterHalfCheckpoint protocolCheck [[1], [2]]).lm.file[8]?.map Record.body =
      some (.checkpointEnd [(1, 6)] [(0, 6), (1, 2)]) ∧
    (afterHalfCheckpoint protocolCheck [[1], [2]]).lm.file[1]?.map Record.body =
      some (.update 1 0 [] [1] 0) ∧
    pageLsn ((afterHalfCheckpoint protocolCheck [[1], [2]]).bm.readPage 1) = 0 ∧
    committedContents (afterHalfCheckpoint protocolCheck [[1], [2]]).lm.file 1 0 = some [1] ∧
    (Sys.recoverStep^[17] (afterHalfCheckpoint protocolCheck [[1], [2]])).mode = .normal ∧
    (Sys.recoverStep^[17] (afterHalfCheckpoint protocolCheck [[1], [2]])).read 1 0 = none := by
  refine ⟨?_, rfl, by decide +kernel, by decide +kernel, by decide +kernel, by decide +kernel,
    Mode.eq_normal (by decide +kernel), by decide +kernel⟩
  have h : Steps step Durably Sys.init
      (run step protocolCheck Sys.init (halfCheckpoint [[1], [2]])).1 :=
    Steps.of_run (fun _ _ => durably_of_check) (by decide +kernel)
  exact h.next (.crash _) ⟨BufferManager.readPage_mem _, rfl⟩ rfl

end PersistX
