import PersistX.Aries.Runs
import PersistX.Page.Laws

/-!
# PersistX — crash atomicity and durability on byte pages

Transactions on the 4096 bytes of real pages, a crash at any step, and
`recover()`. What the pages hold afterwards is what the committed transactions
of the log file wrote, as long as every before-image that an undo step puts
back has room on its page (`UndoRoom`): `redo_insert` writes at
`free_space_ptr` without looking where the slot directory begins.

Main results: `recover_gives_committed`, for every run whose undo steps have
room, and `undo_overruns_directory`, a run where one does not.
-/

namespace PersistX

open PageOps LawfulPageOps Transition

/-- **Crash atomicity and durability.** After any run of transactions, flushes
and evictions that a crash has ended, `recover()` comes to an end and every
slot reads as the transactions with a COMMIT in the log file left it, provided
that each undo step, before the crash and in recovery, has room for what it
puts back. -/
theorem recover_gives_committed {s : Sys Page} (hrun : Steps step Plain Sys.init s)
    (hdown : s.mode = .down) (hroom : ∀ i, UndoRoom (Sys.recoverStep^[i] s) .recoverStep) :
    ∃ n, (Sys.recoverStep^[n] s).mode = .normal ∧
      ∀ p slot, (Sys.recoverStep^[n] s).read p slot = committedContents s.lm.file p slot := by
  exact (plain_inv hrun).1.recovers_down hdown hroom

-- ---------------------------------------------------------------------------
-- With and without room
-- ---------------------------------------------------------------------------

/-- A committed transaction fills page 0 with two records, and one that is
still open has deleted the first of them when the system crashes. -/
def deleteOnPage (first second : Bytes) : List (Event Page) :=
  [.begin, .newPage 0 true, .update 0 0 (.insert first) 0, .update 0 0 (.insert second) 0,
    .commitLog 0, .commitForce 0, .begin, .update 1 0 (.delete 0) 0, .flushLog]

/-- The system after the crash; page 0 never reached the disk. -/
def afterDelete (check : Sys Page → Event Page → Bool) (first second : Bytes) : Sys Page :=
  (run step check Sys.init (deleteOnPage first second)).1.crash fun _ => Page.zero

/-- On a page with space left the deleted record comes back. -/
theorem recover_undoes_delete :
    ∃ n, (Sys.recoverStep^[n] (afterDelete plainCheck [1] [2])).mode = .normal ∧
      ∀ p slot, (Sys.recoverStep^[n] (afterDelete plainCheck [1] [2])).read p slot =
        committedContents (afterDelete plainCheck [1] [2]).lm.file p slot := by
  have hrun : Steps step Plain Sys.init (afterDelete plainCheck [1] [2]) := by
    have h : Steps step Plain Sys.init (run step plainCheck Sys.init (deleteOnPage [1] [2])).1 :=
      Steps.of_run plain_of_check (by decide +kernel)
    exact h.next (.crash fun _ => Page.zero) ⟨fun _ => Or.inr rfl, trivial, rfl⟩ rfl
  have hn : (Sys.recoverStep^[13] (afterDelete plainCheck [1] [2])).mode = .normal :=
    Mode.eq_normal (by decide +kernel)
  exact recover_gives_committed hrun rfl (undoRoom_of_normal hn (by decide +kernel))

/-- `Transactions`, decided, up to a crash. -/
def transactionsCheck (s : Sys Page) (e : Event Page) : Bool := protocolCheck s e && !e.isCkpt

/-- The record that goes first onto the page. -/
def shortRecord : Bytes := List.replicate 8 1

/-- The record that takes all the space it leaves. -/
def longRecord : Bytes := List.replicate 4051 2

/-- On a full page the undo of the delete writes over the slot directory, and
the record that recovery gives back is not the one that was committed. -/
theorem undo_overruns_directory :
    Steps step Transactions Sys.init (afterDelete transactionsCheck shortRecord longRecord) ∧
    (afterDelete transactionsCheck shortRecord longRecord).mode = .down ∧
    (Sys.recoverStep^[13] (afterDelete transactionsCheck shortRecord longRecord)).mode = .normal ∧
    (Sys.recoverStep^[13] (afterDelete transactionsCheck shortRecord longRecord)).read 0 0 =
      some [1, 1, 1, 1, 244, 15, 0, 0] ∧
    (Sys.recoverStep^[13] (afterDelete transactionsCheck shortRecord longRecord)).read 0 0 ≠
      committedContents (afterDelete transactionsCheck shortRecord longRecord).lm.file 0 0 := by
  refine ⟨?_, rfl, Mode.eq_normal (by decide +kernel), by decide +kernel, by decide +kernel⟩
  have hcheck : ∀ s e, transactionsCheck s e = true → Transactions s e := by
    intro s e h
    simp only [transactionsCheck, Bool.and_eq_true, Bool.not_eq_true'] at h
    exact ⟨protocol_of_check h.1, h.2⟩
  have h : Steps step Transactions Sys.init
      (run step transactionsCheck Sys.init (deleteOnPage shortRecord longRecord)).1 :=
    Steps.of_run hcheck (by decide +kernel)
  exact h.next (.crash fun _ => Page.zero) ⟨fun _ => Or.inr rfl, rfl⟩ rfl

end PersistX
