import PersistX.Aries.Runs
import PersistX.Page.SlotPage

/-!
# PersistX — recovery can be interrupted

A recovery that is cut off by a crash, at any point of any pass and any number
of times, is finished by the next one: pages are slot maps here, so what an
undo step restores always has room.

Main result: `recover_after_interruptions` — after any interruptions,
`recover()` ends with the contents an uninterrupted one gives, and every
transaction that ever began has its COMMIT or TXN_END in the log file.
-/

namespace PersistX

open PageOps LawfulPageOps Transition

variable {P : Type}

/-- What can happen to a system that is being recovered: steps of `recover()`,
flushes and evictions, and a crash. -/
def Event.isRecovery : Event P → Bool
  | .recoverStep => true
  | .flushPage _ => true
  | .evict _ => true
  | .flushLog => true
  | .crash _ => true
  | _ => false

/-- A step of a recovery that may be interrupted. -/
def Interrupted [PageOps P] (s : Sys P) (e : Event P) : Prop :=
  Protocol s e ∧ e.isRecovery = true

/-- What every moment of an interrupted recovery has in common with the state
`recover()` was first called on. -/
structure Resumes [LawfulPageOps P] (file : List Record) (s : Sys P) : Prop where
  inv : Inv True s
  noEnd : NoEnd s.log
  settled : s.mode = .normal → Settled s
  grown : ∃ l, s.log = file ++ l ∧ UndoOnly l
  durable : file.length ≤ s.lm.file.length

section Generic

variable [LawfulPageOps P] {file : List Record}

/-- Writing out the log buffer changes nothing that matters here. -/
theorem Resumes.of_flush {s s' : Sys P} (h : Resumes file s) (hinv : Inv True s')
    (hlm : s'.lm = s.lm ∨ s'.lm = s.lm.flushAll) (hmode : s'.mode = s.mode) : Resumes file s' := by
  have hlog : s'.log = s.log := LogManager.log_eq_of_flush hlm
  refine ⟨hinv, by rw [hlog]; exact h.noEnd, fun hn => ?_, by rw [hlog]; exact h.grown, ?_⟩
  · obtain ⟨hnone, hbuf⟩ := h.settled (hmode.symm.trans hn)
    refine ⟨fun t => by rw [hlog]; exact hnone t, ?_⟩
    rcases hlm with hlm | hlm
    · rw [hlm, hbuf]
    · rw [hlm, LogManager.flushAll_buffer]
  · refine Nat.le_trans h.durable ?_
    rcases hlm with hlm | hlm
    · exact Nat.le_of_eq (by rw [hlm])
    · rw [hlm, LogManager.flushAll_file]
      exact LogManager.length_file_le

/-- A crash keeps all of the log file, and so all that was there before recovery began. -/
theorem Resumes.crash {s : Sys P} {choice : Nat → P} (h : Resumes file s)
    (hprot : Protocol s (.crash choice)) : Resumes file (s.crash choice) := by
  have hok : Ok True s (.crash choice) := Plain.ok ⟨hprot, trivial, rfl⟩ h.noEnd
  have hlog : (s.crash choice).log = s.lm.file := List.append_nil _
  refine ⟨h.inv.crash hok, ?_, fun hn => (by cases hn), ?_, h.durable⟩
  · rw [hlog]
    exact fun r hr => h.noEnd r (List.mem_append_left _ hr)
  · obtain ⟨l, hl, hundo⟩ := h.grown
    have hpre : file <+: s.lm.file := by
      refine List.prefix_of_prefix_length_le ⟨l, hl.symm⟩ ⟨s.lm.buffer, rfl⟩ h.durable
    obtain ⟨l', hl'⟩ := hpre
    refine ⟨l', by rw [hlog, hl'], fun r hr => hundo r ?_⟩
    have : file ++ l = file ++ (l' ++ s.lm.buffer) := by
      rw [← hl, ← List.append_assoc, hl']
      rfl
    rw [List.append_cancel_left this]
    exact List.mem_append_left _ hr

theorem Resumes.recoverStep {s : Sys P} (h : Resumes file s) (hroom : UndoRoom s .recoverStep) :
    Resumes file s.recoverStep := by
  obtain ⟨l', hl', hundo'⟩ := h.inv.recoverStep_log
  obtain ⟨l, hl, hundo⟩ := h.grown
  refine ⟨h.inv.recoverStep hroom, ?_, h.inv.recoverStep_settled hroom h.settled,
    ⟨l ++ l', by rw [hl', hl, List.append_assoc], fun r hr => ?_⟩, ?_⟩
  · rw [hl']
    intro r hr
    rcases List.mem_append.mp hr with hr | hr
    · exact h.noEnd r hr
    · exact hundo'.noEnd r hr
  · rcases List.mem_append.mp hr with hr | hr
    · exact hundo r hr
    · exact hundo' r hr
  · exact Nat.le_trans h.durable (length_file_recoverStep s)

/-- **One step of an interrupted recovery.** -/
theorem Resumes.step {s s' : Sys P} {e : Event P} (h : Resumes file s) (he : Interrupted s e)
    (hroom : UndoRoom s e) (hs : PersistX.step s e = some s') : Resumes file s' := by
  obtain ⟨hprot, hrec⟩ := he
  have hck : e.isCkpt = false := by cases e <;> first | rfl | cases hrec
  have hinv : Inv True s' := h.inv.step (Plain.ok ⟨hprot, hroom, hck⟩ h.noEnd) hs
  cases e with
  | recoverStep =>
    simp only [PersistX.step, Option.ite_none_left_eq_some] at hs
    obtain rfl := Option.some.inj hs.2
    exact h.recoverStep hroom
  | flushPage p =>
    simp only [PersistX.step, Option.ite_none_right_eq_some] at hs
    obtain rfl := Option.some.inj hs.2
    exact h.of_flush hinv (flushPage_lm s p).1 (flushPage_lm s p).2
  | evict p =>
    simp only [PersistX.step, Option.ite_none_right_eq_some] at hs
    obtain rfl := Option.some.inj hs.2
    exact h.of_flush hinv (evict_lm s p).1 (evict_lm s p).2
  | flushLog =>
    simp only [PersistX.step, Option.ite_none_right_eq_some] at hs
    obtain rfl := Option.some.inj hs.2
    exact h.of_flush hinv (Or.inr rfl) rfl
  | crash choice =>
    obtain rfl := Option.some.inj hs
    exact h.crash hprot
  | _ => cases hrec

end Generic

-- ---------------------------------------------------------------------------
-- Pages as slot maps
-- ---------------------------------------------------------------------------

/-- On slot maps there is room for every undo step. -/
theorem SlotPage.undoRoom (s : Sys SlotPage) (e : Event SlotPage) : UndoRoom s e := by
  have hroom : ∀ u, RoomAt s u := by
    intro u r p slot old new k _ _
    rw [undoFits]
    split
    · rfl
    · split
      · rfl
      · rw [overwriteFits]
        split <;> rfl
  cases e with
  | abortStep t => exact fun _ u _ => hroom u
  | recoverStep => exact fun _ _ u _ _ => hroom u
  | _ => trivial

/-- **Recovery can be interrupted.** Start from any durable state that
transactions and a crash can leave, and interrupt `recover()` by crashes as
often as you like. Running it to the end then gives the reads of an
uninterrupted run, and every transaction in the log file has ended. -/
theorem recover_after_interruptions {s₀ s : Sys SlotPage}
    (hrun : Steps step Transactions Sys.init s₀) (hdown : s₀.mode = .down)
    (hint : Steps step Interrupted s₀ s) :
    ∃ m n, (Sys.recoverStep^[m] s₀).mode = .normal ∧ (Sys.recoverStep^[n] s).mode = .normal ∧
      (∀ p slot, (Sys.recoverStep^[n] s).read p slot = (Sys.recoverStep^[m] s₀).read p slot) ∧
      ∀ (i : Nat) (r : Record), (Sys.recoverStep^[n] s).lm.file[i]? = some r → r.body = .begin →
        ∃ (j : Nat) (r' : Record), i < j ∧ (Sys.recoverStep^[n] s).lm.file[j]? = some r' ∧
          r'.txnId = r.txnId ∧ (r'.body = .commit ∨ r'.body = .txnEnd) := by
  have hplain : Steps step Plain Sys.init s₀ :=
    hrun.imp fun s e he => ⟨he.1, SlotPage.undoRoom s e, he.2⟩
  obtain ⟨hinv, hno⟩ := plain_inv hplain
  have hm := hinv.mode
  rw [ModeInv, hdown] at hm
  have hlog : s₀.log = s₀.lm.file := by
    show s₀.lm.file ++ s₀.lm.buffer = _
    rw [hm.2, List.append_nil]
  have hstart : Resumes s₀.lm.file s₀ :=
    ⟨hinv, hno, fun hn => (by rw [hdown] at hn; cases hn),
      ⟨[], by rw [hlog, List.append_nil], fun r hr => (by cases hr)⟩, Nat.le_refl _⟩
  have hend : Resumes s₀.lm.file s :=
    hint.invariant (fun s e s' h he hs => h.step he (SlotPage.undoRoom s e) hs) hstart
  -- both recoveries end in the committed contents of the log file `recover()` was first given
  have hdone : ∀ {x : Sys SlotPage}, Resumes s₀.lm.file x →
      ∃ n, (Sys.recoverStep^[n] x).mode = .normal ∧
        (∀ p slot, (Sys.recoverStep^[n] x).read p slot = committedContents s₀.lm.file p slot) ∧
        ∀ t, active (Sys.recoverStep^[n] x).lm.file t = none := by
    intro x hx
    have hrec : Recovering True x := ⟨hx.inv, fun i => SlotPage.undoRoom _ _, hx.settled⟩
    obtain ⟨n, hn⟩ := hrec.terminates
    obtain ⟨hnone, hbuf⟩ := (hrec.iterate n).settled hn
    have hfile : (Sys.recoverStep^[n] x).log = (Sys.recoverStep^[n] x).lm.file := by
      show (Sys.recoverStep^[n] x).lm.file ++ (Sys.recoverStep^[n] x).lm.buffer = _
      rw [hbuf, List.append_nil]
    obtain ⟨l, hl, hundo⟩ := hrec.iterate_log n
    obtain ⟨l', hl', hundo'⟩ := hx.grown
    refine ⟨n, hn, fun p slot => ?_, fun t => by rw [← hfile]; exact hnone t⟩
    rw [(hrec.iterate n).read_eq hn, ← hfile, hl, committedContents_append hundo.commitFree, hl',
      committedContents_append hundo'.commitFree]
  obtain ⟨m, hm, hread, -⟩ := hdone hstart
  obtain ⟨n, hn, hread', hnone⟩ := hdone hend
  refine ⟨m, n, hm, hn, fun p slot => by rw [hread, hread'], fun i r hr hb => ?_⟩
  exact ended_of_active_none (hnone r.txnId) i r hr rfl hb

/-- A loser with one insert is in the log file when the system crashes. -/
def lostInsert : Sys SlotPage :=
  let s := ((Sys.init.begin.newPage 0 true).update 0 0 (.insert [7]) 0).getD Sys.init
  { s with lm := s.lm.flushAll }.crash fun _ => PageOps.zero

/-- Its recovery is cut off when the CLR is in the log file and the page is not. -/
def lostUndo : Sys SlotPage :=
  let s := Sys.recoverStep^[5] lostInsert
  { s with lm := s.lm.flushAll }.crash fun _ => PageOps.zero

theorem recover_after_crash_in_undo :
    lostInsert.lm.file.map (·.body) = [.begin, .update 0 0 [] [7] 0] ∧
    lostUndo.lm.file.map (·.body) = [.begin, .update 0 0 [] [7] 0, .clr 0 0 [] (some 0)] ∧
    ∃ m n, (Sys.recoverStep^[m] lostInsert).mode = .normal ∧
      (Sys.recoverStep^[n] lostUndo).mode = .normal ∧
      (∀ p slot, (Sys.recoverStep^[n] lostUndo).read p slot =
        (Sys.recoverStep^[m] lostInsert).read p slot) ∧
      ∀ (i : Nat) (r : Record), (Sys.recoverStep^[n] lostUndo).lm.file[i]? = some r →
        r.body = .begin → ∃ (j : Nat) (r' : Record), i < j ∧
          (Sys.recoverStep^[n] lostUndo).lm.file[j]? = some r' ∧
          r'.txnId = r.txnId ∧ (r'.body = .commit ∨ r'.body = .txnEnd) := by
  have hrun : Steps step Transactions Sys.init lostInsert := by
    have h1 : Steps step Transactions (Sys.init : Sys SlotPage) Sys.init.begin :=
      Steps.refl.next .begin ⟨trivial, rfl⟩ rfl
    have h2 := h1.next (.newPage 0 true) ⟨⟨by decide, by decide⟩, rfl⟩ rfl
    have h3 := h2.next (.update 0 0 (.insert [7]) 0)
      ⟨⟨rfl, fun _ _ _ _ _ => not_heldByOther (by decide) _ _⟩, rfl⟩ rfl
    have h4 := h3.next .flushLog ⟨trivial, rfl⟩ rfl
    exact h4.next (.crash fun _ => PageOps.zero) ⟨fun _ => Or.inr rfl, rfl⟩ rfl
  have hint : Steps step Interrupted lostInsert lostUndo := by
    have h1 : Steps step Interrupted lostInsert lostInsert.recoverStep :=
      Steps.refl.next .recoverStep ⟨trivial, rfl⟩ rfl
    have h2 := h1.next .recoverStep ⟨trivial, rfl⟩ rfl
    have h3 := h2.next .recoverStep ⟨trivial, rfl⟩ rfl
    have h4 := h3.next .recoverStep ⟨trivial, rfl⟩ rfl
    have h5 := h4.next .recoverStep ⟨trivial, rfl⟩ rfl
    have h6 := h5.next .flushLog ⟨trivial, rfl⟩ rfl
    exact h6.next (.crash fun _ => PageOps.zero) ⟨fun _ => Or.inr rfl, rfl⟩ rfl
  exact ⟨by decide, by decide, recover_after_interruptions hrun rfl hint⟩

end PersistX
