import PersistX.Aries.Interruption

/-!
# PersistX — recovery from a completed checkpoint

Runs in which every checkpoint is executed to its end and every `write_page`
is durable at once. After a crash, analysis may start behind the last
CHECKPOINT_END, with the tables that record carries, or at the first record
with empty tables: the ATT is the same, and so is what every slot reads after
redo and undo.

Main result: `recover_from_checkpoint_eq_full`.
-/

namespace PersistX

open PageOps LawfulPageOps Transition

/-- A step of transactions that keep to the protocol, with checkpoints that are
not cut off by a crash and page writes that are durable at once. -/
def Checkpointed {P : Type} [PageOps P] (s : Sys P) (e : Event P) : Prop :=
  Protocol s e ∧ DurableWrites s e ∧ ∀ choice, e = .crash choice → s.ckpt = .idle

/-- The tables of an analysis that starts at the first record with empty ones. -/
def analyzeFull (records : List Record) : Table × Table := records.foldl analysisStep (∅, ∅)

theorem checkpointed_inv {s : Sys SlotPage} (h : Steps step Checkpointed Sys.init s) :
    Inv False s := by
  refine h.invariant (I := Inv False) ?_ Inv.init
  rintro s e s' hinv ⟨hprot, hdur, hwhole⟩ hs
  exact hinv.step ⟨hprot, SlotPage.undoRoom s e, Or.inr hdur, fun c hc => Or.inr (hwhole c hc),
    fun hf => hf.elim⟩ hs

/-- **Recovery from a completed checkpoint equals recovery from the whole log.** -/
theorem recover_from_checkpoint_eq_full {s : Sys SlotPage}
    (hrun : Steps step Checkpointed Sys.init s) (hdown : s.mode = .down) :
    (∀ t, (analyze s.lm.file).1.lookup t = (analyzeFull s.lm.file).1.lookup t) ∧
    ∃ m n, (Sys.recoverStep^[m] (s.startRecovery (analyze s.lm.file))).mode = .normal ∧
      (Sys.recoverStep^[n] (s.startRecovery (analyzeFull s.lm.file))).mode = .normal ∧
      ∀ p slot, (Sys.recoverStep^[m] (s.startRecovery (analyze s.lm.file))).read p slot =
        (Sys.recoverStep^[n] (s.startRecovery (analyzeFull s.lm.file))).read p slot := by
  have hinv := checkpointed_inv hrun
  have hist : History (SysRule SlotPage) s.lm.file := hinv.hist.of_append
  obtain ⟨hatt, hcov⟩ := hinv.analyze_ok hdown
  have hfull : AttExact (analyzeFull s.lm.file).1 s.lm.file := scan_attExact SysRule.lifecycle hist
  refine ⟨fun t => by rw [hatt t, hfull t], ?_⟩
  -- both start states keep the invariant, and both lead to the committed contents of the file
  have hends : ∀ tables : Table × Table, Inv False (s.startRecovery tables) →
      ∃ n, (Sys.recoverStep^[n] (s.startRecovery tables)).mode = .normal ∧
        ∀ p slot, (Sys.recoverStep^[n] (s.startRecovery tables)).read p slot =
          committedContents s.lm.file p slot := by
    intro tables h
    obtain ⟨n, hn, hread, -⟩ := h.recovers (by simp [Sys.startRecovery])
      fun i => SlotPage.undoRoom _ _
    have hlog : (s.startRecovery tables).log = s.lm.file := List.append_nil _
    exact ⟨n, hn, fun p slot => by rw [hread, hlog]⟩
  obtain ⟨m, hm, hread⟩ := hends _ (hinv.startRecovery hdown hatt hcov)
  obtain ⟨n, hn, hread'⟩ := hends _ (hinv.startRecovery hdown hfull fun p =>
    (scan_covers SysRule.lifecycle hist p _).1)
  exact ⟨m, n, hm, hn, fun p slot => by rw [hread, hread']⟩

/-- An open transaction has inserted a record when a checkpoint is taken and the system crashes. -/
def checkpointedInsert : Sys SlotPage :=
  let s := ((Sys.init.begin.newPage 0 true).update 0 0 (.insert [7]) 0).getD Sys.init
  let s := (s.ckptBegin.ckptSnapshot).ckptEnd [(0, 1)] [(0, 1)]
  let s := ((s.ckptForce 3 0 ⟨⟨[some [7]], 1⟩, true⟩).ckptWrite 3 0 ⟨⟨[some [7]], 1⟩, true⟩).ckptFinish 3
  s.crash s.bm.readPage

theorem recover_from_checkpoint_with_loser :
    lastCheckpoint checkpointedInsert.lm.file = some ([(0, 1)], [(0, 1)], []) ∧
    (∀ t, (analyze checkpointedInsert.lm.file).1.lookup t =
      (analyzeFull checkpointedInsert.lm.file).1.lookup t) ∧
    ∃ m n,
      (Sys.recoverStep^[m] (checkpointedInsert.startRecovery
        (analyze checkpointedInsert.lm.file))).mode = .normal ∧
      (Sys.recoverStep^[n] (checkpointedInsert.startRecovery
        (analyzeFull checkpointedInsert.lm.file))).mode = .normal ∧
      ∀ p slot,
        (Sys.recoverStep^[m] (checkpointedInsert.startRecovery
          (analyze checkpointedInsert.lm.file))).read p slot =
        (Sys.recoverStep^[n] (checkpointedInsert.startRecovery
          (analyzeFull checkpointedInsert.lm.file))).read p slot := by
  have hcrash : ∀ {e : Event SlotPage}, (∀ c, e ≠ .crash c) → ∀ {s : Sys SlotPage} c,
      e = .crash c → s.ckpt = .idle := fun hne _ c hc => absurd hc (hne c)
  have hrun : Steps step Checkpointed Sys.init checkpointedInsert := by
    have h1 : Steps step Checkpointed (Sys.init : Sys SlotPage) Sys.init.begin :=
      Steps.refl.next .begin ⟨trivial, trivial, hcrash (by simp)⟩ rfl
    have h2 := h1.next (.newPage 0 true) ⟨⟨by decide, by decide⟩, trivial, hcrash (by simp)⟩ rfl
    have h3 := h2.next (.update 0 0 (.insert [7]) 0)
      ⟨⟨rfl, fun _ _ _ _ _ => not_heldByOther (by decide) _ _⟩, trivial, hcrash (by simp)⟩ rfl
    have h4 := h3.next .ckptBegin ⟨protocol_of_check rfl, trivial, hcrash (by simp)⟩ rfl
    have h5 := h4.next .ckptSnapshot ⟨trivial, trivial, hcrash (by simp)⟩ rfl
    have h6 := h5.next .ckptEnd ⟨trivial, trivial, hcrash (by simp)⟩ rfl
    have h7 := h6.next (.ckptForce 0) ⟨trivial, trivial, hcrash (by simp)⟩ rfl
    have h8 := h7.next .ckptWrite ⟨trivial, trivial, hcrash (by simp)⟩ rfl
    have h9 := h8.next .ckptFinish ⟨trivial, trivial, hcrash (by simp)⟩ rfl
    exact h9.next (.crash _) ⟨BufferManager.readPage_mem _, rfl, fun _ _ => rfl⟩ rfl
  exact ⟨by decide, recover_from_checkpoint_eq_full hrun rfl⟩

end PersistX
