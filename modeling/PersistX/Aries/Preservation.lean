import PersistX.Aries.Invariant

/-!
# PersistX — normal operation keeps the invariant

One lemma per piece of work outside of recovery and checkpoints. Appending a
record, flushing the log and writing a page each have one lemma that says what
they do to the parts of the invariant; the events are put together from these.
-/

namespace PersistX

open PageOps LawfulPageOps

variable {P : Type} [LawfulPageOps P] {strict : Prop}

-- ---------------------------------------------------------------------------
-- What redo may skip
-- ---------------------------------------------------------------------------

/-- Whatever prefix of the log the DPT is computed from, a record of page `p`
that it filters out is reflected in the image `x`. -/
def Reflects (log : List Record) (p : Nat) (x : P) : Prop :=
  ∀ i ≤ log.length, Covers (analyze (log.take i)).2 (log.take i) p (pageLsn x + 1)

/-- A newer image reflects more. -/
theorem Reflects.mono {log : List Record} {p : Nat} {x y : P} (h : Reflects log p x)
    (hle : pageLsn x ≤ pageLsn y) : Reflects log p y := by
  intro i hi j r hr hp hfil
  have := h i hi j r hr hp hfil
  omega

theorem Reflects.of_append {a b : List Record} {p : Nat} {x : P} (h : Reflects (a ++ b) p x) :
    Reflects a p x := by
  intro i hi
  have := h i (by rw [List.length_append]; omega)
  rwa [List.take_append_of_le_length hi] at this

/-- The log grows by records that are no checkpoint. -/
theorem Reflects.append {log b : List Record} {p : Nat} {x : P}
    (hist : History (SysRule P) (log ++ b)) (hb : NoEnd b) (h : Reflects log p x) :
    Reflects (log ++ b) p x := by
  induction b using List.reverseRecOn with
  | nil => rwa [List.append_nil]
  | append_singleton b r ih =>
    rw [← List.append_assoc] at hist ⊢
    have hist' := hist.of_append
    have ih := ih hist' fun x hx => hb x (List.mem_append_left _ hx)
    intro i hi
    rw [List.length_append, List.length_singleton] at hi
    rcases Nat.lt_or_ge (log ++ b).length i with hlt | hle
    · have hi' : i = (log ++ b ++ [r]).length := by
        rw [List.length_append, List.length_singleton]
        omega
      have hr : r.lsn = (log ++ b).length := hist.lsn_eq (by simp)
      have hall := ih _ (Nat.le_refl _)
      rw [List.take_length] at hall
      rw [hi', List.take_length, analyze_append_one (hb r (by simp))]
      exact hall.append_one (analyze_dptBound SysRule.lifecycle (fun _ _ h => h.ckpt) hist') hr
    · rw [List.take_append_of_le_length hle]
      exact ih i hle

theorem redoOk_iff {file : List Record} {bm : BufferManager P} :
    RedoOk file bm ↔ ∀ p, Reflects file p (bm.readPage p) :=
  ⟨fun h p i hi => h i hi p, fun h i hi p => h p i hi⟩

/-- Newer images cover more. -/
theorem RedoOk.mono {file : List Record} {bm bm' : BufferManager P} (h : RedoOk file bm)
    (hle : ∀ p, pageLsn (bm.readPage p) ≤ pageLsn (bm'.readPage p)) : RedoOk file bm' :=
  redoOk_iff.mpr fun p => (redoOk_iff.mp h p).mono (hle p)

/-- The log file grows by records that are no checkpoint. -/
theorem RedoOk.append {file b : List Record} {bm : BufferManager P}
    (hist : History (SysRule P) (file ++ b)) (hb : NoEnd b) (h : RedoOk file bm) :
    RedoOk (file ++ b) bm :=
  redoOk_iff.mpr fun p => (redoOk_iff.mp h p).append hist hb

/-- Where the images on disk are up to date, nothing can be skipped wrongly. -/
theorem covers_of_current {log : List Record} (hist : History (SysRule P) log)
    {x : P} {p : Nat} (hx : Eqv x (stateAt log p)) (dpt : Table) (i : Nat) :
    Covers dpt (log.take i) p (pageLsn x + 1) := by
  intro j r hr hp _
  have hr' : log[j]? = some r := by
    rw [List.getElem?_take] at hr
    split at hr
    · exact hr
    · cases hr
  have hj := (List.getElem?_eq_some_iff.mp hr').1
  have := (lt_iff_le_pageLsn (P := P) hist (k := log.length) hr' hp).mp hj
  rw [List.take_length, ← eqv_lsn hx] at this
  omega

theorem RedoOk.of_current {log : List Record} {bm : BufferManager P}
    (hist : History (SysRule P) log) (h : ∀ p, Eqv (bm.readPage p) (stateAt log p)) :
    RedoOk log bm :=
  fun i _ p => covers_of_current hist (h p) _ i

theorem NoEnd.lastCheckpoint_take {file : List Record} (h : lastCheckpoint file = none) (i : Nat) :
    lastCheckpoint (file.take i) = none := by
  rw [lastCheckpoint_eq_none] at h ⊢
  exact fun r hr => h r (List.mem_of_mem_take hr)

/-- Without a checkpoint in the file nothing is skipped at all. -/
theorem RedoOk.of_no_checkpoint {file : List Record} {bm : BufferManager P}
    (hist : History (SysRule P) file) (h : lastCheckpoint file = none) : RedoOk file bm := by
  intro i _ p
  rw [analyze_of_no_checkpoint (NoEnd.lastCheckpoint_take h i)]
  exact (scan_covers SysRule.lifecycle (hist.take i) p _).1

-- ---------------------------------------------------------------------------
-- Flushing the log
-- ---------------------------------------------------------------------------

theorem Inv.flushLm {s : Sys P} {lm : LogManager} (h : Inv strict s) (hd : s.mode ≠ .down)
    (hidle : s.ckpt = .idle) (hlm : lm = s.lm ∨ lm = s.lm.flushAll) :
    Inv strict { s with lm } := by
  rcases hlm with rfl | rfl
  · exact h
  have hno : NoEnd s.lm.buffer := by
    have := h.ckpt
    rwa [CkptInv, hidle] at this
  have hlog : s.lm.flushAll.log = s.lm.log := LogManager.flushAll_log
  refine ⟨?_, ?_, ?_, fun _ => (h.live hd).flushAll, ?_, ?_⟩
  · show History _ s.lm.flushAll.log
    rw [hlog]
    exact h.hist
  · show DiskInv s.lm.flushAll.log s.lm.flushAll.file.length s.bm
    rw [hlog, LogManager.flushAll_file]
    exact h.disk.weaken LogManager.length_file_le
  · intro _
    show RedoOk s.lm.flushAll.file s.bm
    rw [LogManager.flushAll_file]
    exact (h.redo (Or.inr hidle)).append h.hist hno
  · have hm := h.mode
    simp only [ModeInv, Sys.log, hlog, LogManager.flushAll_file, LogManager.flushAll_buffer] at hm ⊢
    cases hmode : s.mode with
    | normal => simpa only [hmode] using hm
    | down => exact absurd hmode hd
    | redo rest dpt att =>
      simp only [hmode] at hm ⊢
      obtain ⟨hbuf, hatt, m, hrest, hredo⟩ := hm
      have hfile : s.lm.log = s.lm.file := by rw [LogManager.log, hbuf, List.append_nil]
      rw [hfile] at hatt ⊢
      exact ⟨trivial, hatt, m, hrest, hredo⟩
    | undo toUndo att => simpa only [hmode] using hm
    | flushing =>
      simp only [hmode] at hm ⊢
      exact ⟨hm.1, trivial, hm.2.2⟩
  · simp only [CkptInv, hidle, LogManager.flushAll_buffer]
    intro r hr
    cases hr

-- ---------------------------------------------------------------------------
-- Writing pages
-- ---------------------------------------------------------------------------

/-- What a page in the pool is, whatever the system is doing: the page after
some records, all of them in the file once the page's LSN is flushed. -/
theorem Inv.page_prefix {s : Sys P} (h : Inv strict s) (hd : s.mode ≠ .down) (p : Nat) :
    ∃ k, Eqv (s.bm.page p) (stateAt (s.log.take k) p) ∧
      k ≤ (s.lm.flush (pageLsn (s.bm.page p))).file.length := by
  have hcur : Current s.log s.bm → ∃ k, Eqv (s.bm.page p) (stateAt (s.log.take k) p) ∧
      k ≤ (s.lm.flush (pageLsn (s.bm.page p))).file.length := by
    intro hc
    obtain ⟨k, hk, hkl, -⟩ := stateAt_eq_take h.hist p
    refine ⟨k, by rw [hk]; exact hc p, ?_⟩
    rcases hkl with rfl | ⟨hkl, hle⟩
    · exact Nat.zero_le _
    · have hl : pageLsn (s.bm.page p) = pageLsn (stateAt s.log p : P) := eqv_lsn (hc p)
      have hle' : k ≤ s.lm.log.length := hle
      have := (h.live hd).lt_flush (l := pageLsn (s.bm.page p)) (by omega)
      omega
  have hm := h.mode
  rw [ModeInv] at hm
  cases hmode : s.mode with
  | normal => rw [hmode] at hm; exact hcur hm.1
  | down => exact absurd hmode hd
  | undo toUndo att => rw [hmode] at hm; exact hcur hm.1
  | flushing => rw [hmode] at hm; exact hcur hm.1
  | redo rest dpt att =>
    rw [hmode] at hm
    obtain ⟨hbuf, -, m, -, hredo⟩ := hm
    have hlog : s.log = s.lm.file := by
      show s.lm.file ++ s.lm.buffer = _
      rw [hbuf, List.append_nil]
    obtain ⟨k, hk⟩ := hredo.prefixes p
    refine ⟨min k s.lm.file.length, ?_, ?_⟩
    · rw [hlog]
      have : s.lm.file.take (min k s.lm.file.length) = s.lm.file.take k := by
        rw [← List.take_take, List.take_length]
      rw [this]
      exact hk
    · exact Nat.le_trans (Nat.min_le_right _ _) (LogManager.length_file_le_flush _)

/-- The page a reader sees is the same, so what holds in each mode still does. -/
theorem ModeInv.of_page {s : Sys P} {bm : BufferManager P} (h : ModeInv s)
    (hframes : s.mode ≠ .down) (hpage : ∀ p, Eqv (bm.page p) (s.bm.page p)) :
    ModeInv { s with bm } := by
  have hcur : Current s.log s.bm → Current s.log bm :=
    fun hc p => eqv_trans (hpage p) (hc p)
  rw [ModeInv] at h ⊢
  cases hmode : s.mode with
  | normal => simp only [hmode] at h ⊢; exact ⟨hcur h.1, h.2⟩
  | down => exact absurd hmode hframes
  | undo toUndo att => simp only [hmode] at h ⊢; exact ⟨hcur h.1, h.2⟩
  | flushing => simp only [hmode] at h ⊢; exact ⟨hcur h.1, h.2⟩
  | redo rest dpt att =>
    simp only [hmode] at h ⊢
    obtain ⟨hbuf, hatt, m, hrest, hredo⟩ := h
    refine ⟨hbuf, hatt, m, hrest, ?_, ?_⟩
    · intro p
      obtain ⟨k, hk⟩ := hredo.prefixes p
      exact ⟨k, eqv_trans (hpage p) hk⟩
    · intro p j r hr hp hor
      rw [eqv_lsn (hpage p)]
      exact hredo.reflects p j r hr hp hor

theorem Inv.flushPage {s : Sys P} (h : Inv strict s) (hidle : s.ckpt = .idle) (p : Nat) :
    Inv strict (s.flushPage p) := by
  rw [Sys.flushPage]
  cases hf : s.bm.frames.lookup p with
  | none => exact h
  | some f =>
    have hd : s.mode ≠ .down := by
      intro hdown
      have hm := h.mode
      rw [ModeInv, hdown] at hm
      rw [hm.1] at hf
      cases hf
    have hpage := BufferManager.page_of_lookup hf
    obtain ⟨k, hk, hkl⟩ := h.page_prefix hd p
    rw [hpage] at hk hkl
    have h' := h.flushLm hd hidle (s.lm.flush_eq (pageLsn f.page))
    have hlog : ({ s with lm := s.lm.flush (pageLsn f.page) } : Sys P).log = s.log :=
      LogManager.flush_log _
    have hdisk := h'.disk.writeFrame hf hkl (by rw [hlog]; exact hk)
    refine ⟨h'.hist, hdisk, ?_, h'.live, ?_, ?_⟩
    · intro hs
      refine (h'.redo hs).mono fun q => ?_
      rw [BufferManager.readPage_writeFrame]
      split
      · rename_i hq
        subst hq
        rw [← hpage]
        exact h.disk.mono q
      · exact Nat.le_refl _
    · refine h'.mode.of_page hd fun q => ?_
      rw [BufferManager.page_writeFrame hf]
      exact eqv_refl _
    · have := h'.ckpt
      simp only [CkptInv, hidle] at this ⊢
      exact this

theorem Inv.eraseFrame {s : Sys P} (h : Inv strict s) (hidle : s.ckpt = .idle) {p : Nat}
    {f : Frame P} (hf : s.bm.frames.lookup p = some f) (hclean : f.dirty = false) :
    Inv strict { s with bm := { s.bm with frames := s.bm.frames.erase p } } := by
  have hd : s.mode ≠ .down := by
    intro hdown
    have hm := h.mode
    rw [ModeInv, hdown] at hm
    rw [hm.1] at hf
    cases hf
  refine ⟨h.hist, h.disk.erase hf hclean, h.redo, h.live,
    h.mode.of_page hd (h.disk.page_erase hf hclean), ?_⟩
  have := h.ckpt
  simp only [CkptInv, hidle] at this ⊢
  exact this

theorem Inv.evict {s : Sys P} (h : Inv strict s) (hidle : s.ckpt = .idle) (p : Nat) :
    Inv strict (s.evict p) := by
  rw [Sys.evict]
  cases hf : s.bm.frames.lookup p with
  | none => exact h
  | some f =>
    by_cases hdirty : f.dirty = true
    · simp only [hdirty, if_true]
      have hidle' : (s.flushPage p).ckpt = .idle := by
        rw [Sys.flushPage, hf]
        exact hidle
      refine (h.flushPage hidle p).eraseFrame hidle' (f := ⟨f.page, false⟩) ?_ rfl
      rw [Sys.flushPage, hf]
      exact AList.lookup_insert _
    · simp only [if_neg hdirty]
      exact h.eraseFrame hidle hf (by simpa using hdirty)

-- ---------------------------------------------------------------------------
-- Appending records in normal operation
-- ---------------------------------------------------------------------------

omit [LawfulPageOps P] in
theorem running_iff {s : Sys P} : s.running = true ↔ s.mode = .normal ∧ s.ckpt = .idle := by
  rw [Sys.running, Bool.and_eq_true, beq_iff_eq]
  refine and_congr ?_ Iff.rfl
  cases s.mode <;> simp [Mode.isNormal]

theorem Inv.normal {s : Sys P} (h : Inv strict s) (hn : s.mode = .normal) :
    Current s.log s.bm ∧ TmInv s.log s.tm := by
  have hm := h.mode
  rwa [ModeInv, hn] at hm

theorem Inv.next_eq {s : Sys P} (h : Inv strict s) (hn : s.mode = .normal) :
    s.lm.nextLsn = s.log.length :=
  (h.live (by rw [hn]; simp)).next

theorem Inv.setTm {s : Sys P} (h : Inv strict s) (hrun : s.running = true)
    {tm : TransactionManager} (htm : TmInv s.log tm) : Inv strict { s with tm } := by
  obtain ⟨hn, hidle⟩ := running_iff.mp hrun
  refine ⟨h.hist, h.disk, h.redo, h.live, ?_, ?_⟩
  · rw [ModeInv, hn]
    exact ⟨(h.normal hn).1, htm⟩
  · have := h.ckpt
    simp only [CkptInv, hidle] at this ⊢
    exact this

/-- One record is appended, and the page file is left alone. -/
theorem Inv.appendRecord {s : Sys P} (h : Inv strict s) (hd : s.mode ≠ .down)
    (hidle : s.ckpt = .idle) {t : Nat} {pr : Option Nat} {b : RecordBody} {bm : BufferManager P}
    {tm : TransactionManager} {mode : Mode}
    (hr : SysRule P s.log ⟨s.lm.nextLsn, t, pr, b⟩) (hend : b.isCheckpointEnd = false)
    (hdisk : DiskInv s.log s.lm.file.length bm) (hread : bm.readPage = s.bm.readPage)
    (hmode : ModeInv { s with lm := (s.lm.append t pr b).1, bm, tm, mode }) :
    Inv strict { s with lm := (s.lm.append t pr b).1, bm, tm, mode } := by
  have hlog : (s.lm.append t pr b).1.log = s.log ++ [⟨s.lm.nextLsn, t, pr, b⟩] :=
    LogManager.append_log t pr b
  refine ⟨?_, ?_, ?_, ?_, hmode, ?_⟩
  · show History _ (s.lm.append t pr b).1.log
    rw [hlog]
    exact .snoc h.hist hr
  · show DiskInv (s.lm.append t pr b).1.log _ bm
    rw [hlog]
    exact hdisk.append LogManager.length_file_le _
  · intro hs
    refine (h.redo hs).mono fun p => ?_
    rw [hread]
  · exact fun _ => (h.live hd).append t pr b
  · have hno := h.ckpt
    simp only [CkptInv, hidle] at hno ⊢
    intro r hr
    rcases List.mem_append.mp hr with hr | hr
    · exact hno r hr
    · rw [List.mem_singleton.mp hr]
      exact hend

/-- A transaction's work in normal operation. -/
theorem Inv.append {s : Sys P} (h : Inv strict s) (hrun : s.running = true) {t : Nat}
    {pr : Option Nat} {b : RecordBody} {bm : BufferManager P} {tm : TransactionManager}
    (hr : SysRule P s.log ⟨s.lm.nextLsn, t, pr, b⟩) (hend : b.isCheckpointEnd = false)
    (hdisk : DiskInv s.log s.lm.file.length bm) (hread : bm.readPage = s.bm.readPage)
    (hcur : Current (s.log ++ [⟨s.lm.nextLsn, t, pr, b⟩]) bm)
    (htm : TmInv (s.log ++ [⟨s.lm.nextLsn, t, pr, b⟩]) tm) :
    Inv strict { s with lm := (s.lm.append t pr b).1, bm, tm } := by
  obtain ⟨hn, hidle⟩ := running_iff.mp hrun
  refine h.appendRecord (by rw [hn]; simp) hidle hr hend hdisk hread ?_
  simp only [ModeInv, hn, Sys.log, LogManager.append_log]
  exact ⟨hcur, htm⟩

/-- A record that writes no slot is legitimate if it fits its transaction's life. -/
theorem SysRule.of_quiet {log : List Record} {r : Record} (hlife : Lifecycle log r)
    (hend : r.body.isCheckpointEnd = false) (hw : r.body.write? = none) : SysRule P log r := by
  refine ⟨⟨hlife, ?_⟩, ⟨?_, ?_⟩, ?_⟩
  · intro p s old new k hb
    rw [hb] at hw
    cases hw
  · intro p s k hb
    rw [hb] at hw
    cases hw
  · intro p hp
    rw [RecordBody.page?, hw] at hp
    cases hp
  · intro a d hb
    rw [hb] at hend
    cases hend

/-- The same for a record that is not about a page. -/
theorem Inv.appendQuiet {s : Sys P} (h : Inv strict s) (hrun : s.running = true) {t : Nat}
    {pr : Option Nat} {b : RecordBody} {tm : TransactionManager}
    (hlife : Lifecycle s.log ⟨s.lm.nextLsn, t, pr, b⟩) (hend : b.isCheckpointEnd = false)
    (hb : b.write? = none) (htm : TmInv (s.log ++ [⟨s.lm.nextLsn, t, pr, b⟩]) tm) :
    Inv strict { s with lm := (s.lm.append t pr b).1, tm } := by
  have hpage : b.page? = none := by rw [RecordBody.page?, hb]; rfl
  exact h.append hrun (.of_quiet hlife hend hb) hend h.disk rfl
    ((h.normal (running_iff.mp hrun).1).1.append_quiet hpage) htm

/-- A record that leaves a transaction's view alone leaves its entry alone. -/
theorem TxnOk.append_same {log : List Record} {r : Record} {t : Nat} {x : Option Txn}
    (h : TxnOk log t x) (hact : active (log ++ [r]) t = active log t) : TxnOk (log ++ [r]) t x := by
  match x with
  | none => exact hact.trans h
  | some ⟨prev, .growing⟩ =>
    obtain ⟨v, hv, rest⟩ := h
    exact ⟨v, hact.trans hv, rest⟩
  | some ⟨_, .committing _⟩ => exact hact.trans h
  | some ⟨_, .committed _⟩ => exact hact.trans h
  | some ⟨prev, .aborting u⟩ =>
    obtain ⟨v, x, hv, hlast, hu, hchain⟩ := h
    exact ⟨v, x, hact.trans hv, hlast, hu, hchain.append r⟩
  | some ⟨prev, .aborted⟩ =>
    obtain ⟨v, hv, rest⟩ := h
    exact ⟨v, hact.trans hv, rest⟩

theorem TxnOk.append_other {log : List Record} {r : Record} {t : Nat} {x : Option Txn}
    (h : TxnOk log t x) (hne : r.txnId ≠ t) : TxnOk (log ++ [r]) t x :=
  h.append_same (active_append_one_ne hne)

theorem TmInv.insert {log : List Record} {tm : TransactionManager} (h : TmInv log tm) (r : Record)
    {x : Txn} {next : Nat} (hx : TxnOk (log ++ [r]) r.txnId (some x)) (hlt : r.txnId < next)
    (hnext : tm.nextTxnId ≤ next) :
    TmInv (log ++ [r]) ⟨tm.att.insert r.txnId x, next⟩ where
  txns t := by
    by_cases ht : t = r.txnId
    · subst ht
      rw [AList.lookup_insert]
      exact hx
    · rw [AList.lookup_insert_ne ht]
      exact (h.txns t).append_other (Ne.symm ht)
  fresh t ht := by
    simp only at ht
    rw [AList.lookup_insert_ne (by omega)]
    exact h.fresh t (by omega)

theorem TmInv.erase {log : List Record} {tm : TransactionManager} (h : TmInv log tm) (r : Record)
    (hx : active (log ++ [r]) r.txnId = none) :
    TmInv (log ++ [r]) { tm with att := tm.att.erase r.txnId } where
  txns t := by
    by_cases ht : t = r.txnId
    · subst ht
      rw [AList.lookup_erase]
      exact hx
    · rw [AList.lookup_erase_ne ht]
      exact (h.txns t).append_other (Ne.symm ht)
  fresh t ht := by
    simp only at ht ⊢
    by_cases hr : t = r.txnId
    · subst hr
      exact AList.lookup_erase _ _
    · rw [AList.lookup_erase_ne hr]
      exact h.fresh t ht

/-- Change an entry without logging anything. -/
theorem TmInv.set {log : List Record} {tm : TransactionManager} (h : TmInv log tm) {t : Nat}
    {x : Txn} (hx : TxnOk log t (some x)) (hlt : t < tm.nextTxnId) :
    TmInv log { tm with att := tm.att.insert t x } where
  txns t' := by
    by_cases ht : t' = t
    · subst ht
      rw [AList.lookup_insert]
      exact hx
    · rw [AList.lookup_insert_ne ht]
      exact h.txns t'
  fresh t' ht := by
    simp only at ht
    rw [AList.lookup_insert_ne (by omega)]
    exact h.fresh t' ht

theorem TmInv.lt {log : List Record} {tm : TransactionManager} (h : TmInv log tm) {t : Nat}
    {x : Txn} (hx : tm.att.lookup t = some x) : t < tm.nextTxnId := by
  rw [← Nat.not_le]
  intro hle
  rw [h.fresh t hle] at hx
  cases hx

-- ---------------------------------------------------------------------------
-- Begin and commit
-- ---------------------------------------------------------------------------

theorem Inv.begin {s : Sys P} (h : Inv strict s) (hrun : s.running = true) :
    Inv strict s.begin := by
  obtain ⟨hn, -⟩ := running_iff.mp hrun
  obtain ⟨-, htm⟩ := h.normal hn
  have hnone : active s.log s.tm.nextTxnId = none := by
    have := htm.txns s.tm.nextTxnId
    rwa [htm.fresh _ (Nat.le_refl _)] at this
  refine h.appendQuiet hrun ⟨h.next_eq hn, hnone, rfl⟩ rfl rfl
    (htm.insert ⟨s.lm.nextLsn, s.tm.nextTxnId, none, .begin⟩ ?_ (Nat.lt_succ_self _)
      (Nat.le_succ _))
  exact ⟨_, active_append_one_self, rfl, rfl⟩

theorem Inv.commitLog {s s' : Sys P} {t : Nat} (h : Inv strict s) (hrun : s.running = true)
    (hs : s.commitLog t = some s') : Inv strict s' := by
  obtain ⟨hn, -⟩ := running_iff.mp hrun
  obtain ⟨-, htm⟩ := h.normal hn
  rw [Sys.commitLog] at hs
  split at hs
  · rename_i prev hl
    obtain rfl := Option.some.inj hs
    have hok := htm.txns t
    rw [hl] at hok
    obtain ⟨v, hv, hlast, hroll⟩ := hok
    refine h.appendQuiet hrun ⟨h.next_eq hn, v, hv, hroll, by rw [hlast]⟩ rfl rfl
      (htm.insert ⟨s.lm.nextLsn, t, some prev, .commit⟩ ?_ (htm.lt hl) (Nat.le_refl _))
    exact active_append_one_self
  · cases hs

theorem Inv.commitForce {s s' : Sys P} {t : Nat} (h : Inv strict s) (hrun : s.running = true)
    (hs : s.commitForce t = some s') : Inv strict s' := by
  obtain ⟨hn, hidle⟩ := running_iff.mp hrun
  rw [Sys.commitForce] at hs
  split at hs
  · rename_i prev c hl
    obtain rfl := Option.some.inj hs
    have h' := h.flushLm (by rw [hn]; simp) hidle (s.lm.flush_eq c)
    obtain ⟨-, htm⟩ := h'.normal hn
    have hok := htm.txns t
    simp only [hl] at hok
    exact h'.setTm hrun (htm.set hok (htm.lt hl))
  · cases hs

theorem Inv.commitEnd {s s' : Sys P} {t : Nat} (h : Inv strict s) (hrun : s.running = true)
    (hs : s.commitEnd t = some s') : Inv strict s' := by
  obtain ⟨hn, -⟩ := running_iff.mp hrun
  obtain ⟨-, htm⟩ := h.normal hn
  rw [Sys.commitEnd] at hs
  split at hs
  · rename_i prev c hl
    obtain rfl := Option.some.inj hs
    have hok := htm.txns t
    rw [hl] at hok
    refine h.appendQuiet hrun ⟨h.next_eq hn, ?_⟩ rfl rfl
      (htm.erase ⟨s.lm.nextLsn, t, some c, .txnEnd⟩ active_append_one_self)
    intro v hv
    rw [show active s.log t = none from hok] at hv
    cases hv
  · cases hs

end PersistX
