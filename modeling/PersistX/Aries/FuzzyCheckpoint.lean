import PersistX.Aries.Runs
import PersistX.Page.SlotPage

/-!
# PersistX — a fuzzy checkpoint among other threads

`checkpoint()` beside any number of transactions of other threads. The atomic
steps are those between which the source takes a lock or appends to the log:
`begin()`, `log_update()`, the three steps of `commit()` (which holds the
transaction manager's mutex from the first to the last), the steps of
`abort()`, and the steps of `checkpoint()`. Pages may change and be written at
any time.

`analyze()` seeds the ATT from the snapshot in CHECKPOINT_END and looks only at
the records behind it. What a transaction logs between `get_att_snapshot()` and
the append of CHECKPOINT_END is in neither.

Main results: `analyze_finds_losers`, for every interleaving in which each
snapshot still is the ATT when CHECKPOINT_END is appended (`Undisturbed`), and
`commit_in_window_becomes_loser`, an interleaving in which it is not.
-/

namespace PersistX

open PageOps Transition

variable {P : Type}

-- ---------------------------------------------------------------------------
-- Threads
-- ---------------------------------------------------------------------------

section Model

variable [PageOps P]

/-- How far the thread in `checkpoint()` is. -/
inductive Stage where
  | idle
  /-- CHECKPOINT_BEGIN is appended. -/
  | begun
  /-- `get_att_snapshot()` has returned. -/
  | attTaken (att : List (Nat × Nat))
  /-- `get_dirty_pages()` has returned. -/
  | tablesTaken (att dpt : List (Nat × Nat))
  /-- CHECKPOINT_END is appended, with this LSN. -/
  | ended (endLsn : Nat)

/-- The storage system and the thread that takes checkpoints. -/
structure Threads (P : Type) where
  sys : Sys P
  stage : Stage

/-- An empty log and an empty page file. -/
def Threads.init : Threads P := ⟨Sys.init, .idle⟩

/-- The transaction is inside `commit()`. -/
def TxnPhase.inCommit : TxnPhase → Bool
  | .committing _ => true
  | .committed _ => true
  | _ => false

/-- No transaction holds the transaction manager's mutex. -/
def Sys.mutexFree (s : Sys P) : Bool := s.tm.att.entries.all (!·.2.phase.inCommit)

/-- `log_update`. -/
def Sys.logUpdate (s : Sys P) (t p slot : Nat) (old new : Bytes) (key : Int) : Option (Sys P) :=
  match s.tm.att.lookup t with
  | some ⟨prev, .growing⟩ =>
    let (lm, lsn) := s.lm.append t (some prev) (.update p slot old new key)
    some ({ s with lm }.setTxn t ⟨lsn, .growing⟩)
  | _ => none

/-- One atomic step of one of the threads. -/
inductive Action (P : Type) where
  | begin
  | logUpdate (t p slot : Nat) (old new : Bytes) (key : Int)
  | commitLog (t : Nat)
  | commitForce (t : Nat)
  | commitEnd (t : Nat)
  | abortLog (t : Nat)
  | abortStep (t : Nat)
  | abortEnd (t : Nat)
  /-- A pinned page is changed and unpinned. -/
  | changePage (p : Nat) (x : P)
  | flushPage (p : Nat)
  | evict (p : Nat)
  | flushLog
  | ckptBegin
  | getAttSnapshot
  | getDirtyPages
  | ckptEnd
  | ckptFinish

/-- What the thread does; `none` where it is not there or has to wait for the mutex. -/
def act (s : Threads P) : Action P → Option (Threads P)
  | .begin => if s.sys.mutexFree then some { s with sys := s.sys.begin } else none
  | .logUpdate t p slot old new key =>
    (s.sys.logUpdate t p slot old new key).map fun sys => { s with sys }
  | .commitLog t =>
    if s.sys.mutexFree then (s.sys.commitLog t).map fun sys => { s with sys } else none
  | .commitForce t => (s.sys.commitForce t).map fun sys => { s with sys }
  | .commitEnd t => (s.sys.commitEnd t).map fun sys => { s with sys }
  | .abortLog t => (s.sys.abortLog t).map fun sys => { s with sys }
  | .abortStep t => (s.sys.abortStep t).map fun sys => { s with sys }
  | .abortEnd t =>
    if s.sys.mutexFree then (s.sys.abortEnd t).map fun sys => { s with sys } else none
  | .changePage p x =>
    some { s with sys := { s.sys with bm := (s.sys.bm.fetchPage p).1.unpinPage p x true } }
  | .flushPage p => some { s with sys := s.sys.flushPage p }
  | .evict p => some { s with sys := s.sys.evict p }
  | .flushLog => some { s with sys := { s.sys with lm := s.sys.lm.flushAll } }
  | .ckptBegin =>
    match s.stage with
    | .idle =>
      some ⟨{ s.sys with lm := (s.sys.lm.append invalidU64 none .checkpointBegin).1 }, .begun⟩
    | _ => none
  | .getAttSnapshot =>
    match s.stage with
    | .begun =>
      if s.sys.mutexFree then some { s with stage := .attTaken s.sys.tm.getAttSnapshot } else none
    | _ => none
  | .getDirtyPages =>
    match s.stage with
    | .attTaken att => some { s with stage := .tablesTaken att s.sys.bm.getDirtyPages }
    | _ => none
  | .ckptEnd =>
    match s.stage with
    | .tablesTaken att dpt =>
      let (lm, lsn) := s.sys.lm.append invalidU64 none (.checkpointEnd att dpt)
      some ⟨{ s.sys with lm }, .ended lsn⟩
    | _ => none
  | .ckptFinish =>
    match s.stage with
    | .ended endLsn => some ⟨{ s.sys with lm := s.sys.lm.flush endLsn }, .idle⟩
    | _ => none

/-- When CHECKPOINT_END is appended, the snapshot it carries lists the entries
that the ATT has now. -/
def Undisturbed (s : Threads P) : Action P → Prop
  | .ckptEnd => ∀ att dpt, s.stage = .tablesTaken att dpt →
      ∀ t, (toTable att).lookup t = (s.sys.tm.att.lookup t).map Txn.prevLsn
  | _ => True

end Model

-- ---------------------------------------------------------------------------
-- Losers
-- ---------------------------------------------------------------------------

/-- The record is one of transaction `t`. -/
def Record.isOf (r : Record) (t : Nat) : Prop :=
  r.txnId = t ∧ r.body ≠ .checkpointBegin ∧ r.body.isCheckpointEnd = false

/-- Transaction `t` has a BEGIN but neither a COMMIT nor a TXN_END among the
records, and the last of its records has LSN `l`. -/
structure Loser (records : List Record) (t l : Nat) : Prop where
  begun : ∃ r ∈ records, r.txnId = t ∧ r.body = .begin
  unended : ∀ r ∈ records, r.txnId = t → r.body ≠ .commit ∧ r.body ≠ .txnEnd
  last : ∃ before r after, records = before ++ r :: after ∧ r.isOf t ∧ r.lsn = l ∧
    ∀ x ∈ after, ¬ x.isOf t

/-- What the threads guarantee about every record they append. -/
structure ThreadRule (log : List Record) (r : Record) : Prop where
  lifecycle : Lifecycle log r
  /-- Transaction ids are not used twice. -/
  fresh : r.body = .begin → ∀ x ∈ log, ¬ x.isOf r.txnId
  snapshot : ∀ a d, r.body = .checkpointEnd a d → AttExact (toTable a) log

theorem Record.not_isOf {r : Record} {t : Nat} (h : ¬ r.isOf t) (ht : r.txnId = t) :
    r.body = .checkpointBegin ∨ r.body.isCheckpointEnd = true := by
  by_contra hno
  rw [not_or, Bool.not_eq_true] at hno
  exact h ⟨ht, hno.1, hno.2⟩

theorem stepTxn_of_not_isOf {r : Record} (h : ¬ r.isOf r.txnId) (v : Option TxnView) :
    stepTxn v r = v := by
  rcases r.not_isOf h rfl with hb | hb
  · simp only [stepTxn, hb]
  · cases hbody : r.body with
    | checkpointEnd a d => simp only [stepTxn, hbody]
    | _ => simp [hbody, RecordBody.isCheckpointEnd] at hb

/-- A record of no transaction, or of another one. -/
theorem Loser.append_other {log : List Record} {r : Record} {t l : Nat} (h : Loser log t l)
    (hr : ¬ r.isOf t) : Loser (log ++ [r]) t l := by
  obtain ⟨b, hb, hbt⟩ := h.begun
  obtain ⟨before, x, after, rfl, hx, hl, hafter⟩ := h.last
  refine ⟨⟨b, List.mem_append_left _ hb, hbt⟩, fun y hy ht => ?_, before, x, after ++ [r], by simp,
    hx, hl, fun y hy => ?_⟩
  · rcases List.mem_append.mp hy with hy | hy
    · exact h.unended y hy ht
    · obtain rfl := List.mem_singleton.mp hy
      rcases y.not_isOf hr ht with hb | hb
      · rw [hb]
        simp
      · constructor <;>
        · intro hbody
          rw [hbody] at hb
          cases hb
  · rcases List.mem_append.mp hy with hy | hy
    · exact hafter y hy
    · rw [List.mem_singleton.mp hy]
      exact hr

/-- A record of the transaction that does not end it. -/
theorem Loser.append_own {log : List Record} {r : Record} {t : Nat} (hr : r.isOf t)
    (hb : r.body ≠ .commit ∧ r.body ≠ .txnEnd)
    (h : (∃ l, Loser log t l) ∨ r.body = .begin ∧ ∀ x ∈ log, ¬ x.isOf t) :
    Loser (log ++ [r]) t r.lsn := by
  refine ⟨?_, fun y hy ht => ?_, log, r, [], rfl, hr, rfl, by simp⟩
  · rcases h with ⟨l, h⟩ | ⟨h, -⟩
    · obtain ⟨b, hb, hbt⟩ := h.begun
      exact ⟨b, List.mem_append_left _ hb, hbt⟩
    · exact ⟨r, by simp, hr.1, h⟩
  · rcases List.mem_append.mp hy with hy | hy
    · rcases h with ⟨l, h⟩ | ⟨-, h⟩
      · exact h.unended y hy ht
      · rcases y.not_isOf (h y hy) ht with hb | hb
        · rw [hb]
          simp
        · constructor <;>
          · intro hbody
            rw [hbody] at hb
            cases hb
    · rw [List.mem_singleton.mp hy]
      exact hb

theorem Loser.unique {log : List Record} {t l l' : Nat} (h : Loser log t l) (h' : Loser log t l') :
    l = l' := by
  obtain ⟨b, r, a, hlog, hr, rfl, ha⟩ := h.last
  obtain ⟨b', r', a', hlog', hr', rfl, ha'⟩ := h'.last
  rw [hlog] at hlog'
  rcases List.append_eq_append_iff.mp hlog' with ⟨c, hb, hc⟩ | ⟨c, hb, hc⟩
  · cases c with
    | nil =>
      simp only [List.nil_append, List.cons.injEq] at hc
      rw [hc.1]
    | cons y c =>
      simp only [List.cons_append, List.cons.injEq] at hc
      exact absurd hr' (ha r' (by rw [hc.2]; simp))
  · cases c with
    | nil =>
      simp only [List.nil_append, List.cons.injEq] at hc
      rw [hc.1]
    | cons y c =>
      simp only [List.cons_append, List.cons.injEq] at hc
      exact absurd hr (ha' r (by rw [hc.2]; simp))

/-- The transaction has not begun, or it has ended. -/
def NotOpen (records : List Record) (t : Nat) : Prop :=
  (∀ r ∈ records, r.txnId = t → r.body ≠ .begin) ∨
    ∃ r ∈ records, r.txnId = t ∧ (r.body = .commit ∨ r.body = .txnEnd)

theorem NotOpen.not_loser {log : List Record} {t l : Nat} (h : NotOpen log t) : ¬ Loser log t l := by
  intro hl
  rcases h with h | ⟨r, hr, ht, hb⟩
  · obtain ⟨r, hr, ht, hb⟩ := hl.begun
    exact h r hr ht hb
  · rcases hb with hb | hb
    · exact (hl.unended r hr ht).1 hb
    · exact (hl.unended r hr ht).2 hb

theorem NotOpen.append {log : List Record} {r : Record} {t : Nat} (h : NotOpen log t)
    (hr : r.txnId = t → r.body ≠ .begin) : NotOpen (log ++ [r]) t := by
  rcases h with h | ⟨x, hx, hxt⟩
  · refine Or.inl fun y hy ht => ?_
    rcases List.mem_append.mp hy with hy | hy
    · exact h y hy ht
    · rw [List.mem_singleton.mp hy] at ht ⊢
      exact hr ht
  · exact Or.inr ⟨x, List.mem_append_left _ hx, hxt⟩

/-- **What `active` says, in terms of the records.** -/
theorem active_loser {log : List Record} (h : History ThreadRule log) (t : Nat) :
    match active log t with
    | some v => Loser log t v.last
    | none => NotOpen log t := by
  induction h with
  | nil => exact Or.inl fun r hr => by cases hr
  | @snoc log r _ hrule ih =>
    obtain ⟨⟨-, hlife⟩, hfresh, -⟩ := hrule
    by_cases hof : r.isOf t
    · obtain ⟨rfl, hb1, hb2⟩ := id hof
      rw [active_append_one_self]
      cases hb : r.body with
      | begin =>
        simp only [stepTxn, hb]
        exact Loser.append_own hof (by simp [hb]) (Or.inr ⟨hb, hfresh hb⟩)
      | commit =>
        simp only [stepTxn, hb]
        exact Or.inr ⟨r, by simp, rfl, Or.inl hb⟩
      | txnEnd =>
        simp only [stepTxn, hb]
        exact Or.inr ⟨r, by simp, rfl, Or.inr hb⟩
      | update p s o n k =>
        rw [hb] at hlife
        obtain ⟨v, hv, -⟩ := hlife
        rw [hv] at ih
        simp only [stepTxn, hb, hv, Option.map_some]
        exact Loser.append_own hof (by simp [hb]) (Or.inl ⟨_, ih⟩)
      | clr p s n un =>
        rw [hb] at hlife
        obtain ⟨v, u, us, ru, hv, -⟩ := hlife
        rw [hv] at ih
        simp only [stepTxn, hb, hv, Option.map_some]
        exact Loser.append_own hof (by simp [hb]) (Or.inl ⟨_, ih⟩)
      | abort =>
        rw [hb] at hlife
        obtain ⟨v, hv, -⟩ := hlife
        rw [hv] at ih
        simp only [stepTxn, hb, hv, Option.map_some]
        exact Loser.append_own hof (by simp [hb]) (Or.inl ⟨_, ih⟩)
      | checkpointBegin => exact absurd hb hb1
      | checkpointEnd a d => simp [hb, RecordBody.isCheckpointEnd] at hb2
    · have hact : active (log ++ [r]) t = active log t := by
        rw [active_append_one]
        split
        · rename_i ht
          subst ht
          exact stepTxn_of_not_isOf hof _
        · rfl
      rw [hact]
      cases hv : active log t with
      | some v =>
        rw [hv] at ih
        exact ih.append_other hof
      | none =>
        rw [hv] at ih
        refine ih.append fun ht hb => ?_
        exact hof ⟨ht, by rw [hb]; simp, by rw [hb]; rfl⟩

theorem AttExact.loser {att : Table} {log : List Record} (h : AttExact att log)
    (hist : History ThreadRule log) (t l : Nat) : att.lookup t = some l ↔ Loser log t l := by
  have hopen := active_loser hist t
  rw [h t]
  cases hv : active log t with
  | some v =>
    rw [hv] at hopen
    simp only [Option.map_some, Option.some.injEq]
    exact ⟨fun hl => hl ▸ hopen, fun hl => hopen.unique hl⟩
  | none =>
    rw [hv] at hopen
    exact iff_of_false (by simp) hopen.not_loser

-- ---------------------------------------------------------------------------
-- The invariant
-- ---------------------------------------------------------------------------

/-- The ATT snapshot that the checkpoint under way has taken. -/
def Stage.att? : Stage → Option (List (Nat × Nat))
  | .attTaken a => some a
  | .tablesTaken a _ => some a
  | _ => none

/-- A snapshot is of the past, and a transaction that is inside `commit()` has
appended its COMMIT since. -/
def SnapOk (a : List (Nat × Nat)) (n : Nat) (tm : TransactionManager) : Prop :=
  ∀ t l, (toTable a).lookup t = some l → l < n ∧
    ∀ x, tm.att.lookup t = some x → x.phase.inCommit = true → l < x.prevLsn

/-- What holds in every state the threads can reach. -/
structure ThreadInv (s : Threads P) : Prop where
  hist : History ThreadRule s.sys.log
  lm : s.sys.lm.Ok
  tm : TmInv s.sys.log s.sys.tm
  ids : ∀ r ∈ s.sys.log, ∀ t, r.isOf t → t < s.sys.tm.nextTxnId
  snap : ∀ a, s.stage.att? = some a → SnapOk a s.sys.log.length s.sys.tm

/-- An entry inside `commit()` is there already, or its COMMIT is a new record. -/
def Commits (n : Nat) (tm tm' : TransactionManager) : Prop :=
  ∀ t x, tm'.att.lookup t = some x → x.phase.inCommit = true → n ≤ x.prevLsn ∨
    ∃ y, tm.att.lookup t = some y ∧ y.phase.inCommit = true ∧ y.prevLsn = x.prevLsn

theorem SnapOk.mono {a : List (Nat × Nat)} {n n' : Nat} {tm tm' : TransactionManager}
    (h : SnapOk a n tm) (hn : n ≤ n') (hc : Commits n tm tm') : SnapOk a n' tm' := by
  intro t l hl
  obtain ⟨hlt, hcommit⟩ := h t l hl
  refine ⟨by omega, fun x hx hin => ?_⟩
  rcases hc t x hx hin with hle | ⟨y, hy, hyin, hprev⟩
  · omega
  · rw [← hprev]
    exact hcommit y hy hyin

theorem Commits.refl (n : Nat) (tm : TransactionManager) : Commits n tm tm :=
  fun _ x hx hin => Or.inr ⟨x, hx, hin, rfl⟩

theorem Commits.insert {n : Nat} {tm : TransactionManager} {t : Nat} {x : Txn} (next : Nat)
    (hx : x.phase.inCommit = true → n ≤ x.prevLsn ∨
      ∃ y, tm.att.lookup t = some y ∧ y.phase.inCommit = true ∧ y.prevLsn = x.prevLsn) :
    Commits n tm ⟨tm.att.insert t x, next⟩ := by
  intro t' y hy hin
  by_cases ht : t' = t
  · subst ht
    rw [AList.lookup_insert] at hy
    obtain rfl := Option.some.inj hy
    exact hx hin
  · rw [AList.lookup_insert_ne ht] at hy
    exact Or.inr ⟨y, hy, hin, rfl⟩

theorem Commits.erase (n : Nat) (tm : TransactionManager) (t : Nat) :
    Commits n tm { tm with att := tm.att.erase t } := by
  intro t' y hy hin
  by_cases ht : t' = t
  · subst ht
    rw [AList.lookup_erase] at hy
    cases hy
  · rw [AList.lookup_erase_ne ht] at hy
    exact Or.inr ⟨y, hy, hin, rfl⟩

theorem mutexFree_iff {s : Sys P} : s.mutexFree = true ↔
    ∀ t x, s.tm.att.lookup t = some x → x.phase.inCommit = false := by
  rw [Sys.mutexFree, List.all_eq_true]
  constructor
  · intro h t x hx
    simpa using h ⟨t, x⟩ (AList.mem_lookup_iff.mp hx)
  · intro h e he
    rw [h e.1 e.2 (AList.mem_lookup_iff.mpr he)]
    rfl

section Steps

variable {s : Threads P}

/-- A step that appends a record. -/
theorem ThreadInv.append (h : ThreadInv s) {t : Nat} {pr : Option Nat} {b : RecordBody}
    {tm : TransactionManager} {stage : Stage} (bm : BufferManager P) (mode : Mode) (ckpt : Ckpt)
    (hrule : ThreadRule s.sys.log ⟨s.sys.lm.nextLsn, t, pr, b⟩)
    (htm : TmInv (s.sys.log ++ [⟨s.sys.lm.nextLsn, t, pr, b⟩]) tm)
    (hid : s.sys.tm.nextTxnId ≤ tm.nextTxnId)
    (hof : (⟨s.sys.lm.nextLsn, t, pr, b⟩ : Record).isOf t → t < tm.nextTxnId)
    (hc : Commits s.sys.log.length s.sys.tm tm)
    (hstage : ∀ a, stage.att? = some a → s.stage.att? = some a) :
    ThreadInv ⟨⟨(s.sys.lm.append t pr b).1, bm, tm, mode, ckpt⟩, stage⟩ := by
  have hlog : (s.sys.lm.append t pr b).1.log = s.sys.lm.log ++ [⟨s.sys.lm.nextLsn, t, pr, b⟩] :=
    LogManager.append_log _ _ _
  refine ⟨?_, h.lm.append _ _ _, ?_, ?_, ?_⟩
  · show History ThreadRule (s.sys.lm.append t pr b).1.log
    rw [hlog]
    exact h.hist.snoc hrule
  · show TmInv (s.sys.lm.append t pr b).1.log tm
    rw [hlog]
    exact htm
  · intro r hr t' ht'
    change r ∈ (s.sys.lm.append t pr b).1.log at hr
    rw [hlog] at hr
    rcases List.mem_append.mp hr with hr | hr
    · exact Nat.lt_of_lt_of_le (h.ids r hr t' ht') hid
    · rw [List.mem_singleton.mp hr] at ht'
      obtain rfl : t = t' := ht'.1
      exact hof ht'
  · intro a ha
    show SnapOk a (s.sys.lm.append t pr b).1.log.length tm
    rw [hlog, List.length_append, List.length_singleton]
    exact (h.snap a (hstage a ha)).mono (Nat.le_succ _) hc

/-- A step that appends nothing. -/
theorem ThreadInv.quiet (h : ThreadInv s) {lm : LogManager} {tm : TransactionManager}
    (bm : BufferManager P) (mode : Mode) (ckpt : Ckpt) {stage : Stage}
    (hlm : lm = s.sys.lm ∨ lm = s.sys.lm.flushAll) (htm : TmInv s.sys.log tm)
    (hid : tm.nextTxnId = s.sys.tm.nextTxnId) (hc : Commits s.sys.log.length s.sys.tm tm)
    (hstage : ∀ a, stage.att? = some a → s.stage.att? = some a) :
    ThreadInv ⟨⟨lm, bm, tm, mode, ckpt⟩, stage⟩ := by
  have hlog : lm.log = s.sys.lm.log := LogManager.log_eq_of_flush hlm
  refine ⟨?_, ?_, ?_, ?_, ?_⟩
  · show History ThreadRule lm.log
    rw [hlog]
    exact h.hist
  · rcases hlm with rfl | rfl
    · exact h.lm
    · exact h.lm.flushAll
  · show TmInv lm.log tm
    rw [hlog]
    exact htm
  · show ∀ r ∈ lm.log, ∀ t, r.isOf t → t < tm.nextTxnId
    rw [hlog, hid]
    exact h.ids
  · intro a ha
    show SnapOk a lm.log.length tm
    rw [hlog]
    exact (h.snap a (hstage a ha)).mono (Nat.le_refl _) hc

/-- The log of the threads is a history of lifecycles. -/
theorem ThreadInv.txn (h : ThreadInv s) {t : Nat} {v : TxnView}
    (hv : active s.sys.log t = some v) : TxnInv s.sys.log t v :=
  (h.hist.lifecycle fun _ _ hr => hr.lifecycle).2 t v hv

theorem ThreadInv.lsn_eq (h : ThreadInv s) {i : Nat} {r : Record} (hr : s.sys.log[i]? = some r) :
    r.lsn = i :=
  (h.hist.lifecycle fun _ _ hr => hr.lifecycle).1 i r hr

/-- A record that is neither BEGIN nor CHECKPOINT_END only has to fit its transaction's life. -/
theorem ThreadRule.of_lifecycle {log : List Record} {r : Record} (h : Lifecycle log r)
    (hb : r.body ≠ .begin) (he : r.body.isCheckpointEnd = false) : ThreadRule log r :=
  ⟨h, fun h' => absurd h' hb, fun a d h' => by rw [h'] at he; cases he⟩

theorem TmInv.append_checkpoint {log : List Record} {tm : TransactionManager} {r : Record}
    (h : TmInv log tm) (hr : ¬ r.isOf r.txnId) : TmInv (log ++ [r]) tm where
  txns t := (h.txns t).append_same (by
    rw [active_append_one]
    split
    · exact stepTxn_of_not_isOf hr _
    · rfl)
  fresh := h.fresh

end Steps

-- ---------------------------------------------------------------------------
-- Every step keeps it
-- ---------------------------------------------------------------------------

section Preservation

variable {s s' : Threads P}

theorem ThreadInv.init : ThreadInv (Threads.init : Threads P) where
  hist := .nil
  lm := ⟨rfl, fun f hf => by cases hf⟩
  tm := ⟨fun _ => rfl, fun _ _ => rfl⟩
  ids r hr := by cases hr
  snap a ha := by cases ha

theorem ThreadInv.begin (h : ThreadInv s) : ThreadInv { s with sys := s.sys.begin } := by
  have hnone : active s.sys.log s.sys.tm.nextTxnId = none := by
    have := h.tm.txns s.sys.tm.nextTxnId
    rwa [h.tm.fresh _ (Nat.le_refl _)] at this
  refine h.append _ _ _ ⟨⟨h.lm.next, hnone, rfl⟩, fun _ x hx hof => ?_, fun a d hb => by cases hb⟩
    (h.tm.insert ⟨s.sys.lm.nextLsn, s.sys.tm.nextTxnId, none, .begin⟩ ?_ (Nat.lt_succ_self _)
      (Nat.le_succ _)) (Nat.le_succ _) (fun _ => Nat.lt_succ_self _)
    (Commits.insert _ fun hc => by cases hc) (fun _ ha => ha)
  · exact Nat.lt_irrefl _ (h.ids x hx _ hof)
  · exact ⟨_, active_append_one_self, rfl, rfl⟩

theorem ThreadInv.logUpdate (h : ThreadInv s) {t p slot : Nat} {old new : Bytes} {key : Int}
    {sys : Sys P} (hs : s.sys.logUpdate t p slot old new key = some sys) :
    ThreadInv { s with sys } := by
  rw [Sys.logUpdate] at hs
  split at hs
  · rename_i prev hl
    obtain rfl := Option.some.inj hs
    have hok := h.tm.txns t
    rw [hl] at hok
    obtain ⟨v, hv, hlast, hroll⟩ := hok
    have hlt := h.tm.lt hl
    refine h.append _ _ _ (.of_lifecycle ⟨h.lm.next, v, hv, hroll, by rw [hlast]⟩ (by simp) rfl)
      (h.tm.insert ⟨s.sys.lm.nextLsn, t, some prev, .update p slot old new key⟩ ?_ hlt
        (Nat.le_refl _)) (Nat.le_refl _) (fun _ => hlt)
      (Commits.insert _ fun hc => by cases hc) (fun _ ha => ha)
    exact ⟨_, active_append_update hv, rfl, hroll⟩
  · cases hs

theorem ThreadInv.commitLog (h : ThreadInv s) {t : Nat} {sys : Sys P}
    (hs : s.sys.commitLog t = some sys) : ThreadInv { s with sys } := by
  rw [Sys.commitLog] at hs
  split at hs
  · rename_i prev hl
    obtain rfl := Option.some.inj hs
    have hok := h.tm.txns t
    rw [hl] at hok
    obtain ⟨v, hv, hlast, hroll⟩ := hok
    have hlt := h.tm.lt hl
    -- the COMMIT is behind everything a snapshot has seen
    exact h.append _ _ _ (.of_lifecycle ⟨h.lm.next, v, hv, hroll, by rw [hlast]⟩ (by simp) rfl)
      (h.tm.insert ⟨s.sys.lm.nextLsn, t, some prev, .commit⟩ active_append_one_self hlt
        (Nat.le_refl _)) (Nat.le_refl _) (fun _ => hlt)
      (Commits.insert _ fun _ => Or.inl (Nat.le_of_eq h.lm.next.symm)) (fun _ ha => ha)
  · cases hs

theorem ThreadInv.commitForce (h : ThreadInv s) {t : Nat} {sys : Sys P}
    (hs : s.sys.commitForce t = some sys) : ThreadInv { s with sys } := by
  rw [Sys.commitForce] at hs
  split at hs
  · rename_i prev c hl
    obtain rfl := Option.some.inj hs
    have hok := h.tm.txns t
    rw [hl] at hok
    exact h.quiet _ _ _ (s.sys.lm.flush_eq c) (h.tm.set hok (h.tm.lt hl)) rfl
      (Commits.insert _ fun _ => Or.inr ⟨_, hl, rfl, rfl⟩) (fun _ ha => ha)
  · cases hs

theorem ThreadInv.commitEnd (h : ThreadInv s) {t : Nat} {sys : Sys P}
    (hs : s.sys.commitEnd t = some sys) : ThreadInv { s with sys } := by
  rw [Sys.commitEnd] at hs
  split at hs
  · rename_i prev c hl
    obtain rfl := Option.some.inj hs
    have hok := h.tm.txns t
    rw [hl] at hok
    refine h.append _ _ _ (.of_lifecycle ⟨h.lm.next, fun v hv => ?_⟩ (by simp) rfl)
      (h.tm.erase ⟨s.sys.lm.nextLsn, t, some c, .txnEnd⟩ active_append_one_self) (Nat.le_refl _)
      (fun _ => h.tm.lt hl) (Commits.erase _ _ _) (fun _ ha => ha)
    rw [show active s.sys.log t = none from hok] at hv
    cases hv
  · cases hs

theorem ThreadInv.abortLog (h : ThreadInv s) {t : Nat} {sys : Sys P}
    (hs : s.sys.abortLog t = some sys) : ThreadInv { s with sys } := by
  rw [Sys.abortLog] at hs
  split at hs
  · rename_i prev hl
    obtain rfl := Option.some.inj hs
    have hok := h.tm.txns t
    rw [hl] at hok
    obtain ⟨v, hv, hlast, hroll⟩ := hok
    have hlt := h.tm.lt hl
    have hchain := (h.txn hv).chain
    rw [hlast] at hchain
    exact h.append _ _ _ (.of_lifecycle ⟨h.lm.next, v, hv, hroll, by rw [hlast]⟩ (by simp) rfl)
      (h.tm.insert ⟨s.sys.lm.nextLsn, t, some prev, .abort⟩
        ⟨_, prev, active_append_abort hv, rfl, rfl, hchain.append _⟩ hlt (Nat.le_refl _))
      (Nat.le_refl _) (fun _ => hlt) (Commits.insert _ fun hc => by cases hc) (fun _ ha => ha)
  · cases hs

theorem ThreadInv.abortStep [PageOps P] (h : ThreadInv s) {t : Nat} {sys : Sys P}
    (hs : s.sys.abortStep t = some sys) : ThreadInv { s with sys } := by
  have hflush : ThreadInv { s with sys := { s.sys with lm := s.sys.lm.flushAll } } :=
    h.quiet _ _ _ (Or.inr rfl) h.tm rfl (Commits.refl _ _) (fun _ ha => ha)
  have hlog : s.sys.lm.flushAll.log = s.sys.lm.log := LogManager.flushAll_log
  rw [Sys.abortStep] at hs
  split at hs
  · rename_i last u hl
    have hok := h.tm.txns t
    rw [hl] at hok
    obtain ⟨v, x, hv, hlast, hx, hchain⟩ := hok
    obtain rfl := Option.some.inj hx
    have hlt := h.tm.lt hl
    have hpos : ∀ (i : Nat) (r : Record), s.sys.lm.log[i]? = some r → r.lsn = i :=
      fun i r hr => h.lsn_eq hr
    -- the entry changes and nothing is logged
    have hset : ∀ y : Txn, y.phase.inCommit = false → TxnOk s.sys.log t (some y) →
        ThreadInv { s with sys := ({ s.sys with lm := s.sys.lm.flushAll } : Sys P).setTxn t y } :=
      fun y hy hok => h.quiet _ _ _ (Or.inr rfl) (h.tm.set hok hlt) rfl
        (Commits.insert _ fun hc => by rw [hy] at hc; cases hc) (fun _ ha => ha)
    generalize hpend : v.pend = us at hchain
    cases hchain with
    | @begin _ r hr ht hb =>
      simp only [LogManager.readRecordAtLsn_eq hpos hr, hb, Option.some.injEq] at hs
      subst hs
      exact hset _ rfl ⟨v, hv, hlast, hpend⟩
    | @update _ l' r us hr ht hb hp hlt' hrest =>
      obtain ⟨p, slot, old, new, k, hb⟩ := hb
      simp only [LogManager.readRecordAtLsn_eq hpos hr, hb, Sys.undoUpdate,
        BufferManager.fetchPage_snd, Option.some.injEq] at hs
      subst hs
      have hv' : active s.sys.lm.flushAll.log t = some v := by rw [hlog]; exact hv
      refine hflush.append _ _ _
        (.of_lifecycle ⟨hflush.lm.next, v, u, us, r, hv', hpend, by rw [hlast], ?_,
          ⟨new, k, hb⟩, rfl⟩ (by simp) rfl)
        (hflush.tm.insert _ ?_ hlt (Nat.le_refl _)) (Nat.le_refl _) (fun _ => hlt)
        (Commits.insert _ fun hc => by cases hc) (fun _ ha => ha)
      · show s.sys.lm.flushAll.log[u]? = some r
        rw [hlog]
        exact hr
      · refine ⟨_, l', active_append_clr hv', rfl, hp, ?_⟩
        rw [hpend]
        show UndoChain (s.sys.lm.flushAll.log ++ _) _ _ _
        rw [hlog]
        exact hrest.append _
    | @clr _ l' r us hr ht hb hlt' hrest =>
      obtain ⟨p, sl, n, hb⟩ := hb
      simp only [LogManager.readRecordAtLsn_eq hpos hr, hb, Option.some.injEq] at hs
      subst hs
      exact hset _ rfl ⟨v, l', hv, hlast, rfl, by rwa [hpend]⟩
    | @abort _ l' r us hr ht hb hp hlt' hrest =>
      simp only [LogManager.readRecordAtLsn_eq hpos hr, hb, Option.some.injEq] at hs
      subst hs
      exact hset _ rfl ⟨v, l', hv, hlast, hp, by rwa [hpend]⟩
  · rename_i last hl
    have hok := h.tm.txns t
    rw [hl] at hok
    obtain ⟨v, x, -, -, hx, -⟩ := hok
    cases hx
  · cases hs

theorem ThreadInv.abortEnd (h : ThreadInv s) {t : Nat} {sys : Sys P}
    (hs : s.sys.abortEnd t = some sys) : ThreadInv { s with sys } := by
  rw [Sys.abortEnd] at hs
  split at hs
  · rename_i last hl
    obtain rfl := Option.some.inj hs
    have hok := h.tm.txns t
    rw [hl] at hok
    obtain ⟨v, hv, -, hpend⟩ := hok
    refine h.append _ _ _ (.of_lifecycle ⟨h.lm.next, fun w hw => ?_⟩ (by simp) rfl)
      (h.tm.erase ⟨s.sys.lm.nextLsn, t, some last, .txnEnd⟩ active_append_one_self)
      (Nat.le_refl _) (fun _ => h.tm.lt hl) (Commits.erase _ _ _) (fun _ ha => ha)
    rw [show active s.sys.log t = some v from hv] at hw
    rw [← Option.some.inj hw]
    exact hpend
  · cases hs

theorem ThreadInv.ckptBegin (h : ThreadInv s) : ThreadInv
    ⟨{ s.sys with lm := (s.sys.lm.append invalidU64 none .checkpointBegin).1 }, .begun⟩ :=
  h.append _ _ _ (.of_lifecycle ⟨h.lm.next, trivial⟩ (by simp) rfl)
    (h.tm.append_checkpoint fun hof => hof.2.1 rfl) (Nat.le_refl _)
    (fun hof => absurd rfl hof.2.1) (Commits.refl _ _) (fun _ ha => by cases ha)

/-- Under the mutex the snapshot sees no transaction inside `commit()`. -/
theorem ThreadInv.getAttSnapshot (h : ThreadInv s) (hfree : s.sys.mutexFree = true) :
    ThreadInv { s with stage := .attTaken s.sys.tm.getAttSnapshot } := by
  refine ⟨h.hist, h.lm, h.tm, h.ids, fun a ha => ?_⟩
  obtain rfl := Option.some.inj ha
  intro t l hl
  rw [lookup_attSnapshot, Option.map_eq_some_iff] at hl
  obtain ⟨x, hx, rfl⟩ := hl
  have hnot := mutexFree_iff.mp hfree t x hx
  refine ⟨?_, fun y hy hin => ?_⟩
  · have hok := h.tm.txns t
    rw [hx] at hok
    have hlast : ∀ {v : TxnView}, active s.sys.log t = some v → v.last < s.sys.log.length :=
      fun hv => (h.txn hv).chain.lt_length
    match x with
    | ⟨prev, .growing⟩ =>
      obtain ⟨v, hv, rfl, -⟩ := hok
      exact hlast hv
    | ⟨prev, .committing _⟩ => cases hnot
    | ⟨prev, .committed _⟩ => cases hnot
    | ⟨prev, .aborting _⟩ =>
      obtain ⟨v, u, hv, rfl, -⟩ := hok
      exact hlast hv
    | ⟨prev, .aborted⟩ =>
      obtain ⟨v, hv, rfl, -⟩ := hok
      exact hlast hv
  · rw [hx] at hy
    obtain rfl := Option.some.inj hy
    rw [hnot] at hin
    cases hin

/-- A snapshot that still is the ATT lists exactly the open transactions. -/
theorem ThreadInv.attExact (h : ThreadInv s) {a : List (Nat × Nat)} (ha : s.stage.att? = some a)
    (hsame : ∀ t, (toTable a).lookup t = (s.sys.tm.att.lookup t).map Txn.prevLsn) :
    AttExact (toTable a) s.sys.log := by
  intro t
  have hok := h.tm.txns t
  have hcommit : ∀ x, s.sys.tm.att.lookup t = some x → x.phase.inCommit = false := by
    intro x hx
    by_contra hin
    rw [Bool.not_eq_false] at hin
    have hl : (toTable a).lookup t = some x.prevLsn := by rw [hsame, hx, Option.map_some]
    exact Nat.lt_irrefl _ ((h.snap a ha t _ hl).2 x hx hin)
  rw [hsame t]
  cases hx : s.sys.tm.att.lookup t with
  | none =>
    rw [hx] at hok
    rw [show active s.sys.log t = none from hok]
    rfl
  | some x =>
    rw [hx] at hok
    have hnot := hcommit x hx
    match x with
    | ⟨prev, .growing⟩ =>
      obtain ⟨v, hv, rfl, -⟩ := hok
      rw [hv]
      rfl
    | ⟨prev, .committing _⟩ => cases hnot
    | ⟨prev, .committed _⟩ => cases hnot
    | ⟨prev, .aborting _⟩ =>
      obtain ⟨v, u, hv, rfl, -⟩ := hok
      rw [hv]
      rfl
    | ⟨prev, .aborted⟩ =>
      obtain ⟨v, hv, rfl, -⟩ := hok
      rw [hv]
      rfl

theorem ThreadInv.ckptEnd (h : ThreadInv s) {a d : List (Nat × Nat)}
    (hstage : s.stage = .tablesTaken a d) (hok : Undisturbed s .ckptEnd) : ThreadInv
    ⟨{ s.sys with lm := (s.sys.lm.append invalidU64 none (.checkpointEnd a d)).1 },
      .ended s.sys.lm.nextLsn⟩ := by
  have hexact := h.attExact (a := a) (by rw [hstage]; rfl) (hok a d hstage)
  refine h.append _ _ _ ⟨⟨h.lm.next, trivial⟩, fun hb => (by cases hb), fun a' d' hb => ?_⟩
    (h.tm.append_checkpoint fun hof => by cases hof.2.2) (Nat.le_refl _)
    (fun hof => by cases hof.2.2) (Commits.refl _ _) (fun _ ha => by cases ha)
  cases hb
  exact hexact

/-- **Every step of every thread keeps the invariant.** -/
theorem ThreadInv.step [PageOps P] {e : Action P} (h : ThreadInv s) (hok : Undisturbed s e)
    (hs : act s e = some s') : ThreadInv s' := by
  have hmap : ∀ {o : Option (Sys P)}, (∀ sys, o = some sys → ThreadInv { s with sys }) →
      (o.map fun sys => { s with sys }) = some s' → ThreadInv s' := by
    intro o ho hs
    obtain ⟨sys, hsys, rfl⟩ := Option.map_eq_some_iff.mp hs
    exact ho sys hsys
  have hbm : ∀ {sys : Sys P}, (sys.lm = s.sys.lm ∨ sys.lm = s.sys.lm.flushAll) →
      sys.tm = s.sys.tm → ThreadInv { s with sys } := by
    intro sys hlm htm
    exact h.quiet sys.bm sys.mode sys.ckpt hlm (by rw [htm]; exact h.tm) (by rw [htm])
      (by rw [htm]; exact Commits.refl _ _) (fun _ ha => ha)
  cases e with
  | begin =>
    simp only [act, Option.ite_none_right_eq_some] at hs
    obtain rfl := Option.some.inj hs.2
    exact h.begin
  | logUpdate t p slot old new key => exact hmap (fun _ => h.logUpdate) hs
  | commitLog t =>
    simp only [act, Option.ite_none_right_eq_some] at hs
    exact hmap (fun _ => h.commitLog) hs.2
  | commitForce t => exact hmap (fun _ => h.commitForce) hs
  | commitEnd t => exact hmap (fun _ => h.commitEnd) hs
  | abortLog t => exact hmap (fun _ => h.abortLog) hs
  | abortStep t => exact hmap (fun _ => h.abortStep) hs
  | abortEnd t =>
    simp only [act, Option.ite_none_right_eq_some] at hs
    exact hmap (fun _ => h.abortEnd) hs.2
  | changePage p x =>
    obtain rfl := Option.some.inj hs
    exact hbm (Or.inl rfl) rfl
  | flushPage p =>
    obtain rfl := Option.some.inj hs
    exact hbm (flushPage_lm s.sys p).1 (flushPage_tm s.sys p)
  | evict p =>
    obtain rfl := Option.some.inj hs
    exact hbm (evict_lm s.sys p).1 (evict_tm s.sys p)
  | flushLog =>
    obtain rfl := Option.some.inj hs
    exact hbm (Or.inr rfl) rfl
  | ckptBegin =>
    simp only [act] at hs
    split at hs
    · obtain rfl := Option.some.inj hs
      exact h.ckptBegin
    · cases hs
  | getAttSnapshot =>
    simp only [act] at hs
    split at hs
    · rw [Option.ite_none_right_eq_some] at hs
      obtain rfl := Option.some.inj hs.2
      exact h.getAttSnapshot hs.1
    · cases hs
  | getDirtyPages =>
    simp only [act] at hs
    split at hs
    · rename_i a hstage
      obtain rfl := Option.some.inj hs
      exact ⟨h.hist, h.lm, h.tm, h.ids, fun a' ha => h.snap a' (by rw [hstage]; exact ha)⟩
    · cases hs
  | ckptEnd =>
    simp only [act] at hs
    split at hs
    · rename_i a d hstage
      obtain rfl := Option.some.inj hs
      exact h.ckptEnd hstage hok
    · cases hs
  | ckptFinish =>
    simp only [act] at hs
    split at hs
    · rename_i e hstage
      obtain rfl := Option.some.inj hs
      exact h.quiet _ _ _ (s.sys.lm.flush_eq e) h.tm rfl (Commits.refl _ _) (fun _ ha => by cases ha)
    · cases hs

/-- **A fuzzy checkpoint turns no committed transaction into a loser and hides
no loser**, in every interleaving in which each snapshot still is the ATT when
CHECKPOINT_END is appended: whenever the system crashes, the ATT that
`analyze()` computes from the log file holds exactly the transactions that have
a BEGIN but neither COMMIT nor TXN_END there, with the LSNs of their last
records. -/
theorem analyze_finds_losers [PageOps P] (hrun : Steps act Undisturbed Threads.init s)
    (t l : Nat) :
    (analyze s.sys.lm.file).1.lookup t = some l ↔ Loser s.sys.lm.file t l := by
  have hinv : ThreadInv s := hrun.invariant (fun _ _ _ h => h.step) ThreadInv.init
  have hist : History ThreadRule s.sys.lm.file := hinv.hist.of_append
  have hexact : AttExact (analyze s.sys.lm.file).1 s.sys.lm.file :=
    analyze_attExact (fun _ _ hr => hr.lifecycle) (fun _ _ a d hr hb => hr.snapshot a d hb) hist
  exact hexact.loser hist t l

end Preservation

-- ---------------------------------------------------------------------------
-- Two interleavings
-- ---------------------------------------------------------------------------

/-- `Undisturbed`, decided. -/
def undisturbedCheck [PageOps P] (s : Threads P) : Action P → Bool
  | .ckptEnd =>
    match s.stage with
    | .tablesTaken att _ => att == s.sys.tm.getAttSnapshot
    | _ => true
  | _ => true

theorem undisturbed_of_check [PageOps P] (s : Threads P) (e : Action P)
    (h : undisturbedCheck s e = true) : Undisturbed s e := by
  cases e with
  | ckptEnd =>
    intro att dpt hstage t
    rw [undisturbedCheck, hstage] at h
    rw [eq_of_beq h, lookup_attSnapshot]
  | _ => trivial

/-- Two transactions, one of which commits behind CHECKPOINT_END while the other goes on. -/
def commitBehindEnd : List (Action SlotPage) :=
  [.begin, .begin, .logUpdate 0 0 0 [] [7] 0, .ckptBegin, .getAttSnapshot, .getDirtyPages, .ckptEnd,
    .logUpdate 1 0 1 [] [8] 0, .commitLog 0, .ckptFinish]

theorem analyze_after_commit_behind_end :
    (lastCheckpoint (run act undisturbedCheck Threads.init commitBehindEnd).1.sys.lm.file).isSome
      = true ∧
    (analyze (run act undisturbedCheck Threads.init commitBehindEnd).1.sys.lm.file).1.lookup 1
      = some 5 ∧
    ∀ t l,
      (analyze (run act undisturbedCheck Threads.init commitBehindEnd).1.sys.lm.file).1.lookup t
        = some l ↔
      Loser (run act undisturbedCheck Threads.init commitBehindEnd).1.sys.lm.file t l :=
  ⟨by decide +kernel, by decide +kernel,
    analyze_finds_losers (Steps.of_run undisturbed_of_check (by decide +kernel))⟩

/-- A transaction that commits between `get_att_snapshot()` and the append of CHECKPOINT_END. -/
def commitInWindow : List (Action SlotPage) :=
  [.begin, .ckptBegin, .getAttSnapshot, .commitLog 0, .commitForce 0, .commitEnd 0, .getDirtyPages,
    .ckptEnd, .ckptFinish]

/-- It is in the ATT that `analyze()` computes although its COMMIT is in the log file. -/
theorem commit_in_window_becomes_loser :
    Steps act (fun _ _ => True) Threads.init
      (run act (fun _ _ => true) Threads.init commitInWindow).1 ∧
    (run act (fun _ _ => true) Threads.init commitInWindow).1.sys.lm.file.map
      (fun r => (r.txnId, r.body)) = [(0, .begin), (invalidU64, .checkpointBegin), (0, .commit),
        (0, .txnEnd), (invalidU64, .checkpointEnd [(0, 0)] [])] ∧
    (analyze (run act (fun _ _ => true) Threads.init commitInWindow).1.sys.lm.file).1.lookup 0
      = some 0 ∧
    ¬ Loser (run act (fun _ _ => true) Threads.init commitInWindow).1.sys.lm.file 0 0 := by
  refine ⟨Steps.of_run (fun _ _ _ => trivial) (by decide +kernel), by decide +kernel,
    by decide +kernel, fun h => ?_⟩
  have hcommit : ∃ r ∈ (run act (fun _ _ => true) Threads.init commitInWindow).1.sys.lm.file,
      r.txnId = 0 ∧ r.body = .commit := by decide +kernel
  obtain ⟨r, hr, ht, hb⟩ := hcommit
  exact (h.unended r hr ht).1 hb

end PersistX
