import PersistX.Wal.Compensation
import PersistX.Aries.Interruption
import PersistX.Aries.FuzzyCheckpoint

/-!
# PersistX — every UPDATE of a loser is compensated exactly once

The log alone, whatever the pages hold. Transactions may log any update
(`Sys.logUpdate`) and change any page; a crash may come at any step, also in the
middle of writing the log buffer, and leaves any page images. No operation is
asked to stay off the slots of other transactions.

`LogInv` says that the log is a history whose links stay inside their
transaction (`LinkRule`) and that the ATT, or the tables of recovery, agree
with it. Main results: `LogInv.step` (every step keeps it), `LogInv.abort_ends`
and `LogInv.undo_ends` (the two undo loops come to an end),
`LogInv.recovered` (what is in the log file when `recover()` returns).
-/

namespace PersistX

open Transition

variable {P : Type}

-- ---------------------------------------------------------------------------
-- Links
-- ---------------------------------------------------------------------------

/-- `l` is the `prev_lsn` or the `undo_next_lsn` of the record. -/
def Record.LinksTo (r : Record) (l : Nat) : Prop :=
  r.prevLsn = some l ∨ ∃ p s n, r.body = .clr p s n (some l)

/-- The record is of a transaction and points to earlier records of it. -/
structure LogRule (log : List Record) (r : Record) : Prop where
  life : Lifecycle log r
  links : ∀ l, r.LinksTo l → ∃ r', log[l]? = some r' ∧ r'.txnId = r.txnId
  noCkpt : r.body ≠ .checkpointBegin ∧ r.body.isCheckpointEnd = false

/-- A record that fits the life of its transaction points to its records; for
TXN_END, which need not, it has to be shown. -/
theorem LogRule.of_lifecycle {log : List Record} {r : Record} (hist : History LogRule log)
    (hlife : Lifecycle log r)
    (hend : r.body = .txnEnd → ∀ l, r.prevLsn = some l → ∃ r', log[l]? = some r' ∧ r'.txnId = r.txnId)
    (hck : r.body ≠ .checkpointBegin ∧ r.body.isCheckpointEnd = false) : LogRule log r := by
  refine ⟨hlife, ?_, hck⟩
  have hinv := (hist.lifecycle fun _ _ h => h.life).2
  have hlast : ∀ v, active log r.txnId = some v → r.prevLsn = some v.last →
      ∀ l, r.prevLsn = some l → ∃ r', log[l]? = some r' ∧ r'.txnId = r.txnId := by
    intro v hv hprev l hl
    rw [hprev] at hl
    rw [← Option.some.inj hl]
    exact (hinv _ _ hv).chain.record
  obtain ⟨-, hlife⟩ := hlife
  rintro l (hl | ⟨p, s, n, hb⟩)
  · cases hb : r.body <;> rw [hb] at hlife
    case begin =>
      rw [hlife.2] at hl
      cases hl
    case txnEnd => exact hend hb l hl
    case checkpointBegin => exact absurd hb hck.1
    case checkpointEnd =>
      rw [hb] at hck
      cases hck.2
    case clr =>
      obtain ⟨v, u, us, ru, hv, -, hprev, -⟩ := hlife
      exact hlast v hv hprev l hl
    all_goals
      obtain ⟨v, hv, -, hprev⟩ := hlife
      exact hlast v hv hprev l hl
  · rw [hb] at hlife
    obtain ⟨v, u, us, ru, hv, hpend, -, hru, -, hun⟩ := hlife
    have hchain := (hinv _ _ hv).chain
    rw [hpend] at hchain
    obtain ⟨x, l', hx, -, -, hp, -, hrest⟩ := hchain.head
    obtain rfl := Option.some.inj (hru.symm.trans hx)
    obtain rfl := Option.some.inj (hun.trans hp)
    exact hrest.record

/-- In the whole log a link goes backwards, to a record of the same transaction. -/
theorem History.links {log : List Record} (h : History LogRule log) {i : Nat} {r : Record}
    (hr : log[i]? = some r) :
    r.lsn = i ∧ ∀ l, r.LinksTo l → l < r.lsn ∧ ∃ r', log[l]? = some r' ∧ r'.txnId = r.txnId := by
  have hlsn : r.lsn = i := (h.lifecycle fun _ _ h => h.life).1 i r hr
  refine ⟨hlsn, fun l hl => ?_⟩
  obtain ⟨r', hr', ht⟩ := (h.rule_at hr).links l hl
  rw [List.getElem?_take] at hr'
  split at hr'
  · rename_i hlt
    exact ⟨by rw [hlsn]; exact hlt, r', hr', ht⟩
  · cases hr'

-- ---------------------------------------------------------------------------
-- Steps that are free to do anything to the pages
-- ---------------------------------------------------------------------------

section Model

variable [PageOps P]

/-- Power off in the middle of `flush_all`: the first `n` records of the buffer are written. -/
def Sys.crashInFlush (s : Sys P) (n : Nat) (choice : Nat → P) : Sys P :=
  { s with lm := { s.lm with file := s.lm.file ++ s.lm.buffer.take n } }.crash choice

/-- One piece of work, with the clients free to change pages and to log what they like. -/
inductive LogEvent (P : Type) where
  | event (e : Event P)
  | logUpdate (t p slot : Nat) (old new : Bytes) (key : Int)
  | setPage (p : Nat) (x : P) (isDirty : Bool)
  | crashInFlush (n : Nat) (choice : Nat → P)

/-- What the code does; no checkpoint is taken. -/
def LogEvent.step (s : Sys P) : LogEvent P → Option (Sys P)
  | .event e => if e.isCkpt then none else PersistX.step s e
  | .logUpdate t p slot old new key =>
    if s.running then s.logUpdate t p slot old new key else none
  | .setPage p x isDirty =>
    if s.running then some { s with bm := (s.bm.fetchPage p).1.unpinPage p x isDirty } else none
  | .crashInFlush n choice => some (s.crashInFlush n choice)

/-- Every event may come at any time. -/
def LogEvent.Free (_ : Sys P) (_ : LogEvent P) : Prop := True

end Model

-- ---------------------------------------------------------------------------
-- The invariant
-- ---------------------------------------------------------------------------

/-- The COMMIT records of the transactions in `commit` are in the log. -/
def CommitLogged (log : List Record) (tm : TransactionManager) : Prop :=
  ∀ t prev c, tm.att.lookup t = some ⟨prev, .committing c⟩ ∨
    tm.att.lookup t = some ⟨prev, .committed c⟩ → ∃ r, log[c]? = some r ∧ r.txnId = t

/-- What the log says about where the system is. -/
def LogMode (s : Sys P) : Prop :=
  match s.mode with
  | .normal => TmInv s.log s.tm ∧ CommitLogged s.log s.tm
  | .down => s.lm.buffer = []
  | .redo _ _ att => AttExact att s.log
  | .undo toUndo att => AttExact att s.log ∧ UndoInv s.log toUndo
  | .flushing => s.lm.buffer = [] ∧ ∀ t, active s.log t = none

/-- **The invariant of the log.** -/
structure LogInv (s : Sys P) : Prop where
  hist : History LogRule s.log
  live : s.mode ≠ .down → s.lm.Ok
  mode : LogMode s
  idle : s.ckpt = .idle

theorem LogInv.init [PageOps P] : LogInv (Sys.init : Sys P) where
  hist := .nil
  live _ := ⟨rfl, fun _ hf => by cases hf⟩
  mode := ⟨⟨fun _ => rfl, fun _ _ => rfl⟩, fun _ _ _ h => by rcases h with h | h <;> cases h⟩
  idle := rfl

theorem LogInv.lifecycle {s : Sys P} (h : LogInv s) :
    (∀ (i : Nat) (r : Record), s.log[i]? = some r → r.lsn = i) ∧
    ∀ t v, active s.log t = some v → TxnInv s.log t v :=
  h.hist.lifecycle fun _ _ h => h.life

theorem LogInv.normal {s : Sys P} (h : LogInv s) (hn : s.mode = .normal) :
    TmInv s.log s.tm ∧ CommitLogged s.log s.tm ∧ s.lm.nextLsn = s.log.length := by
  have hm := h.mode
  rw [LogMode, hn] at hm
  exact ⟨hm.1, hm.2, (h.live (by rw [hn]; simp)).next⟩

/-- The log buffer is written out or not, and pages change. -/
theorem LogInv.of_flush {s s' : Sys P} (h : LogInv s)
    (hlm : s'.lm = s.lm ∨ s'.lm = s.lm.flushAll) (htm : s'.tm = s.tm) (hmode : s'.mode = s.mode)
    (hck : s'.ckpt = s.ckpt) : LogInv s' := by
  have hlog : s'.log = s.log := LogManager.log_eq_of_flush hlm
  have hbuf : s.lm.buffer = [] → s'.lm.buffer = [] := by
    intro hb
    rcases hlm with hlm | hlm
    · rw [hlm, hb]
    · rw [hlm, LogManager.flushAll_buffer]
  refine ⟨by rw [hlog]; exact h.hist, fun hd => ?_, ?_, hck.trans h.idle⟩
  · have hok := h.live (by rwa [← hmode])
    rcases hlm with hlm | hlm
    · rw [hlm]
      exact hok
    · rw [hlm]
      exact hok.flushAll
  · have hm := h.mode
    rw [LogMode] at hm ⊢
    rw [hmode, hlog, htm]
    cases hmd : s.mode <;> rw [hmd] at hm
    case normal => exact hm
    case down => exact hbuf hm
    case redo => exact hm
    case undo => exact hm
    case flushing => exact ⟨hbuf hm.1, hm.2⟩

theorem CommitLogged.append {log : List Record} {tm : TransactionManager} (h : CommitLogged log tm)
    (r : Record) : CommitLogged (log ++ [r]) tm := by
  intro t prev c hc
  obtain ⟨x, hx, ht⟩ := h t prev c hc
  exact ⟨x, getElem?_append_of_some hx, ht⟩

/-- An entry that is not in `commit`, or whose COMMIT record is logged. -/
theorem CommitLogged.insert {log : List Record} {tm : TransactionManager} {t next : Nat} {x : Txn}
    (h : CommitLogged log tm) (hx : ∀ c, x.phase = .committing c ∨ x.phase = .committed c →
      ∃ r, log[c]? = some r ∧ r.txnId = t) :
    CommitLogged log ⟨tm.att.insert t x, next⟩ := by
  intro t' prev c hc
  by_cases ht : t' = t
  · subst ht
    simp only [AList.lookup_insert, Option.some.injEq] at hc
    refine hx c (hc.imp ?_ ?_) <;> intro he <;> rw [he]
  · simp only [AList.lookup_insert_ne ht] at hc
    exact h t' prev c hc

theorem CommitLogged.erase {log : List Record} {tm : TransactionManager} (h : CommitLogged log tm)
    (t : Nat) : CommitLogged log { tm with att := tm.att.erase t } := by
  intro t' prev c hc
  by_cases ht : t' = t
  · subst ht
    simp only [AList.lookup_erase, reduceCtorEq, or_self] at hc
  · simp only [AList.lookup_erase_ne ht] at hc
    exact h t' prev c hc

-- ---------------------------------------------------------------------------
-- Normal operation
-- ---------------------------------------------------------------------------

/-- One record is appended in normal operation. -/
theorem LogInv.append {s : Sys P} (h : LogInv s) (hn : s.mode = .normal) {t : Nat}
    {pr : Option Nat} {b : RecordBody} {bm : BufferManager P} {tm : TransactionManager}
    (hr : LogRule s.log ⟨s.lm.nextLsn, t, pr, b⟩)
    (htm : TmInv (s.log ++ [⟨s.lm.nextLsn, t, pr, b⟩]) tm)
    (hcommit : CommitLogged (s.log ++ [⟨s.lm.nextLsn, t, pr, b⟩]) tm) :
    LogInv { s with lm := (s.lm.append t pr b).1, bm, tm } := by
  have hlog : (s.lm.append t pr b).1.log = s.log ++ [⟨s.lm.nextLsn, t, pr, b⟩] :=
    LogManager.append_log t pr b
  refine ⟨?_, fun _ => (h.live (by rw [hn]; simp)).append t pr b, ?_, h.idle⟩
  · show History _ (s.lm.append t pr b).1.log
    rw [hlog]
    exact .snoc h.hist hr
  · simp only [LogMode, hn, Sys.log, hlog]
    exact ⟨htm, hcommit⟩

/-- The ATT changes and nothing is logged. -/
theorem LogInv.setTm {s : Sys P} (h : LogInv s) (hn : s.mode = .normal) {tm : TransactionManager}
    (htm : TmInv s.log tm) (hcommit : CommitLogged s.log tm) : LogInv { s with tm } := by
  refine ⟨h.hist, h.live, ?_, h.idle⟩
  rw [LogMode, hn]
  exact ⟨htm, hcommit⟩

/-- A record of a transaction that goes on: its entry is replaced. -/
theorem LogInv.appendTxn {s : Sys P} (h : LogInv s) (hn : s.mode = .normal) {t next : Nat}
    {pr : Option Nat} {b : RecordBody} {bm : BufferManager P} {x : Txn}
    (hlife : Lifecycle s.log ⟨s.lm.nextLsn, t, pr, b⟩) (hb : b ≠ .txnEnd)
    (hck : b ≠ .checkpointBegin ∧ b.isCheckpointEnd = false)
    (hx : TxnOk (s.log ++ [⟨s.lm.nextLsn, t, pr, b⟩]) t (some x))
    (hlt : t < next) (hnext : s.tm.nextTxnId ≤ next)
    (hphase : ∀ c, x.phase = .committing c ∨ x.phase = .committed c → c = s.lm.nextLsn) :
    LogInv { s with lm := (s.lm.append t pr b).1, bm, tm := ⟨s.tm.att.insert t x, next⟩ } := by
  obtain ⟨htm, hcommit, hlen⟩ := h.normal hn
  refine h.append hn (.of_lifecycle h.hist hlife (fun he => absurd he hb) hck)
    (htm.insert ⟨s.lm.nextLsn, t, pr, b⟩ hx hlt hnext) ((hcommit.append _).insert fun c hc => ?_)
  rw [hphase c hc, hlen, List.getElem?_concat_length]
  exact ⟨_, rfl, rfl⟩

theorem LogInv.begin {s : Sys P} (h : LogInv s) (hn : s.mode = .normal) : LogInv s.begin := by
  obtain ⟨htm, -, hlen⟩ := h.normal hn
  have hnone : active s.log s.tm.nextTxnId = none := by
    have := htm.txns s.tm.nextTxnId
    rwa [htm.fresh _ (Nat.le_refl _)] at this
  refine h.appendTxn hn ⟨hlen, hnone, rfl⟩ (by simp) ⟨by simp, rfl⟩ ?_ (Nat.lt_succ_self _)
    (Nat.le_succ _) (by simp)
  exact ⟨_, active_append_one_self, rfl, rfl⟩

/-- The entry of a transaction between two calls. -/
theorem LogInv.growing {s : Sys P} (h : LogInv s) (hn : s.mode = .normal) {t prev : Nat}
    (hl : s.tm.att.lookup t = some ⟨prev, .growing⟩) :
    t < s.tm.nextTxnId ∧ ∃ v, active s.log t = some v ∧ v.last = prev ∧ v.rolling = false := by
  obtain ⟨htm, -, -⟩ := h.normal hn
  have hok := htm.txns t
  rw [hl] at hok
  exact ⟨htm.lt hl, hok⟩

/-- An UPDATE record, whatever the page becomes. -/
theorem LogInv.logUpdate {s : Sys P} (h : LogInv s) (hn : s.mode = .normal) {t prev : Nat}
    (hl : s.tm.att.lookup t = some ⟨prev, .growing⟩) (bm : BufferManager P) (p slot : Nat)
    (old new : Bytes) (key : Int) :
    LogInv ({ s with lm := (s.lm.append t (some prev) (.update p slot old new key)).1, bm }.setTxn t
      ⟨s.lm.nextLsn, .growing⟩) := by
  obtain ⟨hlt, v, hv, hlast, hroll⟩ := h.growing hn hl
  refine h.appendTxn hn ⟨(h.normal hn).2.2, v, hv, hroll, by rw [hlast]⟩ (by simp) ⟨by simp, rfl⟩ ?_
    hlt (Nat.le_refl _) (by simp)
  exact ⟨_, active_append_update hv, rfl, hroll⟩

theorem LogInv.commitLog {s s' : Sys P} {t : Nat} (h : LogInv s) (hn : s.mode = .normal)
    (hs : s.commitLog t = some s') : LogInv s' := by
  rw [Sys.commitLog] at hs
  split at hs
  · rename_i prev hl
    obtain rfl := Option.some.inj hs
    obtain ⟨hlt, v, hv, hlast, hroll⟩ := h.growing hn hl
    refine h.appendTxn hn ⟨(h.normal hn).2.2, v, hv, hroll, by rw [hlast]⟩ (by simp) ⟨by simp, rfl⟩ ?_
      hlt (Nat.le_refl _) ?_
    · exact active_append_one_self
    · simp
  · cases hs

theorem LogInv.commitForce {s s' : Sys P} {t : Nat} (h : LogInv s) (hn : s.mode = .normal)
    (hs : s.commitForce t = some s') : LogInv s' := by
  rw [Sys.commitForce] at hs
  split at hs
  · rename_i prev c hl
    obtain rfl := Option.some.inj hs
    have h' : LogInv { s with lm := s.lm.flush c } :=
      h.of_flush (s.lm.flush_eq c) rfl rfl rfl
    obtain ⟨htm, hcommit, -⟩ := h'.normal hn
    have hok := htm.txns t
    simp only [hl] at hok
    refine h'.setTm hn (htm.set hok (htm.lt hl)) (hcommit.insert fun c' hc' => ?_)
    simp only [reduceCtorEq, TxnPhase.committed.injEq, false_or] at hc'
    rw [← hc']
    exact hcommit t prev c (.inl hl)
  · cases hs

theorem LogInv.commitEnd {s s' : Sys P} {t : Nat} (h : LogInv s) (hn : s.mode = .normal)
    (hs : s.commitEnd t = some s') : LogInv s' := by
  obtain ⟨htm, hcommit, hlen⟩ := h.normal hn
  rw [Sys.commitEnd] at hs
  split at hs
  · rename_i prev c hl
    obtain rfl := Option.some.inj hs
    have hok := htm.txns t
    rw [hl] at hok
    refine h.append hn (.of_lifecycle h.hist ⟨hlen, ?_⟩ (fun _ l hl' => ?_) ⟨by simp, rfl⟩)
      (htm.erase ⟨s.lm.nextLsn, t, some c, .txnEnd⟩ active_append_one_self)
      ((hcommit.append _).erase t)
    · intro v hv
      rw [show active s.log t = none from hok] at hv
      cases hv
    · rw [← Option.some.inj hl']
      exact hcommit t prev c (.inr hl)
  · cases hs

theorem LogInv.abortLog {s s' : Sys P} {t : Nat} (h : LogInv s) (hn : s.mode = .normal)
    (hs : s.abortLog t = some s') : LogInv s' := by
  rw [Sys.abortLog] at hs
  split at hs
  · rename_i prev hl
    obtain rfl := Option.some.inj hs
    obtain ⟨hlt, v, hv, hlast, hroll⟩ := h.growing hn hl
    have hchain := (h.lifecycle.2 t v hv).chain
    rw [hlast] at hchain
    refine h.appendTxn hn ⟨(h.normal hn).2.2, v, hv, hroll, by rw [hlast]⟩ (by simp) ⟨by simp, rfl⟩ ?_
      hlt (Nat.le_refl _) (by simp)
    exact ⟨_, prev, active_append_abort hv, rfl, rfl, hchain.append _⟩
  · cases hs

theorem LogInv.abortEnd {s s' : Sys P} {t : Nat} (h : LogInv s) (hn : s.mode = .normal)
    (hs : s.abortEnd t = some s') : LogInv s' := by
  obtain ⟨htm, hcommit, hlen⟩ := h.normal hn
  rw [Sys.abortEnd] at hs
  split at hs
  · rename_i last hl
    obtain rfl := Option.some.inj hs
    have hok := htm.txns t
    rw [hl] at hok
    obtain ⟨v, hv, hlast, hpend⟩ := hok
    refine h.append hn (.of_lifecycle h.hist ⟨hlen, ?_⟩ (fun _ l hl' => ?_) ⟨by simp, rfl⟩)
      (htm.erase ⟨s.lm.nextLsn, t, some last, .txnEnd⟩ active_append_one_self)
      ((hcommit.append _).erase t)
    · intro w hw
      rw [show active s.log t = some v from hv] at hw
      rw [← Option.some.inj hw]
      exact hpend
    · rw [← Option.some.inj hl', ← hlast]
      exact (h.lifecycle.2 t v hv).chain.record
  · cases hs

variable [PageOps P]

/-- **One iteration of the loop of `abort`.** The loop is through, or goes on at
a smaller LSN. -/
theorem LogInv.abortStep {s s' : Sys P} {t : Nat} (h : LogInv s) (hn : s.mode = .normal)
    (hs : s.abortStep t = some s') : LogInv s' ∧ s'.mode = .normal ∧
      ∃ last u, s.tm.att.lookup t = some ⟨last, .aborting (some u)⟩ ∧ ∃ last',
        s'.tm.att.lookup t = some ⟨last', .aborted⟩ ∨
          ∃ u' < u, s'.tm.att.lookup t = some ⟨last', .aborting (some u')⟩ := by
  have h' : LogInv { s with lm := s.lm.flushAll } := h.of_flush (.inr rfl) rfl rfl rfl
  have hlog : ({ s with lm := s.lm.flushAll } : Sys P).log = s.log := LogManager.flushAll_log
  obtain ⟨htm, hcommit, hlen⟩ := h'.normal hn
  rw [Sys.abortStep] at hs
  split at hs
  · rename_i last u hl
    have hok := htm.txns t
    simp only [hl] at hok
    obtain ⟨v, x, hv, hlast, hx, hchain⟩ := hok
    obtain rfl := Option.some.inj hx
    have hpos : ∀ (i : Nat) (r : Record), s.lm.log[i]? = some r → r.lsn = i := h.lifecycle.1
    -- the entry changes and nothing is logged
    have hset : ∀ y, TxnOk ({ s with lm := s.lm.flushAll } : Sys P).log t (some y) →
        (∀ c, y.phase ≠ .committing c ∧ y.phase ≠ .committed c) →
        LogInv (({ s with lm := s.lm.flushAll } : Sys P).setTxn t y) := by
      intro y hy hph
      refine h'.setTm hn (htm.set hy (htm.lt hl)) (hcommit.insert fun c hc => ?_)
      exact absurd hc (not_or.mpr (hph c))
    have hget : ∀ {r : Record}, ({ s with lm := s.lm.flushAll } : Sys P).log[u]? = some r →
        s.lm.log[u]? = some r := by
      intro r hr
      rwa [hlog] at hr
    generalize hpend : v.pend = us at hchain
    cases hchain with
    | @begin _ r hr ht hb =>
      simp only [LogManager.readRecordAtLsn_eq hpos (hget hr), hb, Option.some.injEq] at hs
      subst hs
      exact ⟨hset _ ⟨v, hv, hlast, hpend⟩ (by simp), hn, last, u, hl, last,
        .inl (AList.lookup_insert _)⟩
    | @update _ l' r us hr ht hb hp hlt hrest =>
      obtain ⟨p, slot, old, new, k, hb⟩ := hb
      simp only [LogManager.readRecordAtLsn_eq hpos (hget hr), hb, Sys.undoUpdate,
        Option.some.injEq] at hs
      subst hs
      refine ⟨h'.appendTxn hn ⟨hlen, v, u, us, r, hv, hpend, by rw [hlast], hr, ⟨new, k, hb⟩, rfl⟩
        (by simp) ⟨by simp, rfl⟩ ?_ (htm.lt hl) (Nat.le_refl _) (by simp), hn, last, u, hl, _, .inr
        ⟨l', hlt, by rw [← hp]; exact AList.lookup_insert _⟩⟩
      refine ⟨_, l', active_append_clr hv, rfl, hp, ?_⟩
      rw [hpend]
      exact hrest.append _
    | @clr _ l' r us hr ht hb hlt hrest =>
      obtain ⟨p, sl, n, hb⟩ := hb
      simp only [LogManager.readRecordAtLsn_eq hpos (hget hr), hb, Option.some.injEq] at hs
      subst hs
      exact ⟨hset _ ⟨v, l', hv, hlast, rfl, by rwa [hpend]⟩ (by simp), hn, last, u, hl, last, .inr
        ⟨l', hlt, AList.lookup_insert _⟩⟩
    | @abort _ l' r us hr ht hb hp hlt hrest =>
      simp only [LogManager.readRecordAtLsn_eq hpos (hget hr), hb, Option.some.injEq] at hs
      subst hs
      exact ⟨hset _ ⟨v, l', hv, hlast, hp, by rwa [hpend]⟩ (by simp), hn, last, u, hl, last, .inr
        ⟨l', hlt, by rw [← hp]; exact AList.lookup_insert _⟩⟩
  · rename_i last hl
    have hok := htm.txns t
    simp only [hl] at hok
    obtain ⟨v, x, -, -, hx, -⟩ := hok
    cases hx
  · cases hs

-- ---------------------------------------------------------------------------
-- Crash and recovery
-- ---------------------------------------------------------------------------

omit [PageOps P] in
/-- A crash keeps a prefix of the log. -/
theorem LogInv.crash {s : Sys P} (h : LogInv s) (n : Nat) (choice : Nat → P) :
    LogInv (s.crashInFlush n choice) := by
  have hlog : (s.crashInFlush n choice).log = s.log.take (s.lm.file.length + n) := by
    show s.lm.file ++ s.lm.buffer.take n ++ [] = (s.lm.file ++ s.lm.buffer).take _
    rw [List.append_nil, List.take_append, List.take_of_length_le (Nat.le_add_right _ _),
      Nat.add_sub_cancel_left]
  refine ⟨?_, fun hd => absurd rfl hd, rfl, rfl⟩
  rw [hlog]
  exact h.hist.take _

omit [PageOps P] in
/-- Analysis finds the losers. -/
theorem LogInv.startRecovery {s : Sys P} (h : LogInv s) (hd : s.mode = .down) :
    LogInv (s.startRecovery (analyze s.lm.file)) := by
  have hbuf : s.lm.buffer = [] := by
    have hm := h.mode
    rwa [LogMode, hd] at hm
  have hlog : s.log = s.lm.file := by
    show s.lm.file ++ s.lm.buffer = _
    rw [hbuf, List.append_nil]
  have hlog' : (s.startRecovery (analyze s.lm.file)).log = s.lm.file := List.append_nil _
  have hist := h.hist
  have hpos := h.lifecycle.1
  rw [hlog] at hist hpos
  refine ⟨by rw [hlog']; exact hist, fun _ => LogManager.readLog_ok hpos, ?_, h.idle⟩
  show AttExact (analyze s.lm.file).1 (s.startRecovery (analyze s.lm.file)).log
  rw [hlog']
  refine analyze_attExact (fun _ _ h => h.life) (fun l r a d hr hb => ?_) hist
  have := hr.noCkpt.2
  rw [hb] at this
  cases this

omit [PageOps P] in
/-- One record is appended in the undo pass. -/
theorem LogInv.appendUndo {s : Sys P} (h : LogInv s) (hd : s.mode ≠ .down) {t : Nat}
    {pr : Option Nat} {b : RecordBody} {bm : BufferManager P} {toUndo : Finset Nat} {att : Table}
    (hr : LogRule s.log ⟨s.lm.nextLsn, t, pr, b⟩)
    (hatt : AttExact att (s.log ++ [⟨s.lm.nextLsn, t, pr, b⟩]))
    (hundo : UndoInv (s.log ++ [⟨s.lm.nextLsn, t, pr, b⟩]) toUndo) :
    LogInv { s with lm := (s.lm.append t pr b).1, bm, mode := .undo toUndo att } := by
  have hlog : (s.lm.append t pr b).1.log = s.log ++ [⟨s.lm.nextLsn, t, pr, b⟩] :=
    LogManager.append_log t pr b
  refine ⟨?_, fun _ => (h.live hd).append t pr b, ?_, h.idle⟩
  · show History _ (s.lm.append t pr b).1.log
    rw [hlog]
    exact .snoc h.hist hr
  · simp only [LogMode, Sys.log, hlog]
    exact ⟨hatt, hundo⟩

/-- **One iteration of `undo`.** The LSNs still to undo are smaller than the one
just handled. -/
theorem LogInv.undoStep {s : Sys P} {toUndo : Finset Nat} {att : Table} {x : Nat}
    (h : LogInv s) (hmode : s.mode = .undo toUndo att) (hmax : toUndo.max = some x) :
    LogInv (s.undoOne toUndo att x) ∧
      ∃ toUndo' att', (s.undoOne toUndo att x).mode = .undo toUndo' att' ∧ ∀ y ∈ toUndo', y < x := by
  have hd : s.mode ≠ .down := by rw [hmode]; simp
  have h' : LogInv { s with lm := s.lm.flushAll } := h.of_flush (.inr rfl) rfl rfl rfl
  have hm := h'.mode
  simp only [LogMode, hmode] at hm
  obtain ⟨hatt, hundo⟩ := hm
  have hlog : ({ s with lm := s.lm.flushAll } : Sys P).log = s.log := LogManager.flushAll_log
  have hnext := (h'.live hd).next
  have hx : x ∈ toUndo := Finset.mem_of_max hmax
  have herase : ∀ y ∈ toUndo.erase x, y < x := by
    intro y hy
    obtain ⟨hne, hy⟩ := Finset.mem_erase.mp hy
    exact lt_of_le_of_ne (Finset.le_max_of_eq hy hmax) hne
  have hinsert : ∀ {l : Nat}, l < x → ∀ y ∈ insert l (toUndo.erase x), y < x := by
    intro l hl y hy
    rcases Finset.mem_insert.mp hy with rfl | hy
    · exact hl
    · exact herase y hy
  obtain ⟨t, v, hv, hchain⟩ := hundo.only x hx
  have hrecord := (h'.lifecycle.2 t v hv).chain.record
  have hlast : (att.lookup t).getD 0 = v.last := by
    rw [hatt t, show active _ t = some v from hv]
    rfl
  have hpos : ∀ (i : Nat) (r : Record), s.lm.log[i]? = some r → r.lsn = i := h.lifecycle.1
  have hget : ∀ {r : Record}, ({ s with lm := s.lm.flushAll } : Sys P).log[x]? = some r →
      s.lm.log[x]? = some r := by
    intro r hr
    rwa [hlog] at hr
  -- only the place on the chain changes
  have hmove : ∀ {r : Record} {l : Nat},
      ({ s with lm := s.lm.flushAll } : Sys P).log[x]? = some r → r.txnId = t →
      UndoChain ({ s with lm := s.lm.flushAll } : Sys P).log t l v.pend →
      LogInv { s with lm := s.lm.flushAll, mode := .undo (insert l (toUndo.erase x)) att } := by
    intro r l hr ht hl
    refine ⟨h'.hist, fun _ => h'.live hd, ⟨hatt, ?_⟩, h.idle⟩
    exact hundo.advance hx hr ht (fun _ _ => rfl) (fun _ _ => rfl) (fun _ _ _ hc => hc) hv hl
  generalize hpend : v.pend = us at hchain
  cases hchain with
  | @begin _ r hr ht hb =>
    subst ht
    have hlife : Lifecycle ({ s with lm := s.lm.flushAll } : Sys P).log
        ⟨s.lm.flushAll.nextLsn, r.txnId, some v.last, .txnEnd⟩ := by
      refine ⟨hnext, fun w hw => ?_⟩
      rw [show active _ _ = some v from hv] at hw
      rw [← Option.some.inj hw]
      exact hpend
    simp only [Sys.undoOne, LogManager.readRecordAtLsn_eq hpos (hget hr), hb, hlast]
    refine ⟨h'.appendUndo hd (.of_lifecycle h'.hist hlife (fun _ l hl => ?_) ⟨by simp, rfl⟩)
      (AttExact.append_one (x := (att, ∅)) hatt hlife)
      (hundo.finish hx hr rfl active_append_one_self), _, _, rfl, herase⟩
    rw [← Option.some.inj hl]
    exact hrecord
  | @update _ l r us hr ht hb hp hlt hrest =>
    obtain ⟨p, slot, old, new, k, hb⟩ := hb
    subst ht
    have hlife : Lifecycle ({ s with lm := s.lm.flushAll } : Sys P).log
        ⟨s.lm.flushAll.nextLsn, r.txnId, some v.last, .clr p slot old (some l)⟩ :=
      ⟨hnext, v, x, us, r, hv, hpend, rfl, hr, ⟨new, k, hb⟩, hp.symm⟩
    simp only [Sys.undoOne, LogManager.readRecordAtLsn_eq hpos (hget hr), hb, hp, hlast,
      Sys.undoUpdate]
    refine ⟨h'.appendUndo hd (.of_lifecycle h'.hist hlife (fun he => by cases he) ⟨by simp, rfl⟩)
      (AttExact.append_one (x := (att, ∅)) hatt hlife) ?_, _, _, rfl, hinsert hlt⟩
    refine hundo.advance hx hr rfl (fun i hi => List.getElem?_append_left hi)
      (fun t' ht' => active_append_one_ne (Ne.symm ht')) (fun _ _ _ hc => hc.append _)
      (active_append_clr hv) ?_
    simp only [hpend, List.tail_cons]
    exact hrest
  | @clr _ l r us hr ht hb hlt hrest =>
    obtain ⟨p, slot, n, hb⟩ := hb
    simp only [Sys.undoOne, LogManager.readRecordAtLsn_eq hpos (hget hr), hb]
    exact ⟨hmove hr ht (by rw [hpend]; exact hrest), _, _, rfl, hinsert hlt⟩
  | @abort _ l r us hr ht hb hp hlt hrest =>
    simp only [Sys.undoOne, LogManager.readRecordAtLsn_eq hpos (hget hr), hb, hp]
    exact ⟨hmove hr ht (by rw [hpend]; exact hrest), _, _, rfl, hinsert hlt⟩

omit [PageOps P] in
theorem LogInv.finishUndo {s : Sys P} {toUndo : Finset Nat} {att : Table} (h : LogInv s)
    (hmode : s.mode = .undo toUndo att) (hmax : toUndo.max = none) : LogInv s.finishUndo := by
  have hd : s.mode ≠ .down := by rw [hmode]; simp
  have h' : LogInv { s with lm := s.lm.flushAll } := h.of_flush (.inr rfl) rfl rfl rfl
  have hm := h'.mode
  simp only [LogMode, hmode] at hm
  refine ⟨h'.hist, fun _ => h'.live hd, ⟨LogManager.flushAll_buffer, fun t => ?_⟩, h.idle⟩
  cases hv : active s.finishUndo.log t with
  | none => rfl
  | some v =>
    obtain ⟨x, hx, -⟩ := hm.2.all t v hv
    rw [Finset.max_eq_bot.mp hmax] at hx
    cases hx

theorem LogInv.recoverStep {s : Sys P} (h : LogInv s) : LogInv s.recoverStep := by
  have hm := h.mode
  rw [LogMode] at hm
  rw [Sys.recoverStep]
  cases hmode : s.mode with
  | normal => exact h
  | down => exact h.startRecovery hmode
  | redo rest dpt att =>
    rw [hmode] at hm
    have hok := h.live (by rw [hmode]; simp)
    cases rest with
    | nil => exact ⟨h.hist, fun _ => hok, ⟨hm, hm.undoInv h.lifecycle.2⟩, h.idle⟩
    | cons r rest => exact ⟨h.hist, fun _ => hok, hm, h.idle⟩
  | undo toUndo att =>
    simp only
    split
    · rename_i hmax
      exact h.finishUndo hmode hmax
    · rename_i x hmax
      exact (h.undoStep hmode hmax).1
  | flushing =>
    simp only
    split
    · exact h.of_flush (flushPage_lm s _).1 (flushPage_tm s _) (flushPage_lm s _).2
        (flushPage_ckpt s _)
    · rw [hmode] at hm
      refine ⟨h.hist, fun _ => h.live (by rw [hmode]; simp), ⟨⟨hm.2, fun _ _ => rfl⟩, ?_⟩, h.idle⟩
      rintro t prev c (hc | hc) <;> cases hc

theorem LogInv.stepEvent {s s' : Sys P} {e : Event P} (h : LogInv s) (he : e.isCkpt = false)
    (hs : PersistX.step s e = some s') : LogInv s' := by
  cases e with
  | begin =>
    simp only [PersistX.step, Option.ite_none_right_eq_some] at hs
    obtain rfl := Option.some.inj hs.2
    exact h.begin (running_iff.mp hs.1).1
  | update t p op key =>
    simp only [PersistX.step, Option.ite_none_right_eq_some, Sys.update] at hs
    obtain ⟨hrun, hs⟩ := hs
    split at hs
    · rename_i prev hl
      rw [Option.map_eq_some_iff] at hs
      obtain ⟨x, -, rfl⟩ := hs
      exact h.logUpdate (running_iff.mp hrun).1 hl _ _ _ _ _ _
    · cases hs
  | commitLog t =>
    simp only [PersistX.step, Option.ite_none_right_eq_some] at hs
    exact h.commitLog (running_iff.mp hs.1).1 hs.2
  | commitForce t =>
    simp only [PersistX.step, Option.ite_none_right_eq_some] at hs
    exact h.commitForce (running_iff.mp hs.1).1 hs.2
  | commitEnd t =>
    simp only [PersistX.step, Option.ite_none_right_eq_some] at hs
    exact h.commitEnd (running_iff.mp hs.1).1 hs.2
  | abortLog t =>
    simp only [PersistX.step, Option.ite_none_right_eq_some] at hs
    exact h.abortLog (running_iff.mp hs.1).1 hs.2
  | abortStep t =>
    simp only [PersistX.step, Option.ite_none_right_eq_some] at hs
    exact (h.abortStep (running_iff.mp hs.1).1 hs.2).1
  | abortEnd t =>
    simp only [PersistX.step, Option.ite_none_right_eq_some] at hs
    exact h.abortEnd (running_iff.mp hs.1).1 hs.2
  | newPage p d =>
    simp only [PersistX.step, Option.ite_none_right_eq_some] at hs
    obtain rfl := Option.some.inj hs.2
    exact h.of_flush (.inl rfl) rfl rfl rfl
  | flushPage p =>
    simp only [PersistX.step, Option.ite_none_right_eq_some] at hs
    obtain rfl := Option.some.inj hs.2
    exact h.of_flush (flushPage_lm s p).1 (flushPage_tm s p) (flushPage_lm s p).2 (flushPage_ckpt s p)
  | evict p =>
    simp only [PersistX.step, Option.ite_none_right_eq_some] at hs
    obtain rfl := Option.some.inj hs.2
    exact h.of_flush (evict_lm s p).1 (evict_tm s p) (evict_lm s p).2 (evict_ckpt s p)
  | flushLog =>
    simp only [PersistX.step, Option.ite_none_right_eq_some] at hs
    obtain rfl := Option.some.inj hs.2
    exact h.of_flush (.inr rfl) rfl rfl rfl
  | crash choice =>
    obtain rfl := Option.some.inj hs
    have hc := h.crash 0 choice
    rwa [Sys.crashInFlush, List.take_zero, List.append_nil] at hc
  | recoverStep =>
    simp only [PersistX.step, Option.ite_none_left_eq_some] at hs
    obtain rfl := Option.some.inj hs.2
    exact h.recoverStep
  | ckptBegin => cases he
  | ckptSnapshot => cases he
  | ckptEnd => cases he
  | ckptForce p => cases he
  | ckptWrite => cases he
  | ckptFinish => cases he

/-- **Every step keeps the invariant of the log.** -/
theorem LogInv.step {s s' : Sys P} {e : LogEvent P} (h : LogInv s) (hs : e.step s = some s') :
    LogInv s' := by
  cases e with
  | event e =>
    simp only [LogEvent.step, Option.ite_none_left_eq_some, Bool.not_eq_true] at hs
    exact h.stepEvent hs.1 hs.2
  | logUpdate t p slot old new key =>
    simp only [LogEvent.step, Option.ite_none_right_eq_some, Sys.logUpdate] at hs
    obtain ⟨hrun, hs⟩ := hs
    split at hs
    · rename_i prev hl
      obtain rfl := Option.some.inj hs
      exact h.logUpdate (running_iff.mp hrun).1 hl _ _ _ _ _ _
    · cases hs
  | setPage p x d =>
    simp only [LogEvent.step, Option.ite_none_right_eq_some] at hs
    obtain rfl := Option.some.inj hs.2
    exact h.of_flush (.inl rfl) rfl rfl rfl
  | crashInFlush n choice =>
    obtain rfl := Option.some.inj hs
    exact h.crash n choice

-- ---------------------------------------------------------------------------
-- The loops come to an end
-- ---------------------------------------------------------------------------

theorem Sys.abortStep_isSome {s : Sys P} {t last : Nat} {u : Option Nat}
    (hl : s.tm.att.lookup t = some ⟨last, .aborting u⟩) : ∃ s', s.abortStep t = some s' := by
  rw [← Option.isSome_iff_exists, Sys.abortStep, hl]
  cases u with
  | none => rfl
  | some u =>
    simp only
    split
    · rfl
    · split <;> rfl

/-- **The loop of `abort` ends**, at the BEGIN record of its transaction. -/
theorem LogInv.abort_ends {t : Nat} (u : Nat) : ∀ {s : Sys P} {last : Nat}, LogInv s →
    s.running = true → s.tm.att.lookup t = some ⟨last, .aborting (some u)⟩ →
    ∃ s' last', Steps LogEvent.step (fun _ e => e = .event (.abortStep t)) s s' ∧
      s'.tm.att.lookup t = some ⟨last', .aborted⟩ := by
  induction u using Nat.strongRecOn with
  | ind u ih =>
    intro s last h hrun hl
    obtain ⟨s₁, hs₁⟩ := Sys.abortStep_isSome hl
    obtain ⟨h₁, hn₁, last₀, u₀, hl₀, last₁, hcase⟩ := h.abortStep (running_iff.mp hrun).1 hs₁
    have hstep : LogEvent.step s (.event (.abortStep t)) = some s₁ := by
      simp only [LogEvent.step, Event.isCkpt, PersistX.step, hrun, if_true, hs₁]
      rfl
    have hone : Steps LogEvent.step (fun _ e => e = .event (.abortStep t)) s s₁ :=
      Steps.refl.snoc rfl hstep
    rw [hl] at hl₀
    simp only [Option.some.injEq, Txn.mk.injEq, TxnPhase.aborting.injEq] at hl₀
    obtain ⟨-, rfl⟩ := hl₀
    rcases hcase with hdone | ⟨u', hlt, hl₁⟩
    · exact ⟨s₁, last₁, hone, hdone⟩
    · obtain ⟨s', last', hmore, hdone⟩ := ih u' hlt h₁ (running_iff.mpr ⟨hn₁, h₁.idle⟩) hl₁
      exact ⟨s', last', hone.trans hmore, hdone⟩

/-- In the loop of `undo`, or behind it. -/
def InUndo (s : Sys P) : Prop := s.mode = .flushing ∨ ∃ toUndo att, s.mode = .undo toUndo att

/-- An iteration of `undo` brings its end nearer. -/
theorem LogInv.undo_progress {s : Sys P} (h : LogInv s) (hin : InUndo s) (hmode : s.mode ≠ .flushing) :
    InUndo s.recoverStep ∧ passesLeft s.recoverStep < passesLeft s := by
  obtain ⟨toUndo, att, hmode⟩ := hin.resolve_left hmode
  cases hmax : toUndo.max with
  | bot =>
    have hs : s.recoverStep = s.finishUndo := by
      rw [Sys.recoverStep, hmode]
      simp only [hmax]
    rw [hs]
    refine ⟨.inl rfl, ?_⟩
    simp only [passesLeft, hmode, Sys.finishUndo]
    exact Nat.succ_pos _
  | coe x =>
    have hs : s.recoverStep = s.undoOne toUndo att x := by
      rw [Sys.recoverStep, hmode]
      simp only [hmax]
    obtain ⟨-, toUndo', att', hmode', hlt⟩ := h.undoStep hmode hmax
    rw [hs]
    refine ⟨.inr ⟨toUndo', att', hmode'⟩, ?_⟩
    have hle := undoHeight_le hlt
    have hheight : undoHeight toUndo = x + 1 := by
      rw [undoHeight, hmax]
    simp only [passesLeft, hmode, hmode', hheight]
    omega

/-- **The loop of `undo` ends.** -/
theorem LogInv.undo_ends {s : Sys P} {toUndo : Finset Nat} {att : Table} (h : LogInv s)
    (hmode : s.mode = .undo toUndo att) : ∃ n, (Sys.recoverStep^[n] s).mode = .flushing := by
  obtain ⟨n, hn, -⟩ := exists_iterate (fun s : Sys P => LogInv s ∧ InUndo s)
    (fun s => s.mode = .flushing) passesLeft
    (fun s hs hd => ⟨hs.1.recoverStep, (hs.1.undo_progress hs.2 hd).1⟩)
    (fun s hs hd => (hs.1.undo_progress hs.2 hd).2) s ⟨h, .inr ⟨toUndo, att, hmode⟩⟩
  exact ⟨n, hn⟩

-- ---------------------------------------------------------------------------
-- The log file when `recover()` returns
-- ---------------------------------------------------------------------------

/-- The last step of `recover()`: every transaction has ended and the log is in the file. -/
theorem LogInv.recovered {s : Sys P} (h : LogInv s) (hn : s.mode ≠ .normal)
    (hdone : s.recoverStep.mode = .normal) :
    s.recoverStep.log = s.recoverStep.lm.file ∧ ∀ t, active s.recoverStep.log t = none := by
  have hm := h.mode
  rw [LogMode] at hm
  cases hmode : s.mode with
  | normal => exact absurd hmode hn
  | down =>
    rw [Sys.recoverStep, hmode] at hdone
    cases hdone
  | redo rest dpt att =>
    rw [Sys.recoverStep, hmode] at hdone
    cases rest <;> cases hdone
  | undo toUndo att =>
    rw [Sys.recoverStep, hmode] at hdone
    simp only at hdone
    split at hdone
    · cases hdone
    · rename_i x hmax
      obtain ⟨-, toUndo', att', hmode', -⟩ := h.undoStep hmode hmax
      rw [hmode'] at hdone
      cases hdone
  | flushing =>
    rw [hmode] at hm
    simp only [Sys.recoverStep, hmode] at hdone ⊢
    split at hdone
    · rw [(flushPage_lm s _).2, hmode] at hdone
      cases hdone
    · refine ⟨?_, hm.2⟩
      show s.lm.file ++ s.lm.buffer = _
      rw [hm.1, List.append_nil]

/-- Exactly the UPDATEs of the transactions that did not commit are compensated,
each once, and in a transaction the last one first. Whether the transaction of a
record commits is its `fate` behind that record. -/
structure CompensatedOnce (file : List Record) : Prop where
  once : ∀ (i : Nat) (r : Record) (p s : Nat) (o n : Bytes) (k : Int), file[i]? = some r →
    r.body = .update p s o n k → fate r.txnId (file.drop (i + 1)) ≠ some true →
    ∃! j, IsClrOf file r.txnId p s o r.prevLsn j
  /-- Two UPDATEs of one transaction: it does not end between them. -/
  reversed : ∀ (i i' : Nat) (r r' : Record) (p s p' s' : Nat) (o n o' n' : Bytes) (k k' : Int)
    (j j' : Nat), file[i]? = some r → r.body = .update p s o n k → file[i']? = some r' →
    r'.body = .update p' s' o' n' k' → r'.txnId = r.txnId → i < i' →
    fate r.txnId ((file.take i').drop (i + 1)) = none →
    IsClrOf file r.txnId p s o r.prevLsn j → IsClrOf file r.txnId p' s' o' r'.prevLsn j' → j' < j
  /-- An UPDATE of a transaction that commits has no CLR. -/
  committed : ∀ (i : Nat) (r : Record) (p s : Nat) (o n : Bytes) (k : Int), file[i]? = some r →
    r.body = .update p s o n k → fate r.txnId (file.drop (i + 1)) = some true →
    ∀ j, ¬ IsClrOf file r.txnId p s o r.prevLsn j
  /-- A CLR compensates an UPDATE of its own transaction, which does not end between
  the two, and does not commit. -/
  notCommitted : ∀ (j : Nat) (r : Record) (p s : Nat) (o : Bytes) (un : Option Nat),
    file[j]? = some r → r.body = .clr p s o un → fate r.txnId (file.drop (j + 1)) ≠ some true ∧
    ∃ i r' n k, i < j ∧ file[i]? = some r' ∧ r'.txnId = r.txnId ∧ r'.body = .update p s o n k ∧
      un = r'.prevLsn ∧ fate r.txnId ((file.take j).drop (i + 1)) = none ∧
      fate r.txnId (file.drop (i + 1)) ≠ some true

omit [PageOps P] in
theorem CompensatedOnce.of_history {log : List Record} (h : History LogRule log)
    (hnone : ∀ t, active log t = none) : CompensatedOnce log := by
  have hrule : ∀ l r, LogRule l r → Lifecycle l r := fun _ _ h => h.life
  have hone : ∀ (i : Nat) (r : Record) (p s : Nat) (o n : Bytes) (k : Int), log[i]? = some r →
      r.body = .update p s o n k → ∀ j, IsClrOf log r.txnId p s o r.prevLsn j →
      ∀ x, IsClrOf log r.txnId p s o r.prevLsn x → x = j := by
    intro i r p s o n k hr hb j hj x hx
    have hc := h.compensated hrule i r p s o n k hr hb
    cases hf : fate r.txnId (log.drop (i + 1)) with
    | none =>
      obtain ⟨v, hv, -⟩ := hc.isOpen hf
      rw [hnone] at hv
      cases hv
    | some b =>
      cases b with
      | true => exact absurd hj (hc.committed hf j)
      | false => exact (hc.rolledBack hf).unique hx hj
  refine ⟨fun i r p s o n k hr hb hf => ?_, ?_, ?_, ?_⟩
  · have hc := h.compensated hrule i r p s o n k hr hb
    cases hf' : fate r.txnId (log.drop (i + 1)) with
    | none =>
      obtain ⟨v, hv, -⟩ := hc.isOpen hf'
      rw [hnone] at hv
      cases hv
    | some b =>
      cases b with
      | true => exact absurd hf' hf
      | false => exact hc.rolledBack hf'
  · intro i i' r r' p s p' s' o n o' n' k k' j j' hr hb hr' hb' ht hlt hsame hj hj'
    refine h.clr_lt_clr hrule hr hb hr' hb' ht hlt hsame hj fun x hx => ?_
    rw [← ht] at hx hj'
    exact hone i' r' p' s' o' n' k' hr' hb' j' hj' x hx
  · exact fun i r p s o n k hr hb hf => (h.compensated hrule i r p s o n k hr hb).committed hf
  · exact fun j r p s o un hr hb => h.clr_not_committed hrule hr hb

/-- **Compensation is exactly once.** In every run of transactions, crashes and
recoveries without a checkpoint the links of the log lead to earlier records of
the same transaction and the two undo loops end at BEGIN; when `recover()`
returns, the log file holds one CLR for each UPDATE of a transaction that did not
commit, in reverse order, and no other: none for a transaction that committed. -/
theorem compensated_once_of_steps {s : Sys P}
    (hrun : Steps LogEvent.step LogEvent.Free Sys.init s) :
    (∀ (i : Nat) (r : Record), s.log[i]? = some r → r.lsn = i ∧ ∀ l, r.LinksTo l →
      l < r.lsn ∧ ∃ r', s.log[l]? = some r' ∧ r'.txnId = r.txnId) ∧
    (∀ t last undoLsn, s.mode = .normal → s.tm.att.lookup t = some ⟨last, .aborting undoLsn⟩ →
      (∃ u us, undoLsn = some u ∧ UndoChain s.log t u us) ∧
      ∃ s' last', Steps LogEvent.step (fun _ e => e = .event (.abortStep t)) s s' ∧
        s'.tm.att.lookup t = some ⟨last', .aborted⟩) ∧
    (∀ toUndo att, s.mode = .undo toUndo att →
      (∀ x ∈ toUndo, ∃ t us, UndoChain s.log t x us) ∧
      ∃ n, (Sys.recoverStep^[n] s).mode = .flushing) ∧
    (s.mode ≠ .normal → s.recoverStep.mode = .normal → CompensatedOnce s.recoverStep.lm.file) := by
  have h : LogInv s := hrun.invariant (fun _ _ _ h _ hs => h.step hs) .init
  refine ⟨fun i r hr => h.hist.links hr, ?_, ?_, ?_⟩
  · intro t last undoLsn hn hl
    have hok := (h.normal hn).1.txns t
    rw [hl] at hok
    obtain ⟨v, u, -, -, rfl, hchain⟩ := hok
    exact ⟨⟨u, v.pend, rfl, hchain⟩, LogInv.abort_ends u h (running_iff.mpr ⟨hn, h.idle⟩) hl⟩
  · intro toUndo att hmode
    have hm := h.mode
    rw [LogMode, hmode] at hm
    refine ⟨fun x hx => ?_, h.undo_ends hmode⟩
    obtain ⟨t, v, -, hchain⟩ := hm.2.only x hx
    exact ⟨t, v.pend, hchain⟩
  · intro hn hdone
    obtain ⟨hlog, hnone⟩ := h.recovered hn hdone
    have hist := h.recoverStep.hist
    rw [hlog] at hist hnone
    exact .of_history hist hnone

/-- Two updates of a loser are in the log file at the crash. -/
def twoLostUpdates : Sys SlotPage :=
  let s := ((Sys.init.begin.logUpdate 0 0 0 [] [7] 1).getD Sys.init).logUpdate 0 0 0 [7] [8] 0
  (s.getD Sys.init).crashInFlush 3 fun _ => PageOps.zero

theorem twoLostUpdates_compensated :
    (Sys.recoverStep^[11] twoLostUpdates).lm.file.map (·.body) = [.begin, .update 0 0 [] [7] 1,
      .update 0 0 [7] [8] 0, .clr 0 0 [7] (some 1), .clr 0 0 [] (some 0), .txnEnd] ∧
    CompensatedOnce (Sys.recoverStep^[11] twoLostUpdates).lm.file := by
  have hcrash : Steps LogEvent.step LogEvent.Free Sys.init twoLostUpdates := by
    have h1 : Steps LogEvent.step LogEvent.Free (Sys.init : Sys SlotPage) Sys.init.begin :=
      Steps.refl.next (.event .begin) trivial rfl
    have h2 := h1.next (.logUpdate 0 0 0 [] [7] 1) trivial rfl
    have h3 := h2.next (.logUpdate 0 0 0 [7] [8] 0) trivial rfl
    exact h3.next (.crashInFlush 3 fun _ => PageOps.zero) trivial rfl
  have hbusy : ∀ n < 11, (Sys.recoverStep^[n] twoLostUpdates).mode.isNormal = false := by decide
  have hrun : ∀ n ≤ 10,
      Steps LogEvent.step LogEvent.Free Sys.init (Sys.recoverStep^[n] twoLostUpdates) := by
    intro n
    induction n with
    | zero => exact fun _ => hcrash
    | succ n ih =>
      intro hn
      refine (ih (by omega)).next (.event .recoverStep) trivial ?_
      rw [Function.iterate_succ_apply']
      simp only [LogEvent.step, Event.isCkpt, step, hbusy n (by omega)]
      rfl
  refine ⟨by decide, ?_⟩
  have hmode : (Sys.recoverStep^[10] twoLostUpdates).mode ≠ .normal := by
    intro h
    have := hbusy 10 (by omega)
    rw [h] at this
    cases this
  exact (compensated_once_of_steps (hrun 10 (Nat.le_refl _))).2.2.2 hmode rfl

end PersistX
