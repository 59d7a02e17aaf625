import PersistX.Log.Sequence
import PersistX.Lib.Transition

/-!
# PersistX — the log when a write fails

`flush_all_unlocked` does not look at `log_file_` after it has written to it: it
sets `flushed_lsn_`, moves `write_offset_` and clears the buffer whether the bytes
have reached the file or not, and `commit` goes by that. A stream that has failed
stays failed and takes no more bytes.

`TxnLog` is the log manager on such a stream, with what `begin` and `commit` of the
transaction manager keep beside it. Every event that can write carries the outcome
of the write.

Main result: `honest_of_steps` — as long as every write of a non-empty buffer
succeeds, what is reported as durable is in the file.
-/

namespace PersistX.Log

open Bytes Transition

/-- What becomes of a write: it succeeds, or the stream fails after some bytes. -/
inductive Outcome where
  | ok
  | failed (written : Nat)
  deriving DecidableEq

/-- A log manager whose stream may fail, and the transaction manager on it. -/
structure TxnLog where
  lm : LogManager
  /-- `log_file_` is in its failed state. -/
  failed : Bool
  /-- `att_`: the `prev_lsn` of each active transaction. -/
  att : UInt64 → Option UInt64
  nextTxnId : UInt64
  /-- Not part of the program: the records of the log, in order. -/
  records : List LogRecord
  /-- Not part of the program: the transactions marked COMMITTED and dropped from the ATT,
  with the LSN of the COMMIT record. -/
  committed : List (UInt64 × UInt64)

/-- What happens to the log. -/
inductive TxnEvent where
  | begin
  | append (record : LogRecord.New)
  | flush (upTo : UInt64) (outcome : Outcome)
  | flushAll (outcome : Outcome)
  | readRecordAtLsn (lsn : UInt64) (outcome : Outcome)
  | commit (txnId : UInt64) (outcome : Outcome)

namespace TxnLog

/-- The bytes that get through when `buffer` is written. -/
def reached (outcome : Outcome) (buffer : Bytes) : Bytes :=
  match outcome with
  | .ok => buffer
  | .failed n => buffer.take n

/-- `flush_all_unlocked`: everything but the file is as after a write that has succeeded. -/
def flushAll (s : TxnLog) (outcome : Outcome) : TxnLog :=
  if s.lm.buffer = [] then s
  else
    { s with
      lm := { s.lm.flushAll with
        file :=
          if s.failed then s.lm.file
          else overwrite s.lm.file s.lm.writeOffset (reached outcome s.lm.buffer) }
      failed := s.failed || decide (outcome ≠ .ok) }

/-- `flush(up_to_lsn)`. -/
def flush (s : TxnLog) (upTo : UInt64) (outcome : Outcome) : TxnLog :=
  if s.lm.flushedLsn ≠ UInt64.ofNat invalidU64 ∧ s.lm.flushedLsn ≥ upTo then s
  else s.flushAll outcome

/-- `append`. -/
def append (s : TxnLog) (c : LogRecord.New) : Option (TxnLog × UInt64) :=
  (s.lm.append c.build).map fun (lm, lsn) =>
    ({ s with lm, records := s.records ++ [c.build.setLsn lsn] }, lsn)

/-- `TransactionManager::begin`. -/
def begin (s : TxnLog) : Option TxnLog :=
  (s.append (.begin s.nextTxnId (UInt64.ofNat invalidU64))).map fun (s', lsn) =>
    { s' with att := Function.update s.att s.nextTxnId (some lsn), nextTxnId := s.nextTxnId + 1 }

/-- `TransactionManager::commit`. -/
def commit (s : TxnLog) (t : UInt64) (outcome : Outcome) : Option TxnLog := do
  let prev ← s.att t
  let (s, commitLsn) ← s.append (.commit t prev)
  let s := s.flush commitLsn outcome
  let (s, _) ← s.append (.txnEnd t commitLsn)
  return { s with
    att := Function.update s.att t none
    committed := (t, commitLsn) :: s.committed }

/-- The effect of an event. -/
def step (s : TxnLog) : TxnEvent → Option TxnLog
  | .begin => s.begin
  | .append c => (s.append c).map Prod.fst
  | .flush upTo outcome => some (s.flush upTo outcome)
  | .flushAll outcome => some (s.flushAll outcome)
  | .readRecordAtLsn l outcome =>
    let s := s.flushAll outcome
    (s.lm.readRecordAtLsn l).map fun (lm, _) => { s with lm }
  | .commit t outcome => s.commit t outcome

-- ---------------------------------------------------------------------------
-- What is reported, and when it is true
-- ---------------------------------------------------------------------------

/-- `fl` are records in the file and `bf` those in the buffer, and what is reported as
durable is among `fl`. -/
structure HonestAt (s : TxnLog) (fl bf : List LogRecord) : Prop where
  records : s.records = fl ++ bf
  /-- The records `fl` are in the file, whole. -/
  file : LogManager.logBytes fl <+: s.lm.file
  /-- All others are in the buffer. -/
  buffer : s.lm.buffer = LogManager.logBytes bf
  /-- `flushed_lsn_` is not above the last record in the file. -/
  flushedLsn : s.lm.flushedLsn ≠ UInt64.ofNat invalidU64 → ∃ r ∈ fl, s.lm.flushedLsn ≤ r.lsn
  /-- Offsets of records in the file are right. -/
  index : ∀ pre r post, fl = pre ++ r :: post → ∀ off, s.lm.lsnIndex r.lsn = some off →
    off = (LogManager.logBytes pre).length
  /-- The COMMIT record of a transaction that was reported as committed is in the file. -/
  committed : ∀ t c, (t, c) ∈ s.committed → ∃ r ∈ fl, r.lsn = c ∧ r.txnId = t ∧ r.type = .commit

/-- Nothing is reported as durable that is not. -/
def Honest (s : TxnLog) : Prop := ∃ fl bf, s.HonestAt fl bf

/-- The event writes the buffer to the file. -/
def writes (s : TxnLog) : TxnEvent → Bool
  | .flush upTo _ => decide (s.lm.buffer ≠ [] ∧
      ¬ (s.lm.flushedLsn ≠ UInt64.ofNat invalidU64 ∧ s.lm.flushedLsn ≥ upTo))
  | .flushAll _ => decide (s.lm.buffer ≠ [])
  | .readRecordAtLsn _ _ => decide (s.lm.buffer ≠ [])
  | .commit _ _ => true
  | _ => false

end TxnLog

/-- The outcome of the write, if there is one. -/
def TxnEvent.outcome : TxnEvent → Outcome
  | .flush _ o => o
  | .flushAll o => o
  | .readRecordAtLsn _ o => o
  | .commit _ o => o
  | _ => .ok

/-- The number of records that an event appends. -/
def TxnEvent.appends : TxnEvent → Nat
  | .begin => 1
  | .append _ => 1
  | .commit _ _ => 2
  | _ => 0

namespace TxnLog

/-- The write of a non-empty buffer succeeds, and the LSN counter does not get to `INVALID_LSN`. -/
def Sound (s : TxnLog) (e : TxnEvent) : Prop :=
  (s.writes e = true → e.outcome = .ok) ∧ s.lm.nextLsn.toNat + e.appends < 2 ^ 64

/-- A log manager that has read its file, and no transactions. -/
def start (lm : LogManager) (rs : List LogRecord) : TxnLog := ⟨lm, false, fun _ => none, 0, rs, []⟩

-- ---------------------------------------------------------------------------
-- The invariant
-- ---------------------------------------------------------------------------

open LogManager

/-- No write has failed, and the log manager is faithful to the records. -/
structure Inv (s : TxnLog) (fl bf : List LogRecord) : Prop where
  faithful : Faithful s.lm fl bf
  failed : s.failed = false
  records : s.records = fl ++ bf
  /-- The last LSN handed out is that of a record in the buffer, if there is any. -/
  top : bf ≠ [] → ∃ r ∈ bf, r.lsn.toNat + 1 = s.lm.nextLsn.toNat
  flushedLsn : s.lm.flushedLsn ≠ UInt64.ofNat invalidU64 → ∃ r ∈ fl, s.lm.flushedLsn ≤ r.lsn
  committed : ∀ t c, (t, c) ∈ s.committed → ∃ r ∈ fl, r.lsn = c ∧ r.txnId = t ∧ r.type = .commit

variable {s s' : TxnLog} {fl bf rs : List LogRecord} {outcome : Outcome}

/-- In an increasing log a record with a given LSN stands in one place. -/
theorem split_unique {rs pre pre' post post' : List LogRecord} {r r' : LogRecord}
    (h : Increasing rs) (hrs : rs = pre' ++ r' :: post') (hrs' : rs = pre ++ r :: post)
    (heq : r'.lsn = r.lsn) : pre' = pre := by
  induction pre generalizing rs pre' with
  | nil =>
    cases pre' with
    | nil => rfl
    | cons a pre' =>
      rw [hrs', List.nil_append, List.cons_append] at hrs
      obtain ⟨rfl, hpost⟩ := List.cons.inj hrs
      rw [hrs', hpost] at h
      have hlt := (List.pairwise_cons.mp h).1 r' (List.mem_append_right _ List.mem_cons_self)
      rw [heq] at hlt
      exact absurd hlt (Nat.lt_irrefl _)
  | cons b pre ih =>
    cases pre' with
    | nil =>
      rw [hrs, List.nil_append, List.cons_append] at hrs'
      obtain ⟨rfl, hpost⟩ := List.cons.inj hrs'
      rw [hrs, List.nil_append, hpost] at h
      have hlt := (List.pairwise_cons.mp h).1 r (List.mem_append_right _ List.mem_cons_self)
      rw [heq] at hlt
      exact absurd hlt (Nat.lt_irrefl _)
    | cons a pre' =>
      have hcons := hrs.symm.trans hrs'
      rw [List.cons_append, List.cons_append] at hcons
      obtain ⟨rfl, htail⟩ := List.cons.inj hcons
      rw [hrs] at h
      rw [ih (List.pairwise_cons.mp h).2 rfl htail]

theorem Inv.honest (h : Inv s fl bf) : Honest s := by
  refine ⟨fl, bf, h.records, ?_, h.faithful.buffer, h.flushedLsn, fun pre r post hfl off hoff => ?_,
    h.committed⟩
  · exact ⟨[], by rw [h.faithful.file, List.append_nil]⟩
  · -- the index names a record with this LSN, and LSNs are distinct
    obtain ⟨pre', r', post', hrs, hr, hlen⟩ := h.faithful.index _ off hoff
    have hinc := h.faithful.increasing
    have hsplit : fl ++ bf = pre ++ r :: (post ++ bf) := by
      rw [hfl]
      simp
    rw [hlen, split_unique hinc hrs hsplit hr]

theorem inv_start (hw : ∀ r ∈ rs, Writable r) (hinc : Increasing rs) (hfree : firstFree rs < 2 ^ 64) :
    ∃ lm, (LogManager.new (logBytes rs)).readLog = some (lm, rs) ∧ Inv (start lm rs) rs [] := by
  obtain ⟨lm, hread, hf, -⟩ := Faithful.open hw hinc hfree
  refine ⟨lm, hread, hf, rfl, (List.append_nil rs).symm, fun hne => absurd rfl hne, fun hne => ?_,
    fun t c hc => by cases hc⟩
  have hlm := hread.symm.trans (readLog_logBytes hw rfl)
  have heq : lm = noteAll (LogManager.new (logBytes rs)) 0 rs :=
    (Prod.mk.inj (Option.some.inj hlm)).1
  refine absurd ?_ hne
  show lm.flushedLsn = _
  rw [heq, noteAll_flushedLsn]
  rfl

-- ---------------------------------------------------------------------------
-- One event
-- ---------------------------------------------------------------------------

/-- A write that succeeds is that of the log manager. -/
theorem flushAll_eq (hfailed : s.failed = false) (ho : s.lm.buffer ≠ [] → outcome = .ok) :
    s.flushAll outcome = { s with lm := s.lm.flushAll } := by
  unfold flushAll
  split
  · rename_i hb
    have hsame : s.lm.flushAll = s.lm := by
      unfold LogManager.flushAll
      rw [if_pos hb]
    rw [hsame]
  · rename_i hb
    rw [ho hb, hfailed]
    have hlm : { s.lm.flushAll with file := overwrite s.lm.file s.lm.writeOffset s.lm.buffer }
        = s.lm.flushAll := by
      unfold LogManager.flushAll
      rw [if_neg hb]
    simp only [Bool.false_eq_true, if_false, reached, hlm]
    rw [← hfailed]
    simp

theorem Inv.flushAll (h : Inv s fl bf) (ho : s.lm.buffer ≠ [] → outcome = .ok) :
    Inv (s.flushAll outcome) (fl ++ bf) [] := by
  rw [flushAll_eq h.failed ho]
  refine ⟨h.faithful.flushAll, h.failed, h.records.trans (List.append_nil _).symm,
    fun hne => absurd rfl hne, fun hne => ?_, fun t c hc => ?_⟩
  · simp only at hne ⊢
    rcases h.faithful.flushAll_flushedLsn with ⟨hnil, heq⟩ | hnext
    · rw [heq] at hne ⊢
      obtain ⟨r, hr, hle⟩ := h.flushedLsn hne
      exact ⟨r, List.mem_append_left bf hr, hle⟩
    · -- the last record handed out was in the buffer, or the buffer was empty
      by_cases hbf : bf = []
      · have hb : s.lm.buffer = [] := by
          rw [h.faithful.buffer, hbf]
          rfl
        have hsame : s.lm.flushAll = s.lm := by
          unfold LogManager.flushAll
          rw [if_pos hb]
        rw [hsame] at hne ⊢
        obtain ⟨r, hr, hle⟩ := h.flushedLsn hne
        exact ⟨r, List.mem_append_left bf hr, hle⟩
      · obtain ⟨r, hr, htop⟩ := h.top hbf
        exact ⟨r, List.mem_append_right fl hr, UInt64.le_iff_toNat_le.mpr (by omega)⟩
  · obtain ⟨r, hr, hc'⟩ := h.committed t c hc
    exact ⟨r, List.mem_append_left bf hr, hc'⟩

theorem Inv.flush (h : Inv s fl bf) (l : UInt64) (outcome : Outcome)
    (ho : s.lm.buffer ≠ [] → ¬ (s.lm.flushedLsn ≠ UInt64.ofNat invalidU64 ∧ s.lm.flushedLsn ≥ l) →
      outcome = .ok) :
    ∃ fl' bf', fl' ++ bf' = fl ++ bf ∧ Inv (s.flush l outcome) fl' bf' ∧
      ∀ r ∈ bf', l.toNat < r.lsn.toNat := by
  unfold TxnLog.flush
  split
  · rename_i hc
    refine ⟨fl, bf, rfl, h, fun r hr => ?_⟩
    have hle := UInt64.le_iff_toNat_le.mp hc.2
    have hlt := (h.faithful.flushed hc.1).2 r hr
    omega
  · rename_i hc
    exact ⟨fl ++ bf, [], List.append_nil _, h.flushAll fun hb => ho hb hc,
      fun r hr => by cases hr⟩

theorem Inv.append (h : Inv s fl bf) {c : LogRecord.New} {lsn : UInt64}
    (hroom : s.lm.nextLsn.toNat + 1 < 2 ^ 64) (ha : s.append c = some (s', lsn)) :
    Inv s' fl (bf ++ [c.build.setLsn lsn]) ∧
      s'.lm.nextLsn.toNat = s.lm.nextLsn.toNat + 1 ∧ s'.att = s.att ∧ lsn = s.lm.nextLsn := by
  obtain ⟨⟨lm', lsn'⟩, hlm, heq⟩ := Option.map_eq_some_iff.mp ha
  obtain ⟨rfl, rfl⟩ := Prod.mk.inj heq
  obtain ⟨hf, hnext, hflushed⟩ := h.faithful.append hroom hlm
  have hlsn : lsn' = s.lm.nextLsn := by
    simp only [LogManager.append, Option.bind_eq_bind, Option.bind_eq_some_iff] at hlm
    obtain ⟨bytes, -, hpair⟩ := hlm
    exact (congrArg Prod.snd (Option.some.inj hpair)).symm
  refine ⟨⟨hf, h.failed, ?_, fun _ => ?_, fun hne => ?_, h.committed⟩, hnext, rfl, hlsn⟩
  · show s.records ++ _ = _
    rw [h.records, List.append_assoc]
  · refine ⟨c.build.setLsn lsn', List.mem_append_right bf (List.mem_singleton.mpr rfl), ?_⟩
    show lsn'.toNat + 1 = _
    rw [hlsn, hnext]
  · simp only [hflushed] at hne ⊢
    exact h.flushedLsn hne

/-- Reading notes offsets, and changes nothing that is reported. -/
theorem Inv.readRecordAtLsn (h : Inv s fl []) {l : UInt64} {lm' : LogManager} {found : LogRecord}
    (hread : s.lm.readRecordAtLsn l = some (lm', found)) : Inv { s with lm := lm' } fl [] := by
  obtain ⟨lm1, found1, hread1, hf, hn, hfl, -⟩ := h.faithful.readRecordAtLsn l
  obtain ⟨rfl, rfl⟩ := Prod.mk.inj (Option.some.inj (hread.symm.trans hread1))
  have hb : s.lm.buffer = [] := h.faithful.buffer
  have hsame : s.lm.flushAll = s.lm := by
    unfold LogManager.flushAll
    rw [if_pos hb]
  rw [List.append_nil] at hf
  rw [hsame] at hfl
  refine ⟨hf, h.failed, h.records, fun hne => absurd rfl hne, fun hne => ?_, h.committed⟩
  simp only [hfl] at hne ⊢
  exact h.flushedLsn hne

theorem flush_nextLsn (s : TxnLog) (l : UInt64) (outcome : Outcome) :
    (s.flush l outcome).lm.nextLsn = s.lm.nextLsn := by
  unfold TxnLog.flush
  split
  · rfl
  · unfold TxnLog.flushAll
    split
    · rfl
    · exact flushAll_nextLsn

theorem Inv.commit (h : Inv s fl bf) {t : UInt64} (hroom : s.lm.nextLsn.toNat + 2 < 2 ^ 64)
    (hs : s.commit t .ok = some s') : ∃ fl' bf', Inv s' fl' bf' := by
  simp only [TxnLog.commit, Option.bind_eq_bind, Option.bind_eq_some_iff] at hs
  obtain ⟨prev, -, ⟨s1, commitLsn⟩, h1, ⟨s2, endLsn⟩, h2, heq⟩ := hs
  obtain rfl := Option.some.inj heq
  obtain ⟨hinv1, hnext1, -, -⟩ := h.append (by omega) h1
  obtain ⟨fl', bf', hrs, hinv2, hbf⟩ := hinv1.flush commitLsn .ok fun _ _ => rfl
  have hnext2 := flush_nextLsn s1 commitLsn .ok
  obtain ⟨hinv3, -⟩ := hinv2.append (by rw [hnext2]; omega) h2
  -- the flush has left nothing up to the COMMIT record in the buffer
  have hmem : (LogRecord.New.commit t prev).build.setLsn commitLsn ∈ fl' := by
    have hall : (LogRecord.New.commit t prev).build.setLsn commitLsn ∈ fl' ++ bf' := by
      rw [hrs]
      simp
    rcases List.mem_append.mp hall with hfl | hin
    · exact hfl
    · exact absurd (hbf _ hin) (Nat.lt_irrefl _)
  refine ⟨fl', _, hinv3.faithful, hinv3.failed, hinv3.records, hinv3.top, hinv3.flushedLsn, ?_⟩
  intro t' c hc
  rcases List.mem_cons.mp hc with hhead | htail
  · obtain ⟨rfl, rfl⟩ := Prod.mk.inj hhead
    exact ⟨_, hmem, rfl, rfl, rfl⟩
  · exact hinv3.committed t' c htail

/-- Every event keeps the invariant. -/
theorem inv_step (s : TxnLog) (e : TxnEvent) (s' : TxnLog) (h : ∃ fl bf, Inv s fl bf)
    (hok : s.Sound e) (hs : s.step e = some s') : ∃ fl bf, Inv s' fl bf := by
  obtain ⟨fl, bf, h⟩ := h
  obtain ⟨hwrite, hroom⟩ := hok
  cases e with
  | begin =>
    simp only [TxnLog.step, TxnLog.begin] at hs
    obtain ⟨⟨s1, lsn⟩, h1, heq⟩ := Option.map_eq_some_iff.mp hs
    obtain rfl := heq
    obtain ⟨hinv, -⟩ := h.append hroom h1
    exact ⟨fl, _, hinv.faithful, hinv.failed, hinv.records, hinv.top, hinv.flushedLsn,
      hinv.committed⟩
  | append c =>
    obtain ⟨⟨s1, lsn⟩, h1, heq⟩ := Option.map_eq_some_iff.mp hs
    obtain rfl := heq
    exact ⟨fl, _, (h.append hroom h1).1⟩
  | flush l o =>
    obtain rfl := Option.some.inj hs
    obtain ⟨fl', bf', -, hinv, -⟩ := h.flush l o fun hb hc => hwrite (decide_eq_true ⟨hb, hc⟩)
    exact ⟨fl', bf', hinv⟩
  | flushAll o =>
    obtain rfl := Option.some.inj hs
    exact ⟨_, _, h.flushAll fun hb => hwrite (decide_eq_true hb)⟩
  | readRecordAtLsn l o =>
    have hinv := h.flushAll fun hb => hwrite (decide_eq_true hb)
    obtain ⟨⟨lm', found⟩, hread, heq⟩ := Option.map_eq_some_iff.mp hs
    obtain rfl := heq
    exact ⟨_, _, hinv.readRecordAtLsn hread⟩
  | commit t o =>
    have ho : o = .ok := hwrite rfl
    subst ho
    exact h.commit hroom hs

/-- **What is reported as durable is in the file**, on any file of whole records, through any
mixture of `begin`, `append`, `flush`, `flush_all`, `read_record_at_lsn` and `commit`
in which every write of a non-empty buffer succeeds and the LSN counter stays below
`INVALID_LSN`. -/
theorem honest_of_steps {rs : List LogRecord} (hw : ∀ r ∈ rs, Writable r) (hinc : Increasing rs)
    (hfree : firstFree rs < 2 ^ 64) :
    ∃ lm, (LogManager.new (logBytes rs)).readLog = some (lm, rs) ∧
      ∀ s, Steps step Sound (start lm rs) s → Honest s := by
  obtain ⟨lm, hread, hinv⟩ := inv_start hw hinc hfree
  refine ⟨lm, hread, fun s hrun => ?_⟩
  obtain ⟨fl, bf, h⟩ := hrun.invariant inv_step ⟨rs, [], hinv⟩
  exact h.honest

/-- A transaction that commits on an empty log. -/
theorem honest_of_commit :
    ∃ lm s, (LogManager.new []).readLog = some (lm, []) ∧ Steps step Sound (start lm []) s ∧
      s.committed = [(0, 1)] ∧ Honest s := by
  obtain ⟨lm, hread, hall⟩ := @honest_of_steps [] (fun r hr => by cases hr)
    List.Pairwise.nil (by decide)
  have hnew : (LogManager.new []).readLog = some (LogManager.new [], []) := rfl
  obtain rfl := (Prod.mk.inj (Option.some.inj (hread.symm.trans hnew))).1
  have hstart : Steps step Sound (start (LogManager.new []) []) (start (LogManager.new []) []) :=
    .refl
  have hrun := hstart.next .begin ⟨fun _ => rfl, by decide⟩ rfl
    |>.next (.commit 0 .ok) ⟨fun _ => rfl, by decide⟩ rfl
  exact ⟨_, _, hread, hrun, rfl, hall _ hrun⟩

/-- The write of the COMMIT record fails: the transaction is reported as committed,
`flushed_lsn_` is the LSN of its COMMIT record, and the file is empty. -/
theorem failed_write_commits :
    ∃ s, Steps step (fun _ _ => True) (start (LogManager.new []) []) s ∧
      s.committed = [(0, 1)] ∧ s.lm.flushedLsn = 1 ∧ s.lm.file = [] ∧ ¬ Honest s := by
  have hstart : Steps step (fun _ _ => True) (start (LogManager.new []) [])
      (start (LogManager.new []) []) := .refl
  have hrun := hstart.next .begin trivial rfl |>.next (.commit 0 (.failed 0)) trivial rfl
  refine ⟨_, hrun, rfl, rfl, rfl, ?_⟩
  rintro ⟨fl, bf, h⟩
  have hfl : fl = [] := by
    have hnil := List.length_eq_zero_iff.mp (Nat.le_zero.mp h.file.length_le)
    exact logBytes_eq_nil.mp hnil
  obtain ⟨r, hr, -⟩ := h.committed 0 1 List.mem_cons_self
  rw [hfl] at hr
  cases hr

end TxnLog

end PersistX.Log
