import PersistX.Log.Codec
import PersistX.Log.LogManager

/-!
# PersistX — reading a log file of any content

`read_log` and `read_record_at_lsn` take the size of each record from the file
and compare it with the number of bytes that are left, but not with the size of
the prefix itself, nor with the type byte and the inner lengths of the record:
`deserialize` is given the size and does not look at it.

`WellFramed` is the condition on the bytes of the file under which nothing goes
wrong. It is exact.

Main results: `readsSafely_iff` and, for a file that breaks it with its first
four bytes, `zeroPrefix_not_safe`.
-/

namespace PersistX.Log

open Bytes LogRecord

namespace LogManager

-- ---------------------------------------------------------------------------
-- The property
-- ---------------------------------------------------------------------------

/-- A record of this size is consistent with a prefix: it has exactly the size
that the prefix says (`exact`), or at most that. -/
def Consistent (exact : Bool) (size pre : Nat) : Prop := if exact then size = pre else size ≤ pre

/-- The rounds of `read_log` over the bytes `rest`, with each record its prefix: there
are finitely many, and none of them leaves its buffer. -/
inductive Reading : Bytes → List (LogRecord × Nat) → Prop where
  | stop {rest : Bytes} (h : readFrame rest = some .stop) : Reading rest []
  | record {rest : Bytes} {r : LogRecord} {pre : Nat} {later : List (LogRecord × Nat)}
      (h : readFrame rest = some (.record r pre)) (hlater : Reading (rest.drop pre) later) :
      Reading rest ((r, pre) :: later)

/-- `read_log` ends, stays inside its buffers and returns consistent records. -/
def ReadLogSafe (exact : Bool) (lm : LogManager) : Prop :=
  ∃ read lm', Reading lm.file read ∧ lm.readLog = some (lm', read.map (·.1)) ∧
    ∀ p ∈ read, Consistent exact p.1.totalSize p.2

/-- The part of `read_record_at_lsn` that reads at an offset from the index stays inside its
buffer and returns a consistent record, or the default one. -/
def ReadAtSafe (exact : Bool) (lm : LogManager) (offset : Nat) : Prop :=
  ∃ f, readFrame (lm.file.drop offset) = some f ∧
    ∀ r pre, f = .record r pre → Consistent exact r.totalSize pre

/-- **Safety.** Both functions are safe in this state. `read_record_at_lsn` flushes first and
then reads at one offset, if the index has one, or else the whole log. -/
def ReadsSafely (exact : Bool) (lm : LogManager) (target : UInt64) : Prop :=
  ReadLogSafe exact lm ∧
    (∃ lm' r, lm.readRecordAtLsn target = some (lm', r)) ∧
    (∀ offset, lm.flushAll.lsnIndex target = some offset → ReadAtSafe exact lm.flushAll offset) ∧
    (lm.flushAll.lsnIndex target = none → ReadLogSafe exact lm.flushAll)

-- ---------------------------------------------------------------------------
-- The condition
-- ---------------------------------------------------------------------------

/-- The frame at the front of these bytes: its prefix is missing, or it is at least four and
promises more bytes than there are, or the record behind it asks for a consistent size. -/
def FrameOk (exact : Bool) (rest : Bytes) : Prop :=
  rest.length < 4 ∨ 4 ≤ u32At rest 0 ∧
    (rest.length < u32At rest 0 ∨
      Consistent exact (askedSize (rest.take (u32At rest 0))) (u32At rest 0))

/-- Every frame that the chain of prefixes leads to is in order. -/
inductive WellFramed (exact : Bool) : Bytes → Prop where
  | last {rest : Bytes} (hok : FrameOk exact rest)
      (h : rest.length < 4 ∨ rest.length < u32At rest 0) : WellFramed exact rest
  | frame {rest : Bytes} (hok : FrameOk exact rest) (h4 : 4 ≤ rest.length)
      (hfits : u32At rest 0 ≤ rest.length) (hlater : WellFramed exact (rest.drop (u32At rest 0))) :
      WellFramed exact rest

-- ---------------------------------------------------------------------------
-- One frame
-- ---------------------------------------------------------------------------

variable {exact : Bool} {lm : LogManager} {rest : Bytes}

theorem Consistent.le {size pre : Nat} (h : Consistent exact size pre) : size ≤ pre := by
  unfold Consistent at h
  split at h
  · exact Nat.le_of_eq h
  · exact h

/-- `readFrame`, with its prefix as a field at an offset. -/
theorem readFrame_eq (rest : Bytes) : readFrame rest =
    if rest.length < 4 then some .stop
    else if u32At rest 0 < 4 then none
    else if rest.length < u32At rest 0 then some .stop
    else (deserialize (rest.take (u32At rest 0))).map fun r => .record r (u32At rest 0) := rfl

theorem readFrame_stop_iff : readFrame rest = some .stop ↔
    rest.length < 4 ∨ 4 ≤ u32At rest 0 ∧ rest.length < u32At rest 0 := by
  rw [readFrame_eq]
  by_cases h4 : rest.length < 4
  · simp [h4]
  · rw [if_neg h4]
    by_cases hsmall : u32At rest 0 < 4
    · rw [if_pos hsmall]
      constructor
      · intro h
        cases h
      · intro h
        omega
    · rw [if_neg hsmall]
      by_cases hshort : rest.length < u32At rest 0
      · rw [if_pos hshort]
        simp only [true_iff]
        omega
      · rw [if_neg hshort]
        constructor
        · intro h
          obtain ⟨r, -, hr⟩ := Option.map_eq_some_iff.mp h
          cases hr
        · intro h
          omega

theorem readFrame_record_iff {r : LogRecord} {pre : Nat} :
    readFrame rest = some (.record r pre) ↔
      4 ≤ rest.length ∧ 4 ≤ pre ∧ pre ≤ rest.length ∧ pre = u32At rest 0 ∧
        deserialize (rest.take pre) = some r := by
  rw [readFrame_eq]
  by_cases h4 : rest.length < 4
  · rw [if_pos h4]
    constructor
    · intro h
      cases h
    · intro h
      omega
  · rw [if_neg h4]
    by_cases hsmall : u32At rest 0 < 4
    · rw [if_pos hsmall]
      constructor
      · intro h
        cases h
      · intro h
        omega
    · rw [if_neg hsmall]
      by_cases hshort : rest.length < u32At rest 0
      · rw [if_pos hshort]
        constructor
        · intro h
          cases h
        · intro h
          omega
      · rw [if_neg hshort, Option.map_eq_some_iff]
        constructor
        · rintro ⟨r', hr', hsame⟩
          obtain ⟨rfl, rfl⟩ := Frame.record.inj hsame
          exact ⟨by omega, by omega, by omega, rfl, hr'⟩
        · rintro ⟨-, -, -, rfl, hr⟩
          exact ⟨r, hr, rfl⟩

/-- A record that is read has the size that its bytes ask for, within its prefix. -/
theorem readFrame_record_size {r : LogRecord} {pre : Nat} (h : readFrame rest = some (.record r pre)) :
    r.totalSize = askedSize (rest.take pre) ∧ 29 ≤ pre ∧ pre ≤ rest.length := by
  obtain ⟨-, -, hfits, -, hr⟩ := readFrame_record_iff.mp h
  obtain ⟨hasked, hle⟩ := totalSize_of_deserialize hr
  rw [List.length_take_of_le hfits] at hle
  exact ⟨hasked, Nat.le_trans (le_totalSize r) hle, hfits⟩

/-- **One frame.** It is read safely exactly if it is in order. -/
theorem frameOk_iff : FrameOk exact rest ↔
    ∃ f, readFrame rest = some f ∧ ∀ r pre, f = .record r pre → Consistent exact r.totalSize pre := by
  constructor
  · intro h
    by_cases hstop : rest.length < 4 ∨ 4 ≤ u32At rest 0 ∧ rest.length < u32At rest 0
    · refine ⟨.stop, readFrame_stop_iff.mpr hstop, fun r pre h => ?_⟩
      cases h
    · obtain h4 | ⟨hpre, hshort | hcons⟩ := h
      · exact absurd (.inl h4) hstop
      · exact absurd (.inr ⟨hpre, hshort⟩) hstop
      · have hfits : u32At rest 0 ≤ rest.length := by omega
        obtain ⟨r, hr⟩ := @deserialize_of_le (rest.take (u32At rest 0))
          (by rw [List.length_take_of_le hfits]; exact hcons.le)
        have hframe : readFrame rest = some (.record r (u32At rest 0)) :=
          readFrame_record_iff.mpr ⟨by omega, hpre, hfits, rfl, hr⟩
        refine ⟨_, hframe, fun r' pre h => ?_⟩
        obtain ⟨rfl, rfl⟩ := Frame.record.inj h
        rwa [(readFrame_record_size hframe).1]
  · rintro ⟨f, hf, hcons⟩
    cases f with
    | stop =>
      obtain h4 | ⟨hpre, hshort⟩ := readFrame_stop_iff.mp hf
      · exact .inl h4
      · exact .inr ⟨hpre, .inl hshort⟩
    | record r pre =>
      have hc := hcons r pre rfl
      rw [(readFrame_record_size hf).1] at hc
      obtain ⟨-, hpre, -, rfl, -⟩ := readFrame_record_iff.mp hf
      exact .inr ⟨hpre, .inr hc⟩

-- ---------------------------------------------------------------------------
-- The whole file
-- ---------------------------------------------------------------------------

/-- Every round takes at least 29 bytes, so the rounds that the loop has are enough. -/
theorem Reading.scan {read : List (LogRecord × Nat)} (h : Reading rest read) {fuel : Nat}
    (hfuel : rest.length < fuel) : scan fuel rest = some (read.map (·.1)) := by
  induction h generalizing fuel with
  | stop h =>
    cases fuel with
    | zero => rw [LogManager.scan]; rfl
    | succ fuel => rw [LogManager.scan, h]; rfl
  | @record rest r pre later h hlater ih =>
    cases fuel with
    | zero => omega
    | succ fuel =>
      obtain ⟨-, h29, hfits⟩ := readFrame_record_size h
      have hshorter : (rest.drop pre).length < fuel := by
        rw [List.length_drop]
        omega
      rw [LogManager.scan, h]
      simp only
      rw [ih hshorter]
      rfl

theorem Reading.readLog {read : List (LogRecord × Nat)} (h : Reading lm.file read) :
    ∃ lm', lm.readLog = some (lm', read.map (·.1)) := by
  have hscan := readLog_records lm
  rw [h.scan (Nat.lt_succ_self _)] at hscan
  obtain ⟨⟨lm', rs⟩, hread, hrs⟩ := Option.map_eq_some_iff.mp hscan
  obtain rfl : rs = _ := hrs
  exact ⟨lm', hread⟩

/-- **The whole file.** Reading it is safe exactly if every frame of it is in order. -/
theorem wellFramed_iff : WellFramed exact rest ↔
    ∃ read, Reading rest read ∧ ∀ p ∈ read, Consistent exact p.1.totalSize p.2 := by
  constructor
  · intro h
    induction h with
    | @last rest hok h =>
      refine ⟨[], .stop (readFrame_stop_iff.mpr ?_), fun p hp => absurd hp List.not_mem_nil⟩
      obtain h4 | ⟨hpre, -⟩ := hok
      · exact .inl h4
      · exact h.imp_right fun hshort => ⟨hpre, hshort⟩
    | @frame rest hok h4 hfits hlater ih =>
      obtain ⟨later, hreading, hcons⟩ := ih
      obtain ⟨f, hf, hthis⟩ := frameOk_iff.mp hok
      cases f with
      | stop =>
        have := readFrame_stop_iff.mp hf
        omega
      | record r pre =>
        have hpre := (readFrame_record_iff.mp hf).2.2.2.1
        rw [← hpre] at hreading
        refine ⟨(r, pre) :: later, .record hf hreading, fun p hp => ?_⟩
        obtain rfl | hp := List.mem_cons.mp hp
        · exact hthis r pre rfl
        · exact hcons p hp
  · rintro ⟨read, hreading, hcons⟩
    induction hreading with
    | @stop rest h =>
      refine .last (frameOk_iff.mpr ⟨.stop, h, fun r pre h => ?_⟩) ?_
      · cases h
      · exact (readFrame_stop_iff.mp h).imp_right And.right
    | @record rest r pre later h hlater ih =>
      obtain ⟨h4, -, hfits, hpre, -⟩ := readFrame_record_iff.mp h
      refine .frame (frameOk_iff.mpr ⟨_, h, fun r' pre' hsame => ?_⟩) h4 (hpre ▸ hfits)
        (hpre ▸ ih fun p hp => hcons p (List.mem_cons_of_mem _ hp))
      obtain ⟨rfl, rfl⟩ := Frame.record.inj hsame
      exact hcons (r, pre) List.mem_cons_self

theorem readLogSafe_iff : ReadLogSafe exact lm ↔ WellFramed exact lm.file := by
  rw [wellFramed_iff]
  constructor
  · rintro ⟨read, -, hreading, -, hcons⟩
    exact ⟨read, hreading, hcons⟩
  · rintro ⟨read, hreading, hcons⟩
    obtain ⟨lm', hread⟩ := hreading.readLog
    exact ⟨read, lm', hreading, hread, hcons⟩

theorem readAtSafe_iff {offset : Nat} :
    ReadAtSafe exact lm offset ↔ FrameOk exact (lm.file.drop offset) :=
  frameOk_iff.symm

/-- Where its one read is safe, `read_record_at_lsn` returns. -/
theorem readRecordAtLsn_returns {target : UInt64}
    (hat : ∀ offset, lm.flushAll.lsnIndex target = some offset → ReadAtSafe exact lm.flushAll offset)
    (hscan : lm.flushAll.lsnIndex target = none → ReadLogSafe exact lm.flushAll) :
    ∃ lm' r, lm.readRecordAtLsn target = some (lm', r) := by
  cases hindex : lm.flushAll.lsnIndex target with
  | none =>
    obtain ⟨read, lm', -, hread, -⟩ := hscan hindex
    simp only [readRecordAtLsn, hindex, hread, Option.map_some]
    exact ⟨_, _, rfl⟩
  | some offset =>
    obtain ⟨f, hf, -⟩ := hat offset hindex
    simp only [readRecordAtLsn, hindex, hf]
    cases f with
    | stop => exact ⟨_, _, rfl⟩
    | record r pre => exact ⟨_, _, rfl⟩

/-- **Reading is safe exactly on well-framed logs.** In every state of the log manager and for
every LSN, on both readings of a consistent size: the file must be well framed, and so must what
`read_record_at_lsn` reads of the flushed file. -/
theorem readsSafely_iff (exact : Bool) (lm : LogManager) (target : UInt64) :
    ReadsSafely exact lm target ↔
      WellFramed exact lm.file ∧
        (∀ offset, lm.flushAll.lsnIndex target = some offset →
          FrameOk exact (lm.flushAll.file.drop offset)) ∧
        (lm.flushAll.lsnIndex target = none → WellFramed exact lm.flushAll.file) := by
  constructor
  · rintro ⟨hlog, -, hat, hscan⟩
    exact ⟨readLogSafe_iff.mp hlog, fun offset h => readAtSafe_iff.mp (hat offset h),
      fun h => readLogSafe_iff.mp (hscan h)⟩
  · rintro ⟨hlog, hat, hscan⟩
    have hat' : ∀ offset, lm.flushAll.lsnIndex target = some offset →
        ReadAtSafe exact lm.flushAll offset := fun offset h => readAtSafe_iff.mpr (hat offset h)
    have hscan' : lm.flushAll.lsnIndex target = none → ReadLogSafe exact lm.flushAll :=
      fun h => readLogSafe_iff.mpr (hscan h)
    exact ⟨readLogSafe_iff.mpr hlog, readRecordAtLsn_returns hat' hscan', hat', hscan'⟩

/-- A zero-filled file: a size of zero gives a buffer of no bytes, into which the prefix is
copied. -/
theorem zeroPrefix_not_safe :
    (new [0, 0, 0, 0]).readLog = none ∧ (new [0, 0, 0, 0]).readRecordAtLsn 0 = none ∧
      ¬ ReadsSafely false (new [0, 0, 0, 0]) 0 := by
  have hnone : (new [0, 0, 0, 0]).readLog = none := by decide
  refine ⟨hnone, by decide, ?_⟩
  rintro ⟨⟨read, lm', -, hread, -⟩, -⟩
  rw [hnone] at hread
  cases hread

-- An UPDATE of 35 bytes: the length of its first image is read behind the buffer.
example :
    (new ([35, 0, 0, 0] ++ List.replicate 24 0 ++ [2] ++ List.replicate 6 0)).readLog = none := by
  decide

/-- A log of records that `append` can have written is well framed, on the exact reading. -/
theorem wellFramed_logBytes {rs : List LogRecord} (h : ∀ r ∈ rs, Writable r) :
    WellFramed true (logBytes rs) := by
  rw [wellFramed_iff]
  induction rs with
  | nil =>
    exact ⟨[], .stop (readFrame_stop_iff.mpr (.inl (by decide))), fun p hp => absurd hp List.not_mem_nil⟩
  | cons r rs ih =>
    obtain ⟨later, hreading, hcons⟩ := ih fun x hx => h x (List.mem_cons_of_mem _ hx)
    have hframe := readFrame_layout (h r List.mem_cons_self) (logBytes rs)
    refine ⟨(r, r.totalSize) :: later, .record hframe ?_, fun p hp => ?_⟩
    · rw [logBytes_cons, ← r.length_layout, List.drop_left]
      exact hreading
    · obtain rfl | hp := List.mem_cons.mp hp
      · exact (rfl : r.totalSize = r.totalSize)
      · exact hcons p hp

end LogManager

end PersistX.Log
