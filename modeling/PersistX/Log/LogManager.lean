import PersistX.Log.LogRecord
import Mathlib.Data.List.Induction
import Mathlib.Logic.Function.Basic

/-!
# PersistX — the log manager, byte by byte

`LogManager` of `log_manager.cpp` with its file and its buffer as bytes. The
constructor puts the write position at the end of the file it finds, `append`
stamps and buffers, the flushes write the whole buffer at the write position,
`read_log` reads framed records from the start of the file until the file ends
or a record is cut short. Writes succeed.

A function returns `none` where the code would leave a buffer: a record too
large for its size field, a size prefix smaller than itself, a record whose
inner lengths run past its end.

Main results: `Represents.run` (file and buffer hold exactly the records that
were appended, in order, after any sequence of operations) and
`readLog_of_logBytes` (whole records, followed by a record cut short or by
nothing, are read as those records).
-/

namespace PersistX.Log

open Bytes

/-- `LogManager`. The file is part of the state; `log_file_`'s write position
is `writeOffset`. -/
structure LogManager where
  file : Bytes
  buffer : Bytes := []
  nextLsn : UInt64 := 0
  flushedLsn : UInt64 := UInt64.ofNat invalidU64
  writeOffset : Nat
  lsnIndex : UInt64 → Option Nat := fun _ => none

namespace LogManager

/-- The constructor, on the bytes of an existing file (empty: a new one). -/
def new (file : Bytes) : LogManager := { file, writeOffset := file.length }

/-- `append`: stamp the record, note its offset, add its bytes to the buffer. -/
def append (lm : LogManager) (record : LogRecord) : Option (LogManager × UInt64) := do
  let lsn := lm.nextLsn
  let bytes ← (record.setLsn lsn).serialize
  return ({ lm with
      nextLsn := lsn + 1
      lsnIndex := Function.update lm.lsnIndex lsn (some (lm.writeOffset + lm.buffer.length))
      buffer := lm.buffer ++ bytes }, lsn)

/-- `flush_all`, with `flush_all_unlocked`. -/
def flushAll (lm : LogManager) : LogManager :=
  if lm.buffer = [] then lm
  else
    { lm with
      file := overwrite lm.file lm.writeOffset lm.buffer
      flushedLsn := if lm.nextLsn > 0 then lm.nextLsn - 1 else lm.flushedLsn
      writeOffset := lm.writeOffset + lm.buffer.length
      buffer := [] }

/-- `flush(up_to_lsn)`. -/
def flush (lm : LogManager) (upTo : UInt64) : LogManager :=
  if lm.flushedLsn ≠ UInt64.ofNat invalidU64 ∧ lm.flushedLsn ≥ upTo then lm else lm.flushAll

/-- What reading at one position of the file gives: a record and its
`total_size`, or no complete record. -/
inductive Frame where
  | stop
  | record (r : LogRecord) (totalSize : Nat)
  deriving DecidableEq

/-- Read the record at the front of `rest`. The buffer for it has `total_size`
bytes; copying the prefix into it needs four of them. -/
def readFrame (rest : Bytes) : Option Frame :=
  if rest.length < 4 then some .stop
  else
    let totalSize := ofLe (rest.take 4)
    if totalSize < 4 then none
    else if rest.length < totalSize then some .stop
    else (LogRecord.deserialize (rest.take totalSize)).map fun r => .record r totalSize

/-- What `read_log` notes about a record it has read. -/
def noteRecord (lm : LogManager) (r : LogRecord) (offset : Nat) : LogManager :=
  { lm with
    lsnIndex := Function.update lm.lsnIndex r.lsn (some offset)
    nextLsn := if r.lsn ≥ lm.nextLsn then r.lsn + 1 else lm.nextLsn }

/-- The loop of `read_log`. A record is at least 29 bytes long, so the length
of the file is more rounds than the loop can take. -/
def readLoop : Nat → LogManager → Nat → Option (LogManager × List LogRecord)
  | 0, lm, _ => some (lm, [])
  | fuel + 1, lm, offset =>
    match readFrame (lm.file.drop offset) with
    | none => none
    | some .stop => some (lm, [])
    | some (.record r totalSize) =>
      (readLoop fuel (lm.noteRecord r offset) (offset + totalSize)).map fun (lm', rs) => (lm', r :: rs)

/-- `read_log`. -/
def readLog (lm : LogManager) : Option (LogManager × List LogRecord) :=
  lm.readLoop (lm.file.length + 1) 0

/-- `read_record_at_lsn`: through the index if it has the LSN, else by a full scan. -/
def readRecordAtLsn (lm : LogManager) (target : UInt64) : Option (LogManager × LogRecord) :=
  let lm := lm.flushAll
  match lm.lsnIndex target with
  | some offset =>
    match readFrame (lm.file.drop offset) with
    | none => none
    | some .stop => some (lm, {})
    | some (.record r _) => some (lm, r)
  | none => lm.readLog.map fun (lm', rs) => (lm', (rs.find? (·.lsn == target)).getD {})

-- ---------------------------------------------------------------------------
-- Sequences of operations
-- ---------------------------------------------------------------------------

/-- The operations of a log manager; `reopen` destroys it (which flushes) and
opens the file again. -/
inductive Op where
  | append (record : LogRecord.New)
  | flush (upTo : UInt64)
  | flushAll
  | readLog
  | readRecordAtLsn (lsn : UInt64)
  | reopen

/-- One operation, with the records it appends, as stamped. -/
def step (lm : LogManager) : Op → Option (LogManager × List LogRecord)
  | .append c => (lm.append c.build).map fun (lm', lsn) => (lm', [c.build.setLsn lsn])
  | .flush upTo => some (lm.flush upTo, [])
  | .flushAll => some (lm.flushAll, [])
  | .readLog => lm.readLog.map fun (lm', _) => (lm', [])
  | .readRecordAtLsn l => (lm.readRecordAtLsn l).map fun (lm', _) => (lm', [])
  | .reopen => some (new lm.flushAll.file, [])

/-- A sequence of operations, with all the records it appends. -/
def run (lm : LogManager) : List Op → Option (LogManager × List LogRecord)
  | [] => some (lm, [])
  | op :: ops => do
    let (lm, rs) ← lm.step op
    let (lm, rs') ← lm.run ops
    return (lm, rs ++ rs')

-- ---------------------------------------------------------------------------
-- Reading does not change what is stored
-- ---------------------------------------------------------------------------

/-- Same file, buffer and write position. -/
structure SameStore (lm lm' : LogManager) : Prop where
  file : lm'.file = lm.file
  buffer : lm'.buffer = lm.buffer
  offset : lm'.writeOffset = lm.writeOffset

theorem readLoop_sameStore {fuel : Nat} {lm lm' : LogManager} {offset : Nat} {rs : List LogRecord}
    (h : readLoop fuel lm offset = some (lm', rs)) : SameStore lm lm' := by
  induction fuel generalizing lm lm' offset rs with
  | zero =>
    cases h
    exact ⟨rfl, rfl, rfl⟩
  | succ fuel ih =>
    unfold readLoop at h
    split at h
    · cases h
    · cases h
      exact ⟨rfl, rfl, rfl⟩
    · obtain ⟨⟨lm1, rs1⟩, h1, h2⟩ := Option.map_eq_some_iff.mp h
      obtain ⟨rfl, rfl⟩ := Prod.mk.inj h2
      obtain ⟨hf, hb, ho⟩ := ih h1
      exact ⟨hf, hb, ho⟩

theorem readLog_sameStore {lm lm' : LogManager} {rs : List LogRecord}
    (h : lm.readLog = some (lm', rs)) : SameStore lm lm' :=
  readLoop_sameStore h

theorem readRecordAtLsn_sameStore {lm lm' : LogManager} {l : UInt64} {r : LogRecord}
    (h : lm.readRecordAtLsn l = some (lm', r)) : SameStore lm.flushAll lm' := by
  simp only [readRecordAtLsn] at h
  split at h
  · split at h
    · cases h
    · cases h
      exact ⟨rfl, rfl, rfl⟩
    · cases h
      exact ⟨rfl, rfl, rfl⟩
  · obtain ⟨⟨lm1, rs⟩, h1, h2⟩ := Option.map_eq_some_iff.mp h
    obtain ⟨rfl, rfl⟩ := Prod.mk.inj h2
    exact readLog_sameStore h1

-- ---------------------------------------------------------------------------
-- The bytes are the records
-- ---------------------------------------------------------------------------

/-- The bytes of a log of whole records. -/
def logBytes (rs : List LogRecord) : Bytes := rs.flatMap LogRecord.layout

@[simp] theorem logBytes_append (rs rs' : List LogRecord) :
    logBytes (rs ++ rs') = logBytes rs ++ logBytes rs' := List.flatMap_append

@[simp] theorem logBytes_cons (r : LogRecord) (rs : List LogRecord) :
    logBytes (r :: rs) = r.layout ++ logBytes rs := rfl

@[simp] theorem logBytes_nil : logBytes [] = [] := rfl

/-- A record that `append` can have written. -/
structure Writable (r : LogRecord) : Prop where
  canonical : r.Canonical
  size : r.totalSize < 2 ^ 32

/-- File and buffer are the bytes of these records, and the file ends at the
write position. -/
structure Represents (lm : LogManager) (rs : List LogRecord) : Prop where
  bytes : lm.file ++ lm.buffer = logBytes rs
  offset : lm.writeOffset = lm.file.length
  writable : ∀ r ∈ rs, Writable r

variable {lm lm' : LogManager} {rs news : List LogRecord}

theorem Represents.new (h : ∀ r ∈ rs, Writable r) : Represents (new (logBytes rs)) rs :=
  ⟨List.append_nil _, rfl, h⟩

theorem Represents.of_sameStore (h : Represents lm rs) (hs : SameStore lm lm') :
    Represents lm' rs where
  bytes := by rw [hs.file, hs.buffer, h.bytes]
  offset := by rw [hs.offset, hs.file, h.offset]
  writable := h.writable

theorem flushAll_buffer (lm : LogManager) : lm.flushAll.buffer = [] := by
  unfold flushAll
  split
  · assumption
  · rfl

theorem Represents.flushAll_file (h : Represents lm rs) : lm.flushAll.file = logBytes rs := by
  have hb := h.bytes
  unfold flushAll
  split
  · rename_i he
    rwa [he, List.append_nil] at hb
  · rw [h.offset, overwrite_length, hb]

theorem Represents.flushAll (h : Represents lm rs) : Represents lm.flushAll rs where
  bytes := by rw [flushAll_buffer, List.append_nil, h.flushAll_file]
  offset := by
    have hf : lm.flushAll.file.length = lm.file.length + lm.buffer.length := by
      rw [h.flushAll_file, ← h.bytes, List.length_append]
    rw [hf]
    unfold LogManager.flushAll
    split
    · rename_i he
      rw [he, h.offset]
      rfl
    · rw [h.offset]
  writable := h.writable

theorem Represents.flush (h : Represents lm rs) (upTo : UInt64) : Represents (lm.flush upTo) rs := by
  unfold LogManager.flush
  split
  · exact h
  · exact h.flushAll

theorem Represents.append (h : Represents lm rs) {c : LogRecord.New} {lsn : UInt64}
    (ha : lm.append c.build = some (lm', lsn)) :
    Represents lm' (rs ++ [c.build.setLsn lsn]) := by
  simp only [LogManager.append, Option.bind_eq_bind, Option.bind_eq_some_iff] at ha
  obtain ⟨bytes, hs, heq⟩ := ha
  obtain ⟨rfl, rfl⟩ := Prod.mk.inj (Option.some.inj heq)
  unfold LogRecord.serialize at hs
  split at hs
  · rename_i hsize
    obtain rfl := Option.some.inj hs
    refine ⟨?_, h.offset, ?_⟩
    · rw [← List.append_assoc, h.bytes]
      simp
    · intro r hr
      rcases List.mem_append.mp hr with hr | hr
      · exact h.writable r hr
      · rw [List.mem_singleton.mp hr]
        exact ⟨c.canonical _, hsize⟩
  · cases hs

/-- One operation adds what it appends to the log and nothing else. -/
theorem Represents.step (h : Represents lm rs) {op : Op} (hs : lm.step op = some (lm', news)) :
    Represents lm' (rs ++ news) := by
  cases op with
  | append c =>
    obtain ⟨⟨lm1, lsn⟩, h1, h2⟩ := Option.map_eq_some_iff.mp hs
    obtain ⟨rfl, rfl⟩ := Prod.mk.inj h2
    exact h.append h1
  | flush upTo =>
    cases hs
    rw [List.append_nil]
    exact h.flush upTo
  | flushAll =>
    cases hs
    rw [List.append_nil]
    exact h.flushAll
  | readLog =>
    obtain ⟨⟨lm1, _⟩, h1, h2⟩ := Option.map_eq_some_iff.mp hs
    obtain ⟨rfl, rfl⟩ := Prod.mk.inj h2
    rw [List.append_nil]
    exact h.of_sameStore (readLog_sameStore h1)
  | readRecordAtLsn l =>
    obtain ⟨⟨lm1, _⟩, h1, h2⟩ := Option.map_eq_some_iff.mp hs
    obtain ⟨rfl, rfl⟩ := Prod.mk.inj h2
    rw [List.append_nil]
    exact h.flushAll.of_sameStore (readRecordAtLsn_sameStore h1)
  | reopen =>
    cases hs
    rw [List.append_nil, h.flushAll_file]
    exact .new h.writable

/-- **The log is what was appended.** Any sequence of operations leaves file and
buffer with the records that were there and those it appended, in order. -/
theorem Represents.run (h : Represents lm rs) {ops : List Op}
    (hr : lm.run ops = some (lm', news)) : Represents lm' (rs ++ news) := by
  induction ops generalizing lm rs news with
  | nil =>
    cases hr
    rwa [List.append_nil]
  | cons op ops ih =>
    simp only [LogManager.run, Option.bind_eq_bind, Option.bind_eq_some_iff] at hr
    obtain ⟨⟨lm1, rs1⟩, h1, ⟨lm2, rs2⟩, h2, h3⟩ := hr
    obtain ⟨rfl, rfl⟩ := Prod.mk.inj (Option.some.inj h3)
    rw [← List.append_assoc]
    exact ih (h.step h1) h2

-- ---------------------------------------------------------------------------
-- Reading the bytes of records
-- ---------------------------------------------------------------------------

/-- The records that `read_log`'s loop finds in `rest`, without what it notes about them. -/
def scan : Nat → Bytes → Option (List LogRecord)
  | 0, _ => some []
  | fuel + 1, rest =>
    match readFrame rest with
    | none => none
    | some .stop => some []
    | some (.record r totalSize) => (scan fuel (rest.drop totalSize)).map (r :: ·)

theorem readLoop_records (fuel : Nat) (lm : LogManager) (offset : Nat) :
    (readLoop fuel lm offset).map (·.2) = scan fuel (lm.file.drop offset) := by
  induction fuel generalizing lm offset with
  | zero => rfl
  | succ fuel ih =>
    unfold readLoop scan
    split
    · rfl
    · rfl
    · rename_i r totalSize _
      have hfile : (lm.noteRecord r offset).file = lm.file := rfl
      rw [List.drop_drop, ← hfile, ← ih]
      simp [Function.comp_def]

theorem readLog_records (lm : LogManager) :
    lm.readLog.map (·.2) = scan (lm.file.length + 1) lm.file := by
  unfold readLog
  rw [readLoop_records, List.drop_zero]

/-- The size prefix of a record is its length. -/
theorem sizePrefix_layout {r : LogRecord} (h : Writable r) :
    ofLe (r.layout.take 4) = r.totalSize := by
  have htake : r.layout.take 4 = u32.enc (UInt32.ofNat r.totalSize) := by
    unfold LogRecord.layout
    rw [← u32_width, ← u32.length_enc (UInt32.ofNat r.totalSize), List.take_left]
  have hnat : (UInt32.ofNat r.totalSize).toNat = r.totalSize := UInt32.toNat_ofNat_of_lt' h.size
  rw [htake]
  exact (ofLe_leBytes_of_lt (UInt32.toNat_lt _)).trans hnat

/-- A whole record at the front of the file is read. -/
theorem readFrame_layout {r : LogRecord} (h : Writable r) (rest : Bytes) :
    readFrame (r.layout ++ rest) = some (.record r r.totalSize) := by
  have hlen : 29 ≤ r.totalSize := r.le_totalSize
  have hsize : ofLe ((r.layout ++ rest).take 4) = r.totalSize := by
    rw [List.take_append_of_le_length (by rw [r.length_layout]; omega), sizePrefix_layout h]
  have htot : (r.layout ++ rest).take r.totalSize = r.layout := by
    rw [← r.length_layout, List.take_left]
  unfold readFrame
  simp only [hsize, htot, LogRecord.deserialize_layout h.canonical h.size, List.length_append,
    LogRecord.length_layout]
  rw [if_neg (by omega), if_neg (by omega), if_neg (by omega)]
  rfl

/-- A record cut short ends the reading. -/
theorem readFrame_torn {r : LogRecord} (h : Writable r) {n : Nat} (hn : n < r.totalSize) :
    readFrame (r.layout.take n) = some .stop := by
  have hlen : (r.layout.take n).length = n := by
    rw [List.length_take, r.length_layout]
    omega
  unfold readFrame
  by_cases h4 : n < 4
  · rw [if_pos (by omega)]
  · have hsize : ofLe ((r.layout.take n).take 4) = r.totalSize := by
      rw [List.take_take, Nat.min_eq_left (by omega), sizePrefix_layout h]
    rw [if_neg (by omega), hsize]
    simp only [hlen]
    rw [if_neg (by omega), if_pos hn]

/-- Whole records are read one after the other. -/
theorem scan_logBytes (h : ∀ r ∈ rs, Writable r) (fuel : Nat) (rest : Bytes) :
    scan (rs.length + fuel) (logBytes rs ++ rest) = (scan fuel rest).map (rs ++ ·) := by
  induction rs with
  | nil => simp
  | cons r rs ih =>
    have hr : Writable r := h r List.mem_cons_self
    rw [List.length_cons, Nat.add_right_comm, scan, logBytes_cons, List.append_assoc,
      readFrame_layout hr]
    simp only
    rw [← r.length_layout, List.drop_left, ih fun x hx => h x (List.mem_cons_of_mem _ hx)]
    simp [Function.comp_def]

theorem length_le_logBytes (rs : List LogRecord) : rs.length ≤ (logBytes rs).length := by
  induction rs with
  | nil => exact Nat.le_refl 0
  | cons r rs ih =>
    have := r.le_totalSize
    rw [logBytes_cons, List.length_append, List.length_cons, r.length_layout]
    omega

/-- **Reading a log.** Whole records, followed by bytes on which the reader
stops, are read as those records. -/
theorem readLog_of_logBytes (h : ∀ r ∈ rs, Writable r) {tail : Bytes}
    (htail : readFrame tail = some .stop) (hfile : lm.file = logBytes rs ++ tail) :
    ∃ lm', lm.readLog = some (lm', rs) := by
  have hfuel : lm.file.length + 1 = rs.length + (lm.file.length - rs.length + 1) := by
    have := length_le_logBytes rs
    rw [hfile, List.length_append]
    omega
  have hscan : lm.readLog.map (·.2) = some rs := by
    rw [readLog_records, hfuel, hfile, scan_logBytes h, scan, htail]
    simp
  obtain ⟨⟨lm', rs'⟩, h1, rfl⟩ := Option.map_eq_some_iff.mp hscan
  exact ⟨lm', h1⟩

end LogManager

end PersistX.Log
