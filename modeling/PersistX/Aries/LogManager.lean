import PersistX.Wal.Record
import Mathlib.Data.List.Induction

/-!
# PersistX — the log manager, record by record

`LogManager` of `log_manager.cpp` at the level of records: the records in the
log file, those in the in-memory buffer, and the two counters. A crash keeps
the file and nothing else (`ofFile`). `lsn_index_` is not part of the state:
it only finds the record with a given LSN faster.

The byte level, where a record can be cut in the middle, is `Log/LogManager.lean`.
-/

namespace PersistX

/-- `LogManager`. -/
structure LogManager where
  file : List Record
  buffer : List Record
  nextLsn : Nat
  flushedLsn : Option Nat

namespace LogManager

/-- The constructor, on an existing log file. -/
def ofFile (file : List Record) : LogManager := ⟨file, [], 0, none⟩

/-- The log as its users see it: what is on disk and what is in memory. -/
def log (lm : LogManager) : List Record := lm.file ++ lm.buffer

/-- `append`: stamp with the next LSN, add to the buffer, return the LSN. -/
def append (lm : LogManager) (txnId : Nat) (prevLsn : Option Nat) (body : RecordBody) :
    LogManager × Nat :=
  ({ lm with
      buffer := lm.buffer ++ [⟨lm.nextLsn, txnId, prevLsn, body⟩]
      nextLsn := lm.nextLsn + 1 }, lm.nextLsn)

/-- `flush_all`. -/
def flushAll (lm : LogManager) : LogManager :=
  if lm.buffer = [] then lm
  else
    { file := lm.file ++ lm.buffer
      buffer := []
      nextLsn := lm.nextLsn
      flushedLsn := if lm.nextLsn > 0 then some (lm.nextLsn - 1) else lm.flushedLsn }

/-- `flush(up_to_lsn)`: nothing to do if that LSN was flushed already, else the whole buffer. -/
def flush (lm : LogManager) (upTo : Nat) : LogManager :=
  match lm.flushedLsn with
  | some f => if f ≥ upTo then lm else lm.flushAll
  | none => lm.flushAll

/-- `read_log`: the records of the file; `next_lsn_` moves past all of them. -/
def readLog (lm : LogManager) : LogManager × List Record :=
  ({ lm with
      nextLsn := lm.file.foldl (fun n r => if r.lsn ≥ n then r.lsn + 1 else n) lm.nextLsn },
    lm.file)

/-- `read_record_at_lsn`: flush, then look the record up (`none` for the INVALID record). -/
def readRecordAtLsn (lm : LogManager) (lsn : Nat) : LogManager × Option Record :=
  (lm.flushAll, lm.flushAll.file.find? (·.lsn == lsn))

-- ---------------------------------------------------------------------------
-- The counters agree with the records
-- ---------------------------------------------------------------------------

/-- The counters of a log manager whose LSNs are positions in the log. -/
structure Ok (lm : LogManager) : Prop where
  next : lm.nextLsn = lm.log.length
  flushed : ∀ f, lm.flushedLsn = some f → f < lm.file.length

variable {lm : LogManager}

@[simp] theorem append_log (t : Nat) (pr : Option Nat) (b : RecordBody) :
    (lm.append t pr b).1.log = lm.log ++ [⟨lm.nextLsn, t, pr, b⟩] := by
  simp [append, log]

@[simp] theorem append_file (t : Nat) (pr : Option Nat) (b : RecordBody) :
    (lm.append t pr b).1.file = lm.file := rfl

@[simp] theorem append_lsn (t : Nat) (pr : Option Nat) (b : RecordBody) :
    (lm.append t pr b).2 = lm.nextLsn := rfl

theorem Ok.append (h : lm.Ok) (t : Nat) (pr : Option Nat) (b : RecordBody) :
    (lm.append t pr b).1.Ok where
  next := by
    rw [append_log, List.length_append, ← h.next]
    rfl
  flushed := h.flushed

@[simp] theorem flushAll_file : lm.flushAll.file = lm.log := by
  rw [flushAll, log]
  split
  · rename_i h
    rw [h, List.append_nil]
  · rfl

@[simp] theorem flushAll_buffer : lm.flushAll.buffer = [] := by
  rw [flushAll]
  split
  · assumption
  · rfl

@[simp] theorem flushAll_log : lm.flushAll.log = lm.log := by
  rw [log, flushAll_file, flushAll_buffer, List.append_nil]

theorem Ok.flushAll (h : lm.Ok) : lm.flushAll.Ok where
  next := by
    rw [flushAll_log, ← h.next, LogManager.flushAll]
    split <;> rfl
  flushed f hf := by
    rw [flushAll_file]
    rw [LogManager.flushAll] at hf
    split at hf
    · have := h.flushed f hf
      rw [log, List.length_append]
      omega
    · have hlen := h.next
      simp only [log, List.length_append] at hlen ⊢
      split at hf
      · have := Option.some.inj hf
        omega
      · have := h.flushed f hf
        omega

/-- A flush writes all of the buffer or nothing. -/
theorem flush_eq (l : Nat) : lm.flush l = lm ∨ lm.flush l = lm.flushAll := by
  rw [flush]
  split
  · split
    · exact Or.inl rfl
    · exact Or.inr rfl
  · exact Or.inr rfl

@[simp] theorem flush_log (l : Nat) : (lm.flush l).log = lm.log := by
  rcases lm.flush_eq l with h | h
  · rw [h]
  · rw [h, flushAll_log]

theorem Ok.flush (h : lm.Ok) (l : Nat) : (lm.flush l).Ok := by
  rcases lm.flush_eq l with h' | h'
  · rw [h']
    exact h
  · rw [h']
    exact h.flushAll

theorem length_file_le : lm.file.length ≤ lm.log.length := by
  rw [log, List.length_append]
  omega

/-- **The WAL rule's flush.** After `flush(lsn)` the record with that LSN is in the file. -/
theorem Ok.lt_flush (h : lm.Ok) {l : Nat} (hl : l < lm.log.length) :
    l < (lm.flush l).file.length := by
  rw [LogManager.flush]
  split
  · rename_i f hf
    split
    · have := h.flushed f hf
      omega
    · rwa [flushAll_file]
  · rwa [flushAll_file]

theorem length_file_le_flush (l : Nat) : lm.file.length ≤ (lm.flush l).file.length := by
  rcases lm.flush_eq l with h | h
  · exact Nat.le_of_eq (by rw [h])
  · rw [h, flushAll_file]
    exact length_file_le

/-- Reading the log of a file whose LSNs are positions sets `next_lsn_` to its length. -/
theorem readLog_ok {file : List Record}
    (h : ∀ (i : Nat) (r : Record), file[i]? = some r → r.lsn = i) :
    (ofFile file).readLog.1.Ok := by
  refine ⟨?_, fun f hf => by cases hf⟩
  simp only [readLog, ofFile, log, List.append_nil]
  induction file using List.reverseRecOn with
  | nil => rfl
  | append_singleton l r ih =>
    have hl := ih fun i x hx => h i x (by
      obtain ⟨hi, -⟩ := List.getElem?_eq_some_iff.mp hx
      rwa [List.getElem?_append_left hi])
    have hr : r.lsn = l.length := h l.length r (by simp)
    rw [List.foldl_append, hl, List.foldl_cons, List.foldl_nil, hr, if_pos (Nat.le_refl _),
      List.length_append, List.length_singleton]

/-- Where LSNs are positions, the record at an LSN is the record at that position. -/
theorem readRecordAtLsn_eq (h : ∀ (i : Nat) (r : Record), lm.log[i]? = some r → r.lsn = i)
    {l : Nat} {r : Record} (hr : lm.log[l]? = some r) : (lm.readRecordAtLsn l).2 = some r := by
  simp only [readRecordAtLsn, flushAll_file]
  obtain ⟨hlt, hget⟩ := List.getElem?_eq_some_iff.mp hr
  rw [List.find?_eq_some_iff_getElem]
  refine ⟨by simp [h l r hr], l, hlt, hget, fun j hj => ?_⟩
  have := h j _ (List.getElem?_eq_getElem (Nat.lt_trans hj hlt))
  simp only [this, Bool.not_eq_eq_eq_not, Bool.not_true, beq_eq_false_iff_ne, ne_eq]
  omega

end LogManager

end PersistX
