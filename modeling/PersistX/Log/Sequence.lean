import PersistX.Log.LogManager

/-!
# PersistX — the log is a faithful sequence

A log manager opened on whole records and read once keeps five things in step
through any mixture of `append`, `flush`, `flush_all`, `read_log` and
`read_record_at_lsn`: the framing, the LSN counter, `flushed_lsn_`, the write
position and the offset index. `Faithful lm fl bf` is the invariant: the file
holds the records `fl`, the buffer the records `bf`, their LSNs increase and
are below the counter, nothing in the buffer is below `flushed_lsn_`, and every
offset in the index is that of its record.

The LSN counter has 64 bits and `INVALID_LSN` is its last value. While it does
not get there, the log is a faithful sequence (`isLogOf_run`); when it wraps,
LSNs are handed out again (`lsn_counter_wraps`).
-/

namespace PersistX.Log

open Bytes

namespace LogManager

/-- The first LSN behind a log, as a number. -/
def firstFree (rs : List LogRecord) : Nat := (rs.getLast?.map fun r => r.lsn.toNat + 1).getD 0

/-- LSNs increase along the log. -/
def Increasing (rs : List LogRecord) : Prop := rs.Pairwise fun a b => a.lsn.toNat < b.lsn.toNat

instance (rs : List LogRecord) : Decidable (Increasing rs) :=
  inferInstanceAs (Decidable (rs.Pairwise fun a b => a.lsn.toNat < b.lsn.toNat))

/-- What a log manager owes to the records `rs` that were in its file or were
appended, in this order. -/
structure IsLogOf (lm : LogManager) (rs : List LogRecord) : Prop where
  /-- LSNs increase. -/
  increasing : rs.Pairwise fun a b => a.lsn < b.lsn
  /-- File and buffer are the records, in order. -/
  bytes : lm.file ++ lm.buffer = logBytes rs
  /-- `flush(l)` puts every record up to `l` into the file. -/
  flush : ∀ l, ∃ k, (lm.flush l).file = logBytes (rs.take k) ∧ ∀ r ∈ rs, r.lsn ≤ l → r ∈ rs.take k
  /-- `read_log` returns the records of the file. -/
  read : ∃ k lm', lm.file = logBytes (rs.take k) ∧ lm.readLog = some (lm', rs.take k)
  /-- `read_record_at_lsn` returns the record with that LSN, or the INVALID record if there is none. -/
  lookup : ∀ l, ∃ lm' found, lm.readRecordAtLsn l = some (lm', found) ∧
    (∀ r ∈ rs, r.lsn = l → found = r) ∧ (found = {} ↔ ∀ r ∈ rs, r.lsn ≠ l)
  /-- No operation lowers `flushed_lsn_` once it is set. -/
  flushedLsn : ∀ op lm' news, op ≠ .reopen → lm.step op = some (lm', news) →
    lm.flushedLsn ≠ UInt64.ofNat invalidU64 →
      lm'.flushedLsn ≠ UInt64.ofNat invalidU64 ∧ lm.flushedLsn ≤ lm'.flushedLsn
  /-- Every operation with a record below 4 GiB succeeds. -/
  defined : ∀ op, (∀ c, op = .append c → c.build.totalSize < 2 ^ 32) → (lm.step op).isSome

/-- The invariant behind `IsLogOf`, with the records in the file and in the buffer. -/
structure Faithful (lm : LogManager) (fl bf : List LogRecord) : Prop where
  file : lm.file = logBytes fl
  buffer : lm.buffer = logBytes bf
  offset : lm.writeOffset = lm.file.length
  writable : ∀ r ∈ fl ++ bf, Writable r
  increasing : Increasing (fl ++ bf)
  next : ∀ r ∈ fl ++ bf, r.lsn.toNat < lm.nextLsn.toNat
  flushed : lm.flushedLsn ≠ UInt64.ofNat invalidU64 →
    lm.flushedLsn.toNat < lm.nextLsn.toNat ∧ ∀ r ∈ bf, lm.flushedLsn.toNat < r.lsn.toNat
  index : ∀ l off, lm.lsnIndex l = some off →
    ∃ pre r post, fl ++ bf = pre ++ r :: post ∧ r.lsn = l ∧ off = (logBytes pre).length

-- ---------------------------------------------------------------------------
-- What read_log notes
-- ---------------------------------------------------------------------------

/-- What `read_log` has noted after reading `rs` from `offset` on. -/
def noteAll (lm : LogManager) (offset : Nat) : List LogRecord → LogManager
  | [] => lm
  | r :: rs => noteAll (lm.noteRecord r offset) (offset + r.totalSize) rs

variable {lm lm' : LogManager} {rs fl bf news : List LogRecord} {offset : Nat}

theorem noteAll_file : (noteAll lm offset rs).file = lm.file := by
  induction rs generalizing lm offset with
  | nil => rfl
  | cons r rs ih => exact ih

theorem noteAll_buffer : (noteAll lm offset rs).buffer = lm.buffer := by
  induction rs generalizing lm offset with
  | nil => rfl
  | cons r rs ih => exact ih

theorem noteAll_writeOffset : (noteAll lm offset rs).writeOffset = lm.writeOffset := by
  induction rs generalizing lm offset with
  | nil => rfl
  | cons r rs ih => exact ih

theorem noteAll_flushedLsn : (noteAll lm offset rs).flushedLsn = lm.flushedLsn := by
  induction rs generalizing lm offset with
  | nil => rfl
  | cons r rs ih => exact ih

/-- Reading whole records notes each of them at its offset. -/
theorem readLoop_logBytes (h : ∀ r ∈ rs, Writable r) {pre : Bytes} (hfile : lm.file = pre ++ logBytes rs)
    {fuel : Nat} (hfuel : rs.length < fuel) :
    readLoop fuel lm pre.length = some (noteAll lm pre.length rs, rs) := by
  induction rs generalizing lm pre fuel with
  | nil =>
    cases fuel with
    | zero => omega
    | succ fuel =>
      unfold readLoop
      rw [hfile, List.drop_left]
      rfl
  | cons r rs ih =>
    cases fuel with
    | zero => omega
    | succ fuel =>
      have hr : Writable r := h r List.mem_cons_self
      have hnext : (lm.noteRecord r pre.length).file = (pre ++ r.layout) ++ logBytes rs := by
        rw [List.append_assoc]
        exact hfile
      have hlen : (pre ++ r.layout).length = pre.length + r.totalSize := by
        rw [List.length_append, r.length_layout]
      have hrest := ih (fun x hx => h x (List.mem_cons_of_mem _ hx)) hnext
        (Nat.lt_of_succ_lt_succ hfuel)
      unfold readLoop
      rw [hfile, List.drop_left, logBytes_cons, readFrame_layout hr]
      simp only
      rw [← hlen, hrest, noteAll, hlen]
      rfl

theorem readLog_logBytes (h : ∀ r ∈ rs, Writable r) (hfile : lm.file = logBytes rs) :
    lm.readLog = some (noteAll lm 0 rs, rs) := by
  have hfuel : rs.length < lm.file.length + 1 := by
    have := length_le_logBytes rs
    rw [hfile]
    omega
  have hpre : lm.file = [] ++ logBytes rs := hfile
  exact readLoop_logBytes h hpre hfuel

/-- An offset in the index was there, or is that of a record just read. -/
theorem noteAll_lsnIndex {l : UInt64} {off : Nat}
    (h : (noteAll lm offset rs).lsnIndex l = some off) :
    lm.lsnIndex l = some off ∨
      ∃ pre r post, rs = pre ++ r :: post ∧ r.lsn = l ∧ off = offset + (logBytes pre).length := by
  induction rs generalizing lm offset with
  | nil => exact .inl h
  | cons r rs ih =>
    rcases ih h with hold | ⟨pre, x, post, hrs, hx, hoff⟩
    · unfold noteRecord at hold
      simp only [Function.update_apply] at hold
      split at hold
      · rename_i hl
        obtain rfl := Option.some.inj hold
        exact .inr ⟨[], r, rs, rfl, hl.symm, rfl⟩
      · exact .inl hold
    · refine .inr ⟨r :: pre, x, post, by rw [hrs]; rfl, hx, ?_⟩
      rw [hoff, logBytes_cons, List.length_append, r.length_layout]
      omega

theorem noteRecord_nextLsn (lm : LogManager) (offset : Nat) {r : LogRecord} (hbound : r.lsn.toNat + 1 < 2 ^ 64) :
    ((lm.noteRecord r offset).nextLsn = lm.nextLsn ∧ r.lsn.toNat < lm.nextLsn.toNat) ∨
      (lm.nextLsn.toNat ≤ r.lsn.toNat ∧
        (lm.noteRecord r offset).nextLsn.toNat = r.lsn.toNat + 1) := by
  unfold noteRecord
  simp only [ge_iff_le, UInt64.le_iff_toNat_le]
  split
  · rename_i hle
    refine .inr ⟨hle, ?_⟩
    rw [UInt64.toNat_add]
    exact Nat.mod_eq_of_lt hbound
  · rename_i hlt
    exact .inl ⟨rfl, Nat.lt_of_not_le hlt⟩

/-- The counter moves behind everything that was read, and no further. -/
theorem noteAll_nextLsn (lm : LogManager) (offset : Nat) (hbound : ∀ r ∈ rs, r.lsn.toNat + 1 < 2 ^ 64) :
    lm.nextLsn.toNat ≤ (noteAll lm offset rs).nextLsn.toNat ∧
      (∀ r ∈ rs, r.lsn.toNat < (noteAll lm offset rs).nextLsn.toNat) ∧
      ((noteAll lm offset rs).nextLsn = lm.nextLsn ∨
        ∃ r ∈ rs, (noteAll lm offset rs).nextLsn.toNat = r.lsn.toNat + 1) := by
  induction rs generalizing lm offset with
  | nil => exact ⟨Nat.le_refl _, by simp, .inl rfl⟩
  | cons r rs ih =>
    rw [noteAll]
    have hr := noteRecord_nextLsn lm offset (hbound r List.mem_cons_self)
    generalize lm.noteRecord r offset = lm1 at hr
    generalize offset + r.totalSize = offset1
    obtain ⟨hle, hall, hcase⟩ := ih lm1 offset1
      fun x hx => hbound x (List.mem_cons_of_mem _ hx)
    refine ⟨?_, fun x hx => ?_, ?_⟩
    · rcases hr with ⟨heq, _⟩ | ⟨hlt, heq⟩
      · rwa [heq] at hle
      · omega
    · rcases List.mem_cons.mp hx with rfl | hx
      · rcases hr with ⟨heq, hlt⟩ | ⟨_, heq⟩
        · rw [heq] at hle
          omega
        · omega
      · exact hall x hx
    · rcases hcase with heq | ⟨x, hx, hxe⟩
      · rw [heq]
        rcases hr with ⟨heq', _⟩ | ⟨_, heq'⟩
        · exact .inl heq'
        · exact .inr ⟨r, List.mem_cons_self, heq'⟩
      · exact .inr ⟨x, List.mem_cons_of_mem _ hx, hxe⟩

-- ---------------------------------------------------------------------------
-- Opening
-- ---------------------------------------------------------------------------

theorem Increasing.le_firstFree (h : Increasing rs) {r : LogRecord} (hr : r ∈ rs) :
    r.lsn.toNat + 1 ≤ firstFree rs := by
  unfold firstFree
  induction rs using List.reverseRecOn with
  | nil => cases hr
  | append_singleton rs x _ =>
    rw [List.getLast?_append]
    simp only [List.getLast?_singleton, Option.some_or, Option.map_some, Option.getD_some]
    rcases List.mem_append.mp hr with hr | hr
    · have hlt := (List.pairwise_append.mp h).2.2 r hr x (List.mem_singleton.mpr rfl)
      omega
    · exact Nat.le_of_eq (by rw [List.mem_singleton.mp hr])

theorem firstFree_eq_of_last {n : Nat} (h : Increasing rs) (hall : ∀ r ∈ rs, r.lsn.toNat < n)
    (hn : n = 0 ∨ ∃ r ∈ rs, n = r.lsn.toNat + 1) : n = firstFree rs := by
  have hle : firstFree rs ≤ n := by
    unfold firstFree
    cases hl : rs.getLast? with
    | none => exact Nat.zero_le _
    | some x => exact hall x (List.mem_of_getLast? hl)
  rcases hn with rfl | ⟨r, hr, rfl⟩
  · omega
  · have := h.le_firstFree hr
    omega

/-- A log manager opened on whole records and read once. -/
theorem Faithful.open (hw : ∀ r ∈ rs, Writable r) (hinc : Increasing rs)
    (hfree : firstFree rs < 2 ^ 64) :
    ∃ lm, (new (logBytes rs)).readLog = some (lm, rs) ∧ Faithful lm rs [] ∧
      lm.nextLsn.toNat = firstFree rs := by
  have hbound : ∀ r ∈ rs, r.lsn.toNat + 1 < 2 ^ 64 := fun r hr =>
    Nat.lt_of_le_of_lt (hinc.le_firstFree hr) hfree
  obtain ⟨_, hall, hcase⟩ := noteAll_nextLsn (new (logBytes rs)) 0 hbound
  have hfile : (noteAll (new (logBytes rs)) 0 rs).file = logBytes rs := noteAll_file
  refine ⟨noteAll (new (logBytes rs)) 0 rs, readLog_logBytes hw rfl, ?_, ?_⟩
  · refine ⟨hfile, noteAll_buffer, ?_, by simpa using hw, by simpa using hinc,
      by simpa using hall, fun h => absurd noteAll_flushedLsn h, fun l off hl => ?_⟩
    · rw [noteAll_writeOffset, hfile]
      rfl
    · rcases noteAll_lsnIndex hl with hnone | ⟨pre, r, post, hrs, hr, hoff⟩
      · cases hnone
      · exact ⟨pre, r, post, by rw [List.append_nil, hrs], hr, by omega⟩
  · apply firstFree_eq_of_last hinc hall
    rcases hcase with h0 | hr
    · left
      rw [h0]
      rfl
    · exact .inr hr

-- ---------------------------------------------------------------------------
-- One operation
-- ---------------------------------------------------------------------------

theorem logBytes_eq_nil : logBytes rs = [] ↔ rs = [] := by
  constructor
  · intro h
    have := length_le_logBytes rs
    rw [h] at this
    exact List.length_eq_zero_iff.mp (Nat.le_zero.mp this)
  · rintro rfl
    rfl

theorem Faithful.flushAll_file (h : Faithful lm fl bf) : lm.flushAll.file = logBytes (fl ++ bf) := by
  unfold LogManager.flushAll
  split
  · rename_i hb
    rw [logBytes_append, ← h.buffer, hb, List.append_nil, h.file]
  · rw [logBytes_append, ← h.buffer, ← h.file, h.offset, overwrite_length]

theorem flushAll_nextLsn : lm.flushAll.nextLsn = lm.nextLsn := by
  unfold LogManager.flushAll
  split <;> rfl

theorem flushAll_lsnIndex : lm.flushAll.lsnIndex = lm.lsnIndex := by
  unfold LogManager.flushAll
  split <;> rfl

/-- After a flush of a non-empty buffer `flushed_lsn_` is the last LSN handed out. -/
theorem Faithful.flushAll_flushedLsn (h : Faithful lm fl bf) :
    (bf = [] ∧ lm.flushAll.flushedLsn = lm.flushedLsn) ∨
      lm.flushAll.flushedLsn.toNat + 1 = lm.nextLsn.toNat := by
  unfold LogManager.flushAll
  split
  · rename_i hb
    rw [h.buffer, logBytes_eq_nil] at hb
    exact .inl ⟨hb, rfl⟩
  · rename_i hb
    right
    rw [h.buffer, logBytes_eq_nil] at hb
    obtain ⟨r, hr⟩ := List.exists_mem_of_ne_nil bf hb
    have hpos : 0 < lm.nextLsn.toNat :=
      Nat.lt_of_le_of_lt (Nat.zero_le _) (h.next r (List.mem_append_right _ hr))
    have hgt : lm.nextLsn > 0 := UInt64.lt_iff_toNat_lt.mpr hpos
    have hone : (1 : UInt64) ≤ lm.nextLsn := UInt64.le_iff_toNat_le.mpr hpos
    simp only [if_pos hgt, UInt64.toNat_sub_of_le _ _ hone]
    exact Nat.sub_add_cancel hpos

theorem Faithful.flushAll (h : Faithful lm fl bf) : Faithful lm.flushAll (fl ++ bf) [] where
  file := h.flushAll_file
  buffer := flushAll_buffer lm
  offset := by
    have hlen : lm.flushAll.file.length = lm.file.length + lm.buffer.length := by
      rw [h.flushAll_file, logBytes_append, ← h.file, ← h.buffer, List.length_append]
    rw [hlen]
    unfold LogManager.flushAll
    split
    · rename_i hb
      rw [hb, h.offset]
      rfl
    · rw [h.offset]
  writable := by simpa using h.writable
  increasing := by simpa using h.increasing
  next := by
    rw [flushAll_nextLsn]
    simpa using h.next
  flushed hne := by
    rw [flushAll_nextLsn]
    refine ⟨?_, by simp⟩
    rcases h.flushAll_flushedLsn with ⟨_, heq⟩ | heq
    · rw [heq] at hne ⊢
      exact (h.flushed hne).1
    · omega
  index := by
    rw [flushAll_lsnIndex]
    simpa using h.index

/-- `flush(l)` either finds everything up to `l` in the file or writes the buffer. -/
theorem Faithful.flush (h : Faithful lm fl bf) (l : UInt64) :
    ∃ fl' bf', fl' ++ bf' = fl ++ bf ∧ Faithful (lm.flush l) fl' bf' ∧
      ∀ r ∈ bf', l.toNat < r.lsn.toNat := by
  unfold LogManager.flush
  split
  · rename_i hc
    refine ⟨fl, bf, rfl, h, fun r hr => ?_⟩
    have hle := UInt64.le_iff_toNat_le.mp hc.2
    have hlt := (h.flushed hc.1).2 r hr
    omega
  · exact ⟨fl ++ bf, [], by simp, h.flushAll, by simp⟩

theorem Faithful.readLog (h : Faithful lm fl bf) :
    ∃ lm', lm.readLog = some (lm', fl) ∧ Faithful lm' fl bf ∧ lm'.nextLsn = lm.nextLsn ∧
      lm'.flushedLsn = lm.flushedLsn := by
  have hw : ∀ r ∈ fl, Writable r := fun r hr => h.writable r (List.mem_append_left _ hr)
  have hlt : ∀ r ∈ fl, r.lsn.toNat < lm.nextLsn.toNat := fun r hr =>
    h.next r (List.mem_append_left _ hr)
  have hnext : (noteAll lm 0 fl).nextLsn = lm.nextLsn := by
    obtain ⟨hle, _, hcase⟩ := noteAll_nextLsn lm 0 fun r hr =>
      Nat.lt_of_le_of_lt (hlt r hr) lm.nextLsn.toNat_lt
    rcases hcase with heq | ⟨r, hr, heq⟩
    · exact heq
    · have := hlt r hr
      exact UInt64.toNat_inj.mp (by omega)
  refine ⟨noteAll lm 0 fl, readLog_logBytes hw h.file, ?_, hnext, noteAll_flushedLsn⟩
  exact {
    file := by rw [noteAll_file, h.file]
    buffer := by rw [noteAll_buffer, h.buffer]
    offset := by rw [noteAll_writeOffset, noteAll_file, h.offset]
    writable := h.writable
    increasing := h.increasing
    next := by rw [hnext]; exact h.next
    flushed := by rw [hnext, noteAll_flushedLsn]; exact h.flushed
    index := fun l off hl => by
      rcases noteAll_lsnIndex hl with hold | ⟨pre, r, post, hfl, hr, hoff⟩
      · exact h.index l off hold
      · exact ⟨pre, r, post ++ bf, by rw [hfl]; simp, hr, by omega⟩ }

/-- Two records of an increasing log with one LSN are the same. -/
theorem Increasing.eq_of_lsn (h : Increasing rs) {a b : LogRecord} (ha : a ∈ rs) (hb : b ∈ rs)
    (heq : a.lsn = b.lsn) : a = b := by
  induction rs with
  | nil => cases ha
  | cons r rs ih =>
    obtain ⟨hr, hrs⟩ := List.pairwise_cons.mp h
    rcases List.mem_cons.mp ha with har | ha <;> rcases List.mem_cons.mp hb with hbr | hb
    · rw [har, hbr]
    · have hlt := hr b hb
      rw [← har, heq] at hlt
      exact absurd hlt (Nat.lt_irrefl _)
    · have hlt := hr a ha
      rw [← hbr, heq] at hlt
      exact absurd hlt (Nat.lt_irrefl _)
    · exact ih hrs ha hb

/-- Through the index as through the full scan: the record with that LSN. -/
theorem Faithful.readRecordAtLsn (h : Faithful lm fl bf) (l : UInt64) :
    ∃ lm' found, lm.readRecordAtLsn l = some (lm', found) ∧ Faithful lm' (fl ++ bf) [] ∧
      lm'.nextLsn = lm.nextLsn ∧ lm'.flushedLsn = lm.flushAll.flushedLsn ∧
      (∀ r ∈ fl ++ bf, r.lsn = l → found = r) ∧ ((∀ r ∈ fl ++ bf, r.lsn ≠ l) → found = {}) := by
  have hflush : Faithful lm.flushAll (fl ++ bf) [] := h.flushAll
  have hnext : lm.flushAll.nextLsn = lm.nextLsn := flushAll_nextLsn
  simp only [LogManager.readRecordAtLsn]
  cases hi : lm.flushAll.lsnIndex l with
  | some off =>
    obtain ⟨pre, r, post, hrs, hr, hoff⟩ := hflush.index l off hi
    rw [List.append_nil] at hrs
    have hmem : r ∈ fl ++ bf := by rw [hrs]; simp
    have hframe : readFrame (lm.flushAll.file.drop off) = some (.record r r.totalSize) := by
      rw [hflush.file, hrs, logBytes_append, hoff, List.drop_left, logBytes_cons]
      exact readFrame_layout (h.writable r hmem) _
    simp only [hframe]
    refine ⟨lm.flushAll, r, rfl, hflush, hnext, rfl, fun x hx hxl => ?_, fun hnone => ?_⟩
    · exact h.increasing.eq_of_lsn hmem hx (hr.trans hxl.symm)
    · exact absurd hr (hnone r hmem)
  | none =>
    obtain ⟨lm', hread, hf, hn, hfl⟩ := hflush.readLog
    simp only [hread, Option.map_some]
    refine ⟨lm', _, rfl, hf, hn.trans hnext, hfl, fun x hx hxl => ?_, fun hnone => ?_⟩
    · cases hfind : (fl ++ bf).find? (·.lsn == l) with
      | none =>
        have := List.find?_eq_none.mp hfind x hx
        exact absurd hxl (by simpa using this)
      | some y =>
        have hy : y.lsn = l := by simpa using List.find?_some hfind
        exact h.increasing.eq_of_lsn (List.mem_of_find?_eq_some hfind) hx (hy.trans hxl.symm)
    · have hfind : (fl ++ bf).find? (·.lsn == l) = none :=
        List.find?_eq_none.mpr fun x hx => by simpa using hnone x hx
      rw [hfind]
      rfl

theorem Faithful.append (h : Faithful lm fl bf) {c : LogRecord.New} {lsn : UInt64}
    (hroom : lm.nextLsn.toNat + 1 < 2 ^ 64) (ha : lm.append c.build = some (lm', lsn)) :
    Faithful lm' fl (bf ++ [c.build.setLsn lsn]) ∧ lm'.nextLsn.toNat = lm.nextLsn.toNat + 1 ∧
      lm'.flushedLsn = lm.flushedLsn := by
  simp only [LogManager.append, Option.bind_eq_bind, Option.bind_eq_some_iff] at ha
  obtain ⟨bytes, hs, heq⟩ := ha
  obtain ⟨rfl, rfl⟩ := Prod.mk.inj (Option.some.inj heq)
  unfold LogRecord.serialize at hs
  split at hs
  · rename_i hsize
    obtain rfl := Option.some.inj hs
    have hsucc : (lm.nextLsn + 1).toNat = lm.nextLsn.toNat + 1 := by
      rw [UInt64.toNat_add]
      exact Nat.mod_eq_of_lt hroom
    refine ⟨?_, hsucc, rfl⟩
    constructor
    · exact h.file
    · simp [h.buffer]
    · exact h.offset
    · intro r hr
      rw [← List.append_assoc] at hr
      rcases List.mem_append.mp hr with hr | hr
      · exact h.writable r hr
      · rw [List.mem_singleton.mp hr]
        exact ⟨c.canonical _, hsize⟩
    · rw [← List.append_assoc]
      refine List.pairwise_append.mpr ⟨h.increasing, List.pairwise_singleton _ _, ?_⟩
      intro a ha b hb
      rw [List.mem_singleton.mp hb]
      exact h.next a ha
    · intro r hr
      rw [← List.append_assoc] at hr
      simp only [hsucc]
      rcases List.mem_append.mp hr with hr | hr
      · have := h.next r hr
        omega
      · rw [List.mem_singleton.mp hr]
        exact Nat.lt_succ_self _
    · intro hne
      obtain ⟨hlt, hall⟩ := h.flushed hne
      simp only [hsucc]
      refine ⟨by omega, fun r hr => ?_⟩
      rcases List.mem_append.mp hr with hr | hr
      · exact hall r hr
      · rw [List.mem_singleton.mp hr]
        exact hlt
    · intro l off hl
      simp only [Function.update_apply] at hl
      split at hl
      · rename_i hl'
        obtain rfl := Option.some.inj hl
        refine ⟨fl ++ bf, c.build.setLsn lm.nextLsn, [], by simp, hl'.symm, ?_⟩
        rw [logBytes_append, ← h.file, ← h.buffer, List.length_append, h.offset]
      · obtain ⟨pre, r, post, hrs, hr, hoff⟩ := h.index l off hl
        exact ⟨pre, r, post ++ [c.build.setLsn lm.nextLsn],
          by rw [← List.append_assoc, hrs]; simp, hr, hoff⟩
  · cases hs

theorem Faithful.flushAll_mono (h : Faithful lm fl bf)
    (hne : lm.flushedLsn ≠ UInt64.ofNat invalidU64) :
    lm.flushAll.flushedLsn ≠ UInt64.ofNat invalidU64 ∧ lm.flushedLsn ≤ lm.flushAll.flushedLsn := by
  rcases h.flushAll_flushedLsn with ⟨_, heq⟩ | heq
  · rw [heq]
    exact ⟨hne, UInt64.le_refl _⟩
  · have hlt := (h.flushed hne).1
    have htop : lm.nextLsn.toNat < 2 ^ 64 := lm.nextLsn.toNat_lt
    refine ⟨fun hinv => ?_, UInt64.le_iff_toNat_le.mpr (by omega)⟩
    have hnat : (UInt64.ofNat invalidU64).toNat = 2 ^ 64 - 1 := rfl
    rw [hinv, hnat] at heq
    omega

/-- One operation keeps the invariant and counts what it appends. -/
theorem Faithful.step (h : Faithful lm fl bf) {op : Op} (hop : op ≠ .reopen)
    (hs : lm.step op = some (lm', news)) (hroom : lm.nextLsn.toNat + news.length < 2 ^ 64) :
    (∃ fl' bf', fl' ++ bf' = fl ++ bf ++ news ∧ Faithful lm' fl' bf') ∧
      lm'.nextLsn.toNat = lm.nextLsn.toNat + news.length := by
  cases op with
  | append c =>
    obtain ⟨⟨lm1, lsn⟩, h1, h2⟩ := Option.map_eq_some_iff.mp hs
    obtain ⟨rfl, rfl⟩ := Prod.mk.inj h2
    obtain ⟨hf, hn, _⟩ := h.append hroom h1
    exact ⟨⟨fl, bf ++ [c.build.setLsn lsn], by simp, hf⟩, hn⟩
  | flush l =>
    cases hs
    obtain ⟨fl', bf', heq, hf, _⟩ := h.flush l
    refine ⟨⟨fl', bf', by simpa using heq, hf⟩, ?_⟩
    unfold LogManager.flush
    split
    · rfl
    · rw [flushAll_nextLsn]
      rfl
  | flushAll =>
    cases hs
    refine ⟨⟨fl ++ bf, [], by simp, h.flushAll⟩, ?_⟩
    rw [flushAll_nextLsn]
    rfl
  | readLog =>
    obtain ⟨lm1, hread, hf, hn, _⟩ := h.readLog
    simp only [LogManager.step, hread, Option.map_some, Option.some.injEq, Prod.mk.injEq] at hs
    obtain ⟨rfl, rfl⟩ := hs
    exact ⟨⟨fl, bf, by simp, hf⟩, by rw [hn]; rfl⟩
  | readRecordAtLsn l =>
    obtain ⟨lm1, found, hread, hf, hn, _⟩ := h.readRecordAtLsn l
    simp only [LogManager.step, hread, Option.map_some, Option.some.injEq, Prod.mk.injEq] at hs
    obtain ⟨rfl, rfl⟩ := hs
    exact ⟨⟨fl ++ bf, [], by simp, hf⟩, by rw [hn]; rfl⟩
  | reopen => exact absurd rfl hop

/-- No operation lowers `flushed_lsn_`. -/
theorem Faithful.step_flushedLsn (h : Faithful lm fl bf) {op : Op} (hop : op ≠ .reopen)
    (hs : lm.step op = some (lm', news)) (hne : lm.flushedLsn ≠ UInt64.ofNat invalidU64) :
    lm'.flushedLsn ≠ UInt64.ofNat invalidU64 ∧ lm.flushedLsn ≤ lm'.flushedLsn := by
  have hsame : lm.flushedLsn ≠ UInt64.ofNat invalidU64 ∧ lm.flushedLsn ≤ lm.flushedLsn :=
    ⟨hne, UInt64.le_refl _⟩
  cases op with
  | append c =>
    simp only [LogManager.step, LogManager.append, Option.bind_eq_bind] at hs
    cases hb : (c.build.setLsn lm.nextLsn).serialize with
    | none =>
      rw [hb] at hs
      cases hs
    | some bytes =>
      rw [hb] at hs
      cases hs
      exact hsame
  | flush l =>
    cases hs
    unfold LogManager.flush
    split
    · exact hsame
    · exact h.flushAll_mono hne
  | flushAll =>
    cases hs
    exact h.flushAll_mono hne
  | readLog =>
    obtain ⟨lm1, hread, _, _, hfl⟩ := h.readLog
    simp only [LogManager.step, hread, Option.map_some, Option.some.injEq, Prod.mk.injEq] at hs
    obtain ⟨rfl, rfl⟩ := hs
    rw [hfl]
    exact hsame
  | readRecordAtLsn l =>
    obtain ⟨lm1, found, hread, _, _, hfl, _⟩ := h.readRecordAtLsn l
    simp only [LogManager.step, hread, Option.map_some, Option.some.injEq, Prod.mk.injEq] at hs
    obtain ⟨rfl, rfl⟩ := hs
    rw [hfl]
    exact h.flushAll_mono hne
  | reopen => exact absurd rfl hop

theorem Faithful.step_isSome (h : Faithful lm fl bf) {op : Op}
    (hc : ∀ c, op = .append c → c.build.totalSize < 2 ^ 32) : (lm.step op).isSome := by
  cases op with
  | append c =>
    have hsize : (c.build.setLsn lm.nextLsn).totalSize < 2 ^ 32 := hc c rfl
    simp only [LogManager.step, LogManager.append, LogRecord.serialize, if_pos hsize]
    rfl
  | flush l => rfl
  | flushAll => rfl
  | readLog =>
    obtain ⟨lm1, hread, _⟩ := h.readLog
    simp [LogManager.step, hread]
  | readRecordAtLsn l =>
    obtain ⟨lm1, found, hread, _⟩ := h.readRecordAtLsn l
    simp [LogManager.step, hread]
  | reopen => rfl

theorem Faithful.run (h : Faithful lm fl bf) {ops : List Op} (hops : Op.reopen ∉ ops)
    (hr : lm.run ops = some (lm', news)) (hroom : lm.nextLsn.toNat + news.length < 2 ^ 64) :
    (∃ fl' bf', fl' ++ bf' = fl ++ bf ++ news ∧ Faithful lm' fl' bf') ∧
      lm'.nextLsn.toNat = lm.nextLsn.toNat + news.length := by
  induction ops generalizing lm fl bf news with
  | nil =>
    cases hr
    exact ⟨⟨fl, bf, by simp, h⟩, rfl⟩
  | cons op ops ih =>
    simp only [LogManager.run, Option.bind_eq_bind, Option.bind_eq_some_iff] at hr
    obtain ⟨⟨lm1, rs1⟩, h1, ⟨lm2, rs2⟩, h2, h3⟩ := hr
    obtain ⟨rfl, rfl⟩ := Prod.mk.inj (Option.some.inj h3)
    have hlen : (rs1 ++ rs2).length = rs1.length + rs2.length := List.length_append
    have hroom : lm.nextLsn.toNat + (rs1 ++ rs2).length < 2 ^ 64 := hroom
    have hop : op ≠ .reopen := fun heq => hops (heq ▸ List.mem_cons_self)
    obtain ⟨⟨fl1, bf1, heq1, hf1⟩, hn1⟩ := h.step hop h1 (by omega)
    obtain ⟨⟨fl2, bf2, heq2, hf2⟩, hn2⟩ := ih hf1 (fun hm => hops (List.mem_cons_of_mem _ hm)) h2
      (by omega)
    refine ⟨⟨fl2, bf2, ?_, hf2⟩, ?_⟩
    · rw [heq2, heq1, List.append_assoc]
    · show lm2.nextLsn.toNat = lm.nextLsn.toNat + (rs1 ++ rs2).length
      rw [hlen]
      exact hn2.trans (by rw [hn1, Nat.add_assoc])

-- ---------------------------------------------------------------------------
-- Every file, every sequence of operations
-- ---------------------------------------------------------------------------

/-- What the invariant gives to the users of the log. -/
theorem Faithful.isLogOf (h : Faithful lm fl bf) : IsLogOf lm (fl ++ bf) where
  increasing := h.increasing.imp fun hlt => UInt64.lt_iff_toNat_lt.mpr hlt
  bytes := by rw [logBytes_append, h.file, h.buffer]
  flush l := by
    obtain ⟨fl', bf', heq, hf, hbf⟩ := h.flush l
    refine ⟨fl'.length, ?_, fun r hr hl => ?_⟩
    · rw [← heq, List.take_left, hf.file]
    · rw [← heq] at hr ⊢
      rw [List.take_left]
      rcases List.mem_append.mp hr with hr | hr
      · exact hr
      · have := hbf r hr
        have := UInt64.le_iff_toNat_le.mp hl
        omega
  read := by
    obtain ⟨lm', hread, _⟩ := h.readLog
    exact ⟨fl.length, lm', by rw [List.take_left, h.file], by rw [List.take_left, hread]⟩
  lookup l := by
    obtain ⟨lm', found, hread, _, _, _, hfound, hnone⟩ := h.readRecordAtLsn l
    refine ⟨lm', found, hread, hfound, fun hinv r hr hrl => ?_, hnone⟩
    -- a record of the log does not have the INVALID record's LSN
    have hlt := h.next r hr
    have htop : lm.nextLsn.toNat < 2 ^ 64 := lm.nextLsn.toNat_lt
    have hlsn : r.lsn.toNat = 2 ^ 64 - 1 := by
      rw [← hfound r hr hrl, hinv]
      rfl
    omega
  flushedLsn _ _ _ hop hs hne := h.step_flushedLsn hop hs hne
  defined _ hc := h.step_isSome hc

/-- **The log is a faithful sequence.** Open a log manager on a file of whole
records with increasing LSNs, read it, and go on with any operations: as long
as the LSN counter stays below `INVALID_LSN`, file and buffer are the log of the
records that were there and those that were appended. -/
theorem isLogOf_run (hw : ∀ r ∈ rs, Writable r) (hinc : Increasing rs)
    (hfree : firstFree rs < 2 ^ 64) :
    ∃ lm, (new (logBytes rs)).readLog = some (lm, rs) ∧
      ∀ ops lm' news, Op.reopen ∉ ops → lm.run ops = some (lm', news) →
        firstFree rs + news.length < 2 ^ 64 → IsLogOf lm' (rs ++ news) := by
  obtain ⟨lm, hread, hf, hn⟩ := Faithful.open hw hinc hfree
  refine ⟨lm, hread, fun ops lm' news hops hr hroom => ?_⟩
  rw [← hn] at hroom
  obtain ⟨⟨fl, bf, heq, hf'⟩, _⟩ := hf.run hops hr hroom
  rw [List.append_nil] at heq
  rw [← heq]
  exact hf'.isLogOf

/-- A BEGIN and a COMMIT, as an earlier session left them in the file. -/
def beginCommit : List LogRecord :=
  [(LogRecord.simple 0 0 .begin).setLsn 4, (LogRecord.simple 0 4 .commit).setLsn 7]

/-- An UPDATE appended behind a BEGIN and a COMMIT. -/
theorem update_behind_commit_isLogOf :
    ∃ lm lm' news, (new (logBytes beginCommit)).readLog = some (lm, beginCommit) ∧
      lm.run [.append (.update 1 7 0 0 [] [9]), .flush 8] = some (lm', news) ∧
      IsLogOf lm' (beginCommit ++ news) := by
  have hw : ∀ r ∈ beginCommit, Writable r := by
    intro r hr
    simp only [beginCommit, List.mem_cons, List.not_mem_nil, or_false] at hr
    rcases hr with rfl | rfl
    · exact ⟨(LogRecord.New.begin 0 0).canonical 4, by decide⟩
    · exact ⟨(LogRecord.New.commit 0 4).canonical 7, by decide⟩
  obtain ⟨lm, hread, hall⟩ := isLogOf_run hw (by decide) (by decide)
  have hopen := hread.symm.trans (readLog_logBytes hw rfl)
  obtain rfl := (Prod.mk.inj (Option.some.inj hopen)).1
  have hrun : (noteAll (new (logBytes beginCommit)) 0 beginCommit).run
      [.append (.update 1 7 0 0 [] [9]), .flush 8] = some (_, _) := rfl
  exact ⟨_, _, _, hread, hrun, hall _ _ _ (by simp) hrun (by decide)⟩

/-- A BEGIN with the last but one LSN. -/
def beginAtTop : List LogRecord :=
  [(LogRecord.simple 0 0 .begin).setLsn (UInt64.ofNat (2 ^ 64 - 2))]

/-- The second record appended behind LSN `2^64 - 2` gets LSN 0. -/
theorem lsn_counter_wraps :
    ∃ lm lm' news, (new (logBytes beginAtTop)).readLog = some (lm, beginAtTop) ∧
      lm.run [.append (.commit 0 0), .append (.commit 0 0)] = some (lm', news) ∧
      news.map (·.lsn.toNat) = [2 ^ 64 - 1, 0] ∧ ¬ IsLogOf lm' (beginAtTop ++ news) := by
  have hw : ∀ r ∈ beginAtTop, Writable r := by
    intro r hr
    rw [List.mem_singleton.mp hr]
    exact ⟨(LogRecord.New.begin 0 0).canonical _, by decide⟩
  have hrun : (noteAll (new (logBytes beginAtTop)) 0 beginAtTop).run
      [.append (.commit 0 0), .append (.commit 0 0)] = some (_, _) := rfl
  refine ⟨_, _, _, readLog_logBytes hw rfl, hrun, rfl, fun h => ?_⟩
  exact absurd h.increasing (by decide)

end LogManager

end PersistX.Log
