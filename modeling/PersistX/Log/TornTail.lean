import PersistX.Log.LogManager

/-!
# PersistX — a log cut short, reopened and continued

A crash can leave the log file cut at any byte. `read_log` stops at the record
that is cut, so the first reading is right wherever the cut is
(`readLog_take`). But the constructor puts the write position at the end of the
file and nobody removes the torn bytes: what is appended next lands behind
them, and the next reading takes the first new bytes for the rest of the torn
record.

`ReadsBack` says that whatever is appended after the reopening is read back
behind the complete records. It holds if and only if the cut is between two
records (`readsBack_iff_cutBetween`).
-/

namespace PersistX.Log

open Bytes

namespace LogManager

/-- The records of `rs` that are complete in the first `n` bytes of their log. -/
def completeRecords : List LogRecord → Nat → List LogRecord
  | [], _ => []
  | r :: rs, n => if r.totalSize ≤ n then r :: completeRecords rs (n - r.totalSize) else []

/-- The cut after `n` bytes is between two records (or at an end of the log). -/
def CutBetween (rs : List LogRecord) (n : Nat) : Prop := ∃ k, n = (logBytes (rs.take k)).length

/-- Open the file, read it, and go on with any operations: every later reading
gives `complete` and behind it what the operations appended. -/
def ReadsBack (file : Bytes) (complete : List LogRecord) : Prop :=
  ∃ lm first, (new file).readLog = some (lm, first) ∧
    ∀ ops lm' news, lm.run ops = some (lm', news) →
      ∀ m : LogManager, m.file = lm'.flushAll.file → ∃ m', m.readLog = some (m', complete ++ news)

variable {rs : List LogRecord} {n : Nat}

-- ---------------------------------------------------------------------------
-- Where the cut is
-- ---------------------------------------------------------------------------

theorem completeRecords_take (k : Nat) :
    completeRecords rs (logBytes (rs.take k)).length = rs.take k := by
  induction rs generalizing k with
  | nil => simp [completeRecords]
  | cons r rs ih =>
    cases k with
    | zero =>
      have := r.le_totalSize
      rw [List.take_zero, logBytes_nil, completeRecords, if_neg]
      rw [List.length_nil]
      omega
    | succ k =>
      rw [List.take_succ_cons, logBytes_cons, List.length_append, r.length_layout, completeRecords,
        if_pos (Nat.le_add_right _ _), Nat.add_sub_cancel_left, ih]

theorem take_logBytes (k : Nat) :
    (logBytes rs).take (logBytes (rs.take k)).length = logBytes (rs.take k) := by
  have hsplit : logBytes rs = logBytes (rs.take k) ++ logBytes (rs.drop k) := by
    rw [← logBytes_append, List.take_append_drop]
  rw [hsplit, List.take_left]

/-- Behind the complete records a cut leaves nothing, or a part of the next record. -/
theorem cut_cases (hn : n ≤ (logBytes rs).length) :
    ∃ k tail, completeRecords rs n = rs.take k ∧ (logBytes rs).take n = logBytes (rs.take k) ++ tail ∧
      (tail = [] ∨ ∃ r ∈ rs, ∃ j, 0 < j ∧ j < r.totalSize ∧ tail = r.layout.take j) := by
  induction rs generalizing n with
  | nil => exact ⟨0, [], rfl, List.take_nil, .inl rfl⟩
  | cons r rs ih =>
    rw [logBytes_cons, List.length_append, r.length_layout] at hn
    by_cases hr : r.totalSize ≤ n
    · obtain ⟨k, tail, hk, htake, htail⟩ := ih (n := n - r.totalSize) (by omega)
      refine ⟨k + 1, tail, by rw [completeRecords, if_pos hr, hk, List.take_succ_cons], ?_, ?_⟩
      · rw [logBytes_cons, List.take_append, List.take_of_length_le (by rwa [r.length_layout]),
          r.length_layout, htake, List.take_succ_cons, logBytes_cons, List.append_assoc]
      · rcases htail with h0 | ⟨x, hx, j, hj⟩
        · exact .inl h0
        · exact .inr ⟨x, List.mem_cons_of_mem _ hx, j, hj⟩
    · refine ⟨0, r.layout.take n, by rw [completeRecords, if_neg hr, List.take_zero], ?_, ?_⟩
      · rw [List.take_zero, logBytes_nil, List.nil_append, logBytes_cons,
          List.take_append_of_le_length (by rw [r.length_layout]; omega)]
      · by_cases h0 : n = 0
        · exact .inl (by rw [h0, List.take_zero])
        · exact .inr ⟨r, List.mem_cons_self, n, by omega, by omega, rfl⟩

/-- The first reading after the cut gives the complete records, wherever the cut is. -/
theorem readLog_take (h : ∀ r ∈ rs, Writable r) (hn : n ≤ (logBytes rs).length) :
    ∃ lm, (new ((logBytes rs).take n)).readLog = some (lm, completeRecords rs n) := by
  obtain ⟨k, tail, hk, htake, htail⟩ := cut_cases hn
  have hstop : readFrame tail = some .stop := by
    rcases htail with rfl | ⟨r, hr, j, _, hj, rfl⟩
    · rfl
    · exact readFrame_torn (h r hr) hj
  rw [hk]
  exact readLog_of_logBytes (fun r hr => h r (List.mem_of_mem_take hr)) hstop htake

-- ---------------------------------------------------------------------------
-- A cut between two records
-- ---------------------------------------------------------------------------

/-- Behind whole records everything that is appended is read back. -/
theorem readsBack_logBytes (h : ∀ r ∈ rs, Writable r) : ReadsBack (logBytes rs) rs := by
  have hstop : readFrame [] = some .stop := rfl
  have hfile : (new (logBytes rs)).file = logBytes rs ++ [] := (List.append_nil _).symm
  obtain ⟨lm, hread⟩ := readLog_of_logBytes h hstop hfile
  refine ⟨lm, rs, hread, fun ops lm' news hrun m hm => ?_⟩
  have hrep : Represents lm rs := (Represents.new h).of_sameStore (readLog_sameStore hread)
  have hrep' : Represents lm' (rs ++ news) := hrep.run hrun
  have hfile' : m.file = logBytes (rs ++ news) ++ [] := by
    rw [hm, hrep'.flushAll_file, List.append_nil]
  exact readLog_of_logBytes hrep'.writable hstop hfile'

-- ---------------------------------------------------------------------------
-- A cut inside a record
-- ---------------------------------------------------------------------------

/-- Byte 28 of the file decides the type of the first record that is read. -/
theorem type_of_readFrame {rest : Bytes} {r : LogRecord} {size : Nat}
    (h : readFrame rest = some (.record r size)) :
    ∃ tb, rest[28]? = some tb ∧ r.type = .ofByte tb := by
  unfold readFrame at h
  split at h
  · cases h
  · simp only at h
    split at h
    · cases h
    · split at h
      · cases h
      · obtain ⟨r', hd, heq⟩ := Option.map_eq_some_iff.mp h
        cases heq
        obtain ⟨tb, hb, ht⟩ := LogRecord.type_of_deserialize hd
        refine ⟨tb, ?_, ht⟩
        rw [List.getElem?_take] at hb
        split at hb
        · exact hb
        · cases hb

/-- The bytes of a record without images up to its type byte. -/
theorem layout_simple (t p l : UInt64) (type : LogRecordType) (himg : type.hasImages = false) :
    ((LogRecord.simple t p type).setLsn l).layout
      = u32.enc 29 ++ (u64.enc l ++ (u64.enc t ++ u64.enc p)) ++ [type.toByte] := by
  have hu : type ≠ .update := by
    rintro rfl
    cases himg
  have hc : type ≠ .clr := by
    rintro rfl
    cases himg
  simp [LogRecord.layout, LogRecord.simple, LogRecord.setLsn, LogRecord.totalSize,
    LogRecord.headerBytes, LogRecord.imagesBytes, LogRecord.indexKeyBytes, LogRecord.undoNextBytes,
    himg, hu, hc, u8]

/-- A record without images can always be appended; flushed, its bytes are at
the write position. -/
theorem run_append_simple {lm : LogManager} (hb : lm.buffer = [])
    (ho : lm.writeOffset = lm.file.length) {c : LogRecord.New}
    (hc : c.build.type.hasImages = false) :
    ∃ lm', lm.run [.append c] = some (lm', [c.build.setLsn lm.nextLsn]) ∧
      lm'.flushAll.file = lm.file ++ (c.build.setLsn lm.nextLsn).layout := by
  have hsize : (c.build.setLsn lm.nextLsn).totalSize < 2 ^ 32 := by
    unfold LogRecord.totalSize
    rw [if_neg (by simp [LogRecord.setLsn, hc])]
    split <;> split <;> omega
  have happ : lm.append c.build = some ({ lm with
      nextLsn := lm.nextLsn + 1
      lsnIndex := Function.update lm.lsnIndex lm.nextLsn (some (lm.writeOffset + lm.buffer.length))
      buffer := lm.buffer ++ (c.build.setLsn lm.nextLsn).layout }, lm.nextLsn) := by
    simp only [append, LogRecord.serialize, if_pos hsize]
    rfl
  refine ⟨_, by simp only [run, step, happ]; rfl, ?_⟩
  have hne : lm.buffer ++ (c.build.setLsn lm.nextLsn).layout ≠ [] := by
    intro h0
    have hlen := congrArg List.length h0
    have := (c.build.setLsn lm.nextLsn).le_totalSize
    rw [List.length_append, LogRecord.length_layout, List.length_nil] at hlen
    omega
  rw [flushAll, if_neg hne, hb]
  simp only [ho, List.nil_append, overwrite_length]

/-- The type of a record that is read back behind torn bytes was decided before
it was appended: it is in the torn bytes, or in the part of the new record that
every record of its size shares. -/
theorem type_of_read_behind {tail : Bytes} (htail : tail ≠ []) {t p l : UInt64}
    {type : LogRecordType} (himg : type.hasImages = false) {fuel : Nat}
    (h : scan fuel (tail ++ ((LogRecord.simple t p type).setLsn l).layout)
      = some [(LogRecord.simple t p type).setLsn l]) :
    ∃ tb, (tail ++ (u32.enc 29 ++ (u64.enc l ++ (u64.enc t ++ u64.enc p))))[28]? = some tb ∧
      type = .ofByte tb := by
  cases fuel with
  | zero => cases h
  | succ fuel =>
    unfold scan at h
    split at h
    · cases h
    · cases h
    · rename_i r size hframe
      obtain ⟨rs, _, hcons⟩ := Option.map_eq_some_iff.mp h
      obtain ⟨rfl, -⟩ := List.cons.inj hcons
      obtain ⟨tb, hb, ht⟩ := type_of_readFrame hframe
      refine ⟨tb, ?_, ht⟩
      have hpos : 0 < tail.length := List.length_pos_iff.mpr htail
      rw [layout_simple t p l type himg, ← List.append_assoc,
        List.getElem?_append_left (by simp; omega)] at hb
      exact hb

/-- Behind a record that is cut short a new BEGIN or a new COMMIT is lost. -/
theorem not_readsBack_of_torn (h : ∀ r ∈ rs, Writable r) {tail : Bytes} (htail : tail ≠ []) :
    ¬ ReadsBack (logBytes rs ++ tail) rs := by
  rintro ⟨lm, first, hread, hback⟩
  obtain ⟨hfile, hbuf, hoff⟩ := readLog_sameStore hread
  have hfile : lm.file = logBytes rs ++ tail := hfile
  have hlost : ∀ c : LogRecord.New, c.build.type.hasImages = false →
      ∃ fuel, scan fuel (tail ++ (c.build.setLsn lm.nextLsn).layout)
        = some [c.build.setLsn lm.nextLsn] := by
    intro c hc
    obtain ⟨lm', hrun, hflush⟩ := run_append_simple hbuf (by rw [hoff, hfile]; rfl) hc
    obtain ⟨m', hm'⟩ := hback _ _ _ hrun lm'.flushAll rfl
    have hscan := readLog_records lm'.flushAll
    rw [hm', hflush, hfile, List.append_assoc, List.length_append] at hscan
    have hlen := length_le_logBytes rs
    obtain ⟨fuel, hfuel⟩ : ∃ fuel, (logBytes rs).length
        + (tail ++ (c.build.setLsn lm.nextLsn).layout).length + 1 = rs.length + fuel :=
      ⟨_, (Nat.add_sub_cancel' (by omega)).symm⟩
    rw [hfuel, scan_logBytes h] at hscan
    obtain ⟨found, hfound, heq⟩ := Option.map_eq_some_iff.mp hscan.symm
    exact ⟨fuel, by rw [hfound, List.append_cancel_left heq]⟩
  obtain ⟨fuel, hbegin⟩ := hlost (.begin 0 0) rfl
  obtain ⟨fuel', hcommit⟩ := hlost (.commit 0 0) rfl
  obtain ⟨tb, htb, h1⟩ := type_of_read_behind htail rfl hbegin
  obtain ⟨tb', htb', h2⟩ := type_of_read_behind htail rfl hcommit
  obtain rfl : tb = tb' := Option.some.inj (htb.symm.trans htb')
  cases h1.trans h2.symm

-- ---------------------------------------------------------------------------
-- Every log, every cut
-- ---------------------------------------------------------------------------

/-- **Torn log tail.** Take the log that any sequence of operations on a new log
file has written, and cut it after any number of bytes. Whatever is appended
after reopening the rest is read back, behind the complete records, exactly if
the cut is between two records. -/
theorem readsBack_iff_cutBetween {ops : List Op} {lm : LogManager}
    (hrun : (new []).run ops = some (lm, rs)) (hn : n ≤ lm.flushAll.file.length) :
    ReadsBack (lm.flushAll.file.take n) (completeRecords rs n) ↔ CutBetween rs n := by
  have hempty : Represents (new []) [] := ⟨rfl, rfl, by simp⟩
  have hrep : Represents lm rs := hempty.run hrun
  rw [hrep.flushAll_file] at hn ⊢
  constructor
  · intro hback
    obtain ⟨k, tail, hk, htake, htail⟩ := cut_cases hn
    have hw : ∀ r ∈ rs.take k, Writable r := fun r hr => hrep.writable r (List.mem_of_mem_take hr)
    rcases htail with rfl | ⟨r, _, j, hj0, hj, rfl⟩
    · refine ⟨k, ?_⟩
      have hlen := congrArg List.length htake
      rwa [List.length_take, Nat.min_eq_left hn, List.append_nil] at hlen
    · rw [hk, htake] at hback
      have hne : r.layout.take j ≠ [] := by
        intro h0
        have hlen := congrArg List.length h0
        rw [List.length_take, r.length_layout, List.length_nil] at hlen
        omega
      exact absurd hback (not_readsBack_of_torn hw hne)
  · rintro ⟨k, rfl⟩
    rw [take_logBytes, completeRecords_take]
    exact readsBack_logBytes fun r hr => hrep.writable r (List.mem_of_mem_take hr)

/-- A BEGIN and a COMMIT, cut between them. -/
theorem cut_behind_begin_reads_back :
    ∃ lm rs, (new []).run [.append (.begin 0 0), .append (.commit 0 0)] = some (lm, rs) ∧
      29 ≤ lm.flushAll.file.length ∧ CutBetween rs 29 ∧
      ReadsBack (lm.flushAll.file.take 29) (completeRecords rs 29) := by
  have hrun : (new []).run [.append (.begin 0 0), .append (.commit 0 0)] = some (_, _) := rfl
  exact ⟨_, _, hrun, by decide, ⟨1, by decide⟩,
    (readsBack_iff_cutBetween hrun (by decide)).mpr ⟨1, by decide⟩⟩

/-- A BEGIN cut after ten of its 29 bytes. -/
theorem cut_inside_begin_not_read_back :
    ∃ lm rs, (new []).run [.append (.begin 0 0)] = some (lm, rs) ∧
      10 ≤ lm.flushAll.file.length ∧
      ¬ ReadsBack (lm.flushAll.file.take 10) (completeRecords rs 10) := by
  refine ⟨_, _, rfl, by decide, ?_⟩
  have hw : ∀ r ∈ ([] : List LogRecord), Writable r := by simp
  change ¬ ReadsBack (logBytes [] ++ [29, 0, 0, 0, 0, 0, 0, 0, 0, 0]) []
  exact not_readsBack_of_torn hw (by decide)

end LogManager

end PersistX.Log
