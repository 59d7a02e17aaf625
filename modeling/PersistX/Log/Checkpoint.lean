import PersistX.Log.LogManager
import PersistX.Lib.Counted

/-!
# PersistX — a checkpoint record and the analysis that reads it

`checkpoint` of `checkpoint_manager.cpp` and `analyze` of
`recovery_manager.cpp` over the log of bytes. The two snapshots are lists of
entries, as the managers hand them out; `att_` and `dpt_` are maps.

`serialize_att` and `serialize_dpt` compute the size of their buffer in 32
bits: `none` where it does not fit. `deserialize_att` and `deserialize_dpt`
give `none` where they would read past the end of the payload.

Main result: `analyze_checkpoint` — what `checkpoint` snapshots is what
`analyze` finds in a log that ends with the checkpoint.
-/

namespace PersistX.Log

open Bytes

-- ---------------------------------------------------------------------------
-- The snapshots
-- ---------------------------------------------------------------------------

/-- A snapshot in a buffer whose size is computed in 32 bits. -/
def serializeEntries {α : Type} (c : Codec α) (entries : List α) : Option Bytes :=
  if 4 + entries.length * c.width < 2 ^ 32 then some (c.encCounted entries) else none

def deserializeEntries {α : Type} (c : Codec α) (data : Bytes) : Option (List α) :=
  if data = [] then some [] else (c.readCounted data).map (·.1)

/-- `serialize_att`: transaction and LSN, 16 bytes an entry. -/
def serializeAtt : List (UInt64 × UInt64) → Option Bytes := serializeEntries (u64.pair u64)

/-- `serialize_dpt`: page and LSN, 12 bytes an entry. -/
def serializeDpt : List (UInt32 × UInt64) → Option Bytes := serializeEntries (u32.pair u64)

/-- `deserialize_att`. -/
def deserializeAtt : Bytes → Option (List (UInt64 × UInt64)) := deserializeEntries (u64.pair u64)

/-- `deserialize_dpt`. -/
def deserializeDpt : Bytes → Option (List (UInt32 × UInt64)) := deserializeEntries (u32.pair u64)

/-- What one side writes the other reads, for entries of one width. -/
theorem deserializeEntries_encCounted {α : Type} {c : Codec α} {entries : List α}
    (h : entries.length < 2 ^ 32) : deserializeEntries c (c.encCounted entries) = some entries := by
  have hne : c.encCounted entries ≠ [] := by
    intro hnil
    have hlen := c.length_encCounted entries
    rw [hnil, List.length_nil] at hlen
    omega
  have hread := c.readCounted_encCounted h []
  rw [List.append_nil] at hread
  rw [deserializeEntries, if_neg hne, hread, Option.map_some]

-- ---------------------------------------------------------------------------
-- checkpoint
-- ---------------------------------------------------------------------------

namespace LogManager

/-- `checkpoint`. `pageLsns` are the LSNs up to which `flush_all_pages` flushes the log before
it writes its pages. -/
def checkpoint (lm : LogManager) (att : List (UInt64 × UInt64)) (dpt : List (UInt32 × UInt64))
    (pageLsns : List UInt64) : Option LogManager := do
  let begin := LogRecord.New.checkpointBegin (UInt64.ofNat invalidU64) (UInt64.ofNat invalidU64)
  let (lm, _) ← lm.append begin.build
  let attBytes ← serializeAtt att
  let dptBytes ← serializeDpt dpt
  let (lm, endLsn) ← lm.append (LogRecord.New.checkpointEnd attBytes dptBytes).build
  return (pageLsns.foldl flush lm).flush endLsn

end LogManager

-- ---------------------------------------------------------------------------
-- analyze
-- ---------------------------------------------------------------------------

/-- `att_` and `dpt_`. -/
structure Tables where
  att : UInt64 → Option UInt64 := fun _ => none
  dpt : UInt32 → Option UInt64 := fun _ => none

/-- Enter each of these entries. -/
def enterAll {κ ν : Type} [DecidableEq κ] (m : κ → Option ν) (entries : List (κ × ν)) : κ → Option ν :=
  entries.foldl (fun m e => Function.update m e.1 (some e.2)) m

namespace Tables

/-- The seeding from a CHECKPOINT_END. -/
def seed (t : Tables) (ckpt : LogRecord) : Option Tables := do
  let att ← deserializeAtt ckpt.oldTupleData
  let dpt ← deserializeDpt ckpt.newTupleData
  return { att := enterAll t.att att, dpt := enterAll t.dpt dpt }

/-- One round of the forward scan. -/
def scanRecord (t : Tables) (r : LogRecord) : Tables :=
  match r.type with
  | .begin | .abort => { t with att := Function.update t.att r.txnId (some r.lsn) }
  | .commit | .txnEnd => { t with att := Function.update t.att r.txnId none }
  | .update | .clr =>
    { att := Function.update t.att r.txnId (some r.lsn)
      dpt := if t.dpt r.pageId = none then Function.update t.dpt r.pageId (some r.lsn) else t.dpt }
  | _ => t

end Tables

/-- The loop that looks for the last CHECKPOINT_END among the first `i` records. -/
def lastCheckpointEnd (records : List LogRecord) : Nat → Option (Nat × LogRecord)
  | 0 => none
  | i + 1 =>
    match records[i]? with
    | some ckpt => if ckpt.type = .checkpointEnd then some (i + 1, ckpt) else lastCheckpointEnd records i
    | none => lastCheckpointEnd records i

/-- `analyze`, on the records that `read_log` gives. -/
def analyzeRecords (t : Tables) (records : List LogRecord) : Option Tables :=
  match lastCheckpointEnd records records.length with
  | some (startIdx, ckpt) => (t.seed ckpt).map fun t => (records.drop startIdx).foldl Tables.scanRecord t
  | none => some (records.foldl Tables.scanRecord t)

/-- `analyze`. -/
def analyze (lm : LogManager) (t : Tables) : Option (LogManager × Tables) := do
  let (lm, records) ← lm.readLog
  let t ← analyzeRecords t records
  return (lm, t)

-- ---------------------------------------------------------------------------
-- Maps with distinct keys
-- ---------------------------------------------------------------------------

/-- A list with distinct keys is the map that is entered from it. -/
theorem enterAll_eq_some {κ ν : Type} [DecidableEq κ] {entries : List (κ × ν)}
    (h : (entries.map (·.1)).Nodup) (k : κ) (v : ν) :
    enterAll (fun _ => none) entries k = some v ↔ (k, v) ∈ entries := by
  have hgeneral : ∀ m : κ → Option ν, (∀ e ∈ entries, m e.1 = none) →
      (enterAll m entries k = some v ↔ m k = some v ∨ (k, v) ∈ entries) := by
    intro m hm
    induction entries generalizing m with
    | nil => simp [enterAll]
    | cons e entries ih =>
      rw [List.map_cons, List.nodup_cons] at h
      show enterAll (Function.update m e.1 (some e.2)) entries k = some v ↔ _
      rw [ih h.2 _ fun e' he' => ?_]
      · by_cases hk : k = e.1
        · subst hk
          have hmem : (e.1, v) ∈ entries ↔ False :=
            iff_false_intro fun hin => h.1 (List.mem_map.mpr ⟨(e.1, v), hin, rfl⟩)
          rw [Function.update_self, hm e List.mem_cons_self, List.mem_cons, hmem]
          simp [Prod.ext_iff, eq_comm]
        · rw [Function.update_of_ne hk, List.mem_cons]
          have : (k, v) ≠ e := fun heq => hk (congrArg Prod.fst heq)
          simp [this]
      · have hne : e'.1 ≠ e.1 := fun heq => h.1 (heq ▸ List.mem_map_of_mem he')
        rw [Function.update_of_ne hne]
        exact hm e' (List.mem_cons_of_mem _ he')
  simpa using hgeneral (fun _ => none) fun _ _ => rfl

-- ---------------------------------------------------------------------------
-- The checkpoint in the log
-- ---------------------------------------------------------------------------

namespace LogManager

variable {lm lm' : LogManager} {rs : List LogRecord}

theorem exists_append (lm : LogManager) {c : LogRecord.New} (h : c.build.totalSize < 2 ^ 32) :
    ∃ lm', lm.append c.build = some (lm', lm.nextLsn) ∧ lm'.nextLsn = lm.nextLsn + 1 ∧
      lm'.flushedLsn = lm.flushedLsn := by
  have hsize : (c.build.setLsn lm.nextLsn).serialize = some (c.build.setLsn lm.nextLsn).layout :=
    if_pos h
  rw [append]
  simp only [hsize, Option.bind_eq_bind, Option.bind_some]
  exact ⟨_, rfl, rfl, rfl⟩

theorem Represents.flushes (h : Represents lm rs) (lsns : List UInt64) :
    Represents (lsns.foldl LogManager.flush lm) rs := by
  induction lsns generalizing lm with
  | nil => exact h
  | cons l lsns ih => exact ih (h.flush l)

/-- The CHECKPOINT_END of these snapshots. -/
def checkpointEndOf (att : List (UInt64 × UInt64)) (dpt : List (UInt32 × UInt64)) : LogRecord.New :=
  .checkpointEnd ((u64.pair u64).encCounted att) ((u32.pair u64).encCounted dpt)

/-- With fewer than `2 ^ 27` entries each, `checkpoint` goes through: it appends the CHECKPOINT_END
of the two snapshots to the log and then flushes. -/
theorem checkpoint_eq (lm : LogManager) {att : List (UInt64 × UInt64)} {dpt : List (UInt32 × UInt64)}
    (hatt : att.length < 2 ^ 27) (hdpt : dpt.length < 2 ^ 27) (pageLsns : List UInt64) :
    ∃ lm₂, lm.checkpoint att dpt pageLsns = some ((pageLsns.foldl flush lm₂).flush (lm.nextLsn + 1)) ∧
      lm₂.flushedLsn = lm.flushedLsn ∧
      ∀ rs, Represents lm rs →
        ∃ pre, Represents lm₂ (pre ++ [(checkpointEndOf att dpt).build.setLsn (lm.nextLsn + 1)]) := by
  have hattSize : serializeAtt att = some ((u64.pair u64).encCounted att) := by
    refine if_pos ?_
    rw [Codec.pair_width, u64_width]
    omega
  have hdptSize : serializeDpt dpt = some ((u32.pair u64).encCounted dpt) := by
    refine if_pos ?_
    rw [Codec.pair_width, u32_width, u64_width]
    omega
  have hendSize : (checkpointEndOf att dpt).build.totalSize < 2 ^ 32 := by
    have htotal : (checkpointEndOf att dpt).build.totalSize =
        29 + (4 + 2 + (4 + ((u64.pair u64).encCounted att).length)
          + (4 + ((u32.pair u64).encCounted dpt).length)) + 0 + 0 := rfl
    rw [htotal, Codec.length_encCounted, Codec.length_encCounted, Codec.pair_width,
      Codec.pair_width, u32_width, u64_width]
    omega
  let begin := LogRecord.New.checkpointBegin (UInt64.ofNat invalidU64) (UInt64.ofNat invalidU64)
  have hbeginSize : begin.build.totalSize < 2 ^ 32 := (by decide : (29 : Nat) < 2 ^ 32)
  obtain ⟨lm₁, hbegin, hnext, hflushed₁⟩ := lm.exists_append hbeginSize
  obtain ⟨lm₂, hend, -, hflushed₂⟩ := lm₁.exists_append hendSize
  rw [hnext] at hend
  refine ⟨lm₂, ?_, hflushed₂.trans hflushed₁, fun rs h => ⟨_, (h.append hbegin).append hend⟩⟩
  have hend' : lm₁.append (LogRecord.New.checkpointEnd ((u64.pair u64).encCounted att)
      ((u32.pair u64).encCounted dpt)).build = some (lm₂, lm.nextLsn + 1) := hend
  rw [LogManager.checkpoint]
  simp only [Option.bind_eq_bind]
  rw [hbegin, Option.bind_some, hattSize, Option.bind_some, hdptSize, Option.bind_some]
  simp only [hend', Option.bind_some]
  rfl

/-- With fewer than `2 ^ 27` entries each, the log ends with the CHECKPOINT_END. -/
theorem Represents.checkpoint (h : Represents lm rs) {att : List (UInt64 × UInt64)}
    {dpt : List (UInt32 × UInt64)} (hatt : att.length < 2 ^ 27) (hdpt : dpt.length < 2 ^ 27)
    (pageLsns : List UInt64) :
    ∃ lm' pre lsn, lm.checkpoint att dpt pageLsns = some lm' ∧
      Represents lm' (pre ++ [(checkpointEndOf att dpt).build.setLsn lsn]) := by
  obtain ⟨lm₂, hck, -, hrep⟩ := lm.checkpoint_eq hatt hdpt pageLsns
  obtain ⟨pre, hpre⟩ := hrep rs h
  exact ⟨_, pre, _, hck, (hpre.flushes pageLsns).flush _⟩

/-- A flush that does nothing has nothing to do, or its LSN is behind `flushed_lsn_`. -/
def FlushedBelow (lm : LogManager) (lsn : UInt64) : Prop :=
  lm.buffer = [] ∨ lm.flushedLsn = UInt64.ofNat invalidU64 ∨ lm.flushedLsn < lsn

theorem FlushedBelow.flush {lsn : UInt64} (h : FlushedBelow lm lsn) (upTo : UInt64) :
    FlushedBelow (lm.flush upTo) lsn := by
  unfold LogManager.flush
  split
  · exact h
  · exact .inl (flushAll_buffer lm)

theorem FlushedBelow.flushes {lsn : UInt64} (h : FlushedBelow lm lsn) (lsns : List UInt64) :
    FlushedBelow (lsns.foldl LogManager.flush lm) lsn := by
  induction lsns generalizing lm with
  | nil => exact h
  | cons l lsns ih => exact ih (h.flush l)

theorem FlushedBelow.flush_self {lsn : UInt64} (h : FlushedBelow lm lsn) :
    (lm.flush lsn).buffer = [] := by
  unfold LogManager.flush
  split
  · rename_i hdone
    obtain hbuffer | hinvalid | hlt := h
    · exact hbuffer
    · exact absurd hinvalid hdone.1
    · exact absurd hlt (UInt64.not_lt.mpr hdone.2)
  · exact flushAll_buffer lm

/-- Unless the LSNs wrap around, the flush at its end makes the checkpoint durable. -/
theorem checkpoint_flushed {att : List (UInt64 × UInt64)} {dpt : List (UInt32 × UInt64)}
    (hatt : att.length < 2 ^ 27) (hdpt : dpt.length < 2 ^ 27) {pageLsns : List UInt64}
    (hflushed : lm.flushedLsn = UInt64.ofNat invalidU64 ∨ lm.flushedLsn < lm.nextLsn)
    (hnext : lm.nextLsn.toNat + 1 < 2 ^ 64) (hck : lm.checkpoint att dpt pageLsns = some lm') :
    lm'.buffer = [] := by
  obtain ⟨lm₂, hck', hsame, -⟩ := lm.checkpoint_eq hatt hdpt pageLsns
  obtain rfl : _ = lm' := Option.some.inj (hck'.symm.trans hck)
  have hbelow : FlushedBelow lm₂ (lm.nextLsn + 1) := by
    right
    rw [hsame]
    refine hflushed.imp_right fun hlt => ?_
    rw [UInt64.lt_iff_toNat_lt] at hlt ⊢
    have hone : (lm.nextLsn + 1).toNat = lm.nextLsn.toNat + 1 := by
      rw [UInt64.toNat_add]
      exact Nat.mod_eq_of_lt hnext
    omega
  exact (hbelow.flushes pageLsns).flush_self

end LogManager

/-- A log that ends with a CHECKPOINT_END is analysed from there. -/
theorem analyzeRecords_concat {ckpt : LogRecord} (h : ckpt.type = .checkpointEnd)
    (pre : List LogRecord) (t : Tables) : analyzeRecords t (pre ++ [ckpt]) = t.seed ckpt := by
  have hlast : lastCheckpointEnd (pre ++ [ckpt]) (pre ++ [ckpt]).length
      = some ((pre ++ [ckpt]).length, ckpt) := by
    rw [List.length_append, List.length_singleton, lastCheckpointEnd, List.getElem?_concat_length]
    exact if_pos h
  rw [analyzeRecords, hlast]
  simp only [List.drop_length, List.foldl_nil, Option.map_id']

/-- A CHECKPOINT_END seeds the tables with the snapshots that it was made from. -/
theorem seed_checkpointEnd {att : List (UInt64 × UInt64)} {dpt : List (UInt32 × UInt64)}
    (hatt : att.length < 2 ^ 32) (hdpt : dpt.length < 2 ^ 32) (lsn : UInt64) (t : Tables) :
    t.seed ((LogManager.checkpointEndOf att dpt).build.setLsn lsn)
      = some { att := enterAll t.att att, dpt := enterAll t.dpt dpt } := by
  have hattRead : deserializeAtt ((LogManager.checkpointEndOf att dpt).build.setLsn lsn).oldTupleData
      = some att := deserializeEntries_encCounted hatt
  have hdptRead : deserializeDpt ((LogManager.checkpointEndOf att dpt).build.setLsn lsn).newTupleData
      = some dpt := deserializeEntries_encCounted hdpt
  rw [Tables.seed, hattRead, hdptRead]
  rfl

section

open LogManager

/-- **Checkpoint snapshots survive the log.** On a log of any records, `checkpoint` with fewer
than `2 ^ 27` entries in each snapshot goes through, whatever `flush_all_pages` flushes; and if
its record is flushed and none follows, then the reopened log is analysed to exactly the two
snapshots. -/
theorem analyze_checkpoint {lm : LogManager} {rs : List LogRecord} (h : Represents lm rs)
    {att : List (UInt64 × UInt64)} {dpt : List (UInt32 × UInt64)}
    (hatt : (att.map (·.1)).Nodup) (hdpt : (dpt.map (·.1)).Nodup)
    (hattLen : att.length < 2 ^ 27) (hdptLen : dpt.length < 2 ^ 27) (pageLsns : List UInt64) :
    ∃ lm', lm.checkpoint att dpt pageLsns = some lm' ∧
      (lm'.buffer = [] → ∃ m t, analyze (new lm'.file) {} = some (m, t) ∧
        (∀ txn lsn, t.att txn = some lsn ↔ (txn, lsn) ∈ att) ∧
        (∀ page lsn, t.dpt page = some lsn ↔ (page, lsn) ∈ dpt)) := by
  obtain ⟨lm', pre, lsn, hck, hrep⟩ := h.checkpoint hattLen hdptLen pageLsns
  refine ⟨lm', hck, fun hflushed => ?_⟩
  have hfile : (new lm'.file).file
      = logBytes (pre ++ [(checkpointEndOf att dpt).build.setLsn lsn]) ++ [] := by
    rw [List.append_nil, ← hrep.bytes, hflushed, List.append_nil]
    rfl
  obtain ⟨m, hread⟩ := readLog_of_logBytes hrep.writable (rfl : readFrame [] = some .stop) hfile
  refine ⟨m, { att := enterAll (fun _ => none) att, dpt := enterAll (fun _ => none) dpt }, ?_,
    enterAll_eq_some hatt, enterAll_eq_some hdpt⟩
  have hseed := seed_checkpointEnd (by omega : att.length < 2 ^ 32)
    (by omega : dpt.length < 2 ^ 32) lsn {}
  rw [analyze, hread]
  simp only [Option.bind_eq_bind, Option.bind_some]
  rw [analyzeRecords_concat rfl, hseed]
  rfl

/-- Two transactions and a dirty page, checkpointed in an empty log. -/
theorem analyze_checkpoint_empty_log :
    ∃ lm' m t, (new []).checkpoint [(7, 3), (9, 5)] [(2, 4)] [4] = some lm' ∧
      analyze (new lm'.file) {} = some (m, t) ∧ t.att 9 = some 5 ∧ t.dpt 2 = some 4 := by
  have hempty : Represents (new []) [] := @Represents.new [] fun r hr => absurd hr List.not_mem_nil
  obtain ⟨lm', hck, hanalyze⟩ := @analyze_checkpoint _ _ hempty [(7, 3), (9, 5)] [(2, 4)]
    (by decide) (by decide) (by decide) (by decide) [4]
  have hflushed : lm'.buffer = [] :=
    checkpoint_flushed (by decide) (by decide) (.inl rfl) (by decide) hck
  obtain ⟨m, t, hread, hatt, hdpt⟩ := hanalyze hflushed
  exact ⟨lm', m, t, hck, hread, (hatt 9 5).mpr (by decide), (hdpt 2 4).mpr (by decide)⟩

end

end PersistX.Log
