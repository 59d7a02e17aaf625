import PersistX.Wal.History
import Mathlib.Data.List.AList

/-!
# PersistX — the analysis pass

`RecoveryManager::analyze`: the active transaction table (ATT) and the dirty
page table (DPT) from the records of the log file, seeded from the last
CHECKPOINT_END if there is one.

Main results, for a history whose checkpoints carried the true ATT
(`CkptRule`): `analyze_attExact` — the ATT holds exactly the open
transactions, each with the LSN of its last record; `Covers.append_one` — a
page image that reflects the records the DPT filters out keeps doing so when
the log grows.
-/

namespace PersistX

/-- `std::unordered_map<txn_id_t, lsn_t>` and `std::unordered_map<page_id_t, lsn_t>`. -/
abbrev Table := AList fun _ : Nat => Nat

/-- A snapshot list read back into a table, entry by entry. -/
def toTable (l : List (Nat × Nat)) : Table := l.foldl (fun m e => m.insert e.1 e.2) ∅

/-- The last CHECKPOINT_END of a log: its ATT, its DPT and the records after it. -/
def lastCheckpoint : List Record → Option (List (Nat × Nat) × List (Nat × Nat) × List Record)
  | [] => none
  | r :: l =>
    match lastCheckpoint l with
    | some x => some x
    | none =>
      match r.body with
      | .checkpointEnd att dpt => some (att, dpt, l)
      | _ => none

/-- The body of the scan loop of `analyze`. -/
def analysisStep (x : Table × Table) (r : Record) : Table × Table :=
  match r.body with
  | .begin => (x.1.insert r.txnId r.lsn, x.2)
  | .commit => (x.1.erase r.txnId, x.2)
  | .txnEnd => (x.1.erase r.txnId, x.2)
  | .update p _ _ _ _ =>
    (x.1.insert r.txnId r.lsn, if p ∈ x.2 then x.2 else x.2.insert p r.lsn)
  | .clr p _ _ _ =>
    (x.1.insert r.txnId r.lsn, if p ∈ x.2 then x.2 else x.2.insert p r.lsn)
  | .abort => (x.1.insert r.txnId r.lsn, x.2)
  | .checkpointBegin => x
  | .checkpointEnd .. => x

/-- `analyze`: the ATT and the DPT after the pass. -/
def analyze (records : List Record) : Table × Table :=
  match lastCheckpoint records with
  | some (att, dpt, rest) => rest.foldl analysisStep (toTable att, toTable dpt)
  | none => records.foldl analysisStep (∅, ∅)

/-- The record is a CHECKPOINT_END. -/
def RecordBody.isCheckpointEnd : RecordBody → Bool
  | .checkpointEnd .. => true
  | _ => false

-- ---------------------------------------------------------------------------
-- One record more
-- ---------------------------------------------------------------------------

theorem lastCheckpoint_append_end {l : List Record} {r : Record} {a d : List (Nat × Nat)}
    (h : r.body = .checkpointEnd a d) : lastCheckpoint (l ++ [r]) = some (a, d, []) := by
  induction l with
  | nil => simp [lastCheckpoint, h]
  | cons x l ih => simp [lastCheckpoint, ih]

theorem lastCheckpoint_append_one {l : List Record} {r : Record}
    (h : r.body.isCheckpointEnd = false) : lastCheckpoint (l ++ [r]) =
      (lastCheckpoint l).map fun x => (x.1, x.2.1, x.2.2 ++ [r]) := by
  induction l with
  | nil =>
    simp only [List.nil_append, lastCheckpoint]
    split
    · rename_i hb
      rw [hb] at h
      cases h
    · rfl
  | cons x l ih =>
    simp only [List.cons_append, lastCheckpoint, ih]
    cases hl : lastCheckpoint l with
    | some y => rfl
    | none =>
      simp only [Option.map_none]
      split <;> rfl

@[simp] theorem analyze_nil : analyze [] = (∅, ∅) := rfl

theorem analyze_append_end {l : List Record} {r : Record} {a d : List (Nat × Nat)}
    (h : r.body = .checkpointEnd a d) : analyze (l ++ [r]) = (toTable a, toTable d) := by
  rw [analyze, lastCheckpoint_append_end h]
  rfl

theorem analyze_append_one {l : List Record} {r : Record} (h : r.body.isCheckpointEnd = false) :
    analyze (l ++ [r]) = analysisStep (analyze l) r := by
  rw [analyze, analyze, lastCheckpoint_append_one h]
  cases hl : lastCheckpoint l with
  | some y => simp [List.foldl_append]
  | none => simp [List.foldl_append]

-- ---------------------------------------------------------------------------
-- The ATT
-- ---------------------------------------------------------------------------

/-- The table holds exactly the transactions open at the end of the log, each
with the LSN of its last record. -/
def AttExact (att : Table) (log : List Record) : Prop :=
  ∀ t, att.lookup t = (active log t).map TxnView.last

theorem AttExact.empty : AttExact ∅ [] := fun _ => rfl

/-- The scan keeps the ATT exact, record by record. -/
theorem AttExact.append_one {x : Table × Table} {log : List Record} {r : Record}
    (h : AttExact x.1 log) (hr : Lifecycle log r) :
    AttExact (analysisStep x r).1 (log ++ [r]) := by
  intro t
  have hother : ∀ att : Table, (∀ t', t' ≠ r.txnId → att.lookup t' = x.1.lookup t') →
      att.lookup r.txnId = (stepTxn (active log r.txnId) r).map TxnView.last →
      att.lookup t = (active (log ++ [r]) t).map TxnView.last := by
    intro att hne hself
    by_cases ht : r.txnId = t
    · subst ht
      rw [active_append_one_self, hself]
    · rw [active_append_one_ne ht, hne t (Ne.symm ht), h t]
  obtain ⟨-, hlife⟩ := hr
  have hins : (stepTxn (active log r.txnId) r).map TxnView.last = some r.lsn →
      (x.1.insert r.txnId r.lsn).lookup t = (active (log ++ [r]) t).map TxnView.last := by
    intro hv
    refine hother _ (fun t' ht' => AList.lookup_insert_ne ht') ?_
    rw [AList.lookup_insert, hv]
  have hdel : stepTxn (active log r.txnId) r = none →
      (x.1.erase r.txnId).lookup t = (active (log ++ [r]) t).map TxnView.last := by
    intro hv
    refine hother _ (fun t' ht' => AList.lookup_erase_ne ht') ?_
    rw [AList.lookup_erase, hv, Option.map_none]
  cases hb : r.body with
  | begin =>
    simp only [analysisStep, hb]
    exact hins (by simp only [stepTxn, hb, Option.map_some])
  | commit =>
    simp only [analysisStep, hb]
    exact hdel (by simp only [stepTxn, hb])
  | txnEnd =>
    simp only [analysisStep, hb]
    exact hdel (by simp only [stepTxn, hb])
  | update p s o n k =>
    rw [hb] at hlife
    obtain ⟨v, hv, -⟩ := hlife
    simp only [analysisStep, hb]
    exact hins (by simp only [stepTxn, hb, hv, Option.map_some])
  | clr p s n un =>
    rw [hb] at hlife
    obtain ⟨v, u, us, ru, hv, -⟩ := hlife
    simp only [analysisStep, hb]
    exact hins (by simp only [stepTxn, hb, hv, Option.map_some])
  | abort =>
    rw [hb] at hlife
    obtain ⟨v, hv, -⟩ := hlife
    simp only [analysisStep, hb]
    exact hins (by simp only [stepTxn, hb, hv, Option.map_some])
  | checkpointBegin =>
    simp only [analysisStep, hb]
    exact hother _ (fun _ _ => rfl) (by rw [h]; simp only [stepTxn, hb])
  | checkpointEnd a d =>
    simp only [analysisStep, hb]
    exact hother _ (fun _ _ => rfl) (by rw [h]; simp only [stepTxn, hb])

/-- Scanning a whole history from an empty ATT. -/
theorem scan_attExact {rule : List Record → Record → Prop} {log : List Record}
    (hrule : ∀ l r, rule l r → Lifecycle l r) (h : History rule log) :
    AttExact (log.foldl analysisStep (∅, ∅)).1 log := by
  induction h with
  | nil => exact .empty
  | snoc _ hr ih =>
    rw [List.foldl_append, List.foldl_cons, List.foldl_nil]
    exact ih.append_one (hrule _ _ hr)

/-- A CHECKPOINT_END carries the true ATT, and no `rec_lsn` from the future. -/
def CkptRule (log : List Record) (r : Record) : Prop :=
  ∀ a d, r.body = .checkpointEnd a d → AttExact (toTable a) log ∧
    ∀ p l, (toTable d).lookup p = some l → l ≤ log.length

theorem active_append_end {log : List Record} {r : Record} {a d : List (Nat × Nat)}
    (h : r.body = .checkpointEnd a d) (t : Nat) : active (log ++ [r]) t = active log t := by
  rw [active_append_one]
  split
  · simp only [stepTxn, h]
  · rfl

/-- **Analysis finds the losers.** -/
theorem analyze_attExact {rule : List Record → Record → Prop} {log : List Record}
    (hrule : ∀ l r, rule l r → Lifecycle l r)
    (hckpt : ∀ l r a d, rule l r → r.body = .checkpointEnd a d → AttExact (toTable a) l)
    (h : History rule log) : AttExact (analyze log).1 log := by
  induction h with
  | nil => exact .empty
  | @snoc log r _ hr ih =>
    by_cases hb : r.body.isCheckpointEnd = true
    · cases hbody : r.body with
      | checkpointEnd a d =>
        rw [analyze_append_end hbody]
        intro t
        rw [active_append_end hbody]
        exact hckpt _ _ a d hr hbody t
      | _ => simp [hbody, RecordBody.isCheckpointEnd] at hb
    · rw [analyze_append_one (by simpa using hb)]
      exact ih.append_one (hrule _ _ hr)

-- ---------------------------------------------------------------------------
-- The DPT
-- ---------------------------------------------------------------------------

/-- The DPT makes redo skip the record at `j` for page `p` without looking at the page. -/
def Filtered (dpt : Table) (p j : Nat) : Prop := ∀ l, dpt.lookup p = some l → j < l

/-- Every record of page `p` that the DPT filters out has an LSN below `k`. -/
def Covers (dpt : Table) (log : List Record) (p k : Nat) : Prop :=
  ∀ (j : Nat) (r : Record), log[j]? = some r → r.body.page? = some p → Filtered dpt p j → j < k

/-- No `rec_lsn` lies beyond the end of the log. -/
def DptBound (dpt : Table) (n : Nat) : Prop := ∀ p l, dpt.lookup p = some l → l ≤ n

theorem lookup_analysisStep {x : Table × Table} {r : Record} {p l : Nat}
    (h : x.2.lookup p = some l) : (analysisStep x r).2.lookup p = some l := by
  have hkeep : ∀ q, (if q ∈ x.2 then x.2 else x.2.insert q r.lsn).lookup p = some l := by
    intro q
    split
    · exact h
    · rename_i hq
      rw [AList.lookup_insert_ne, h]
      rintro rfl
      exact hq (AList.lookup_isSome.mp (by rw [h]; rfl))
  cases hb : r.body <;> simp only [analysisStep, hb]
  case update q _ _ _ _ => exact hkeep q
  case clr q _ _ _ => exact hkeep q
  all_goals exact h

theorem dptBound_analysisStep {x : Table × Table} {r : Record} {n : Nat} (h : DptBound x.2 n)
    (hr : r.lsn = n) : DptBound (analysisStep x r).2 (n + 1) := by
  have hkeep : ∀ q, DptBound (if q ∈ x.2 then x.2 else x.2.insert q r.lsn) (n + 1) := by
    intro q p l hl
    split at hl
    · exact Nat.le_succ_of_le (h p l hl)
    · by_cases hp : p = q
      · subst hp
        rw [AList.lookup_insert] at hl
        have := Option.some.inj hl
        omega
      · rw [AList.lookup_insert_ne hp] at hl
        exact Nat.le_succ_of_le (h p l hl)
  have hsame : DptBound x.2 (n + 1) := fun p l hl => Nat.le_succ_of_le (h p l hl)
  cases hb : r.body <;> simp only [analysisStep, hb]
  case update q _ _ _ _ => exact hkeep q
  case clr q _ _ _ => exact hkeep q
  all_goals exact hsame

/-- A record puts its page into the DPT. -/
theorem mem_dpt_analysisStep {x : Table × Table} {r : Record} {p : Nat} {n : Nat}
    (hp : r.body.page? = some p) (h : DptBound x.2 n) (hr : r.lsn = n) :
    ∃ l ≤ n, (analysisStep x r).2.lookup p = some l := by
  have key : ∃ l ≤ n, (if p ∈ x.2 then x.2 else x.2.insert p r.lsn).lookup p = some l := by
    split
    · rename_i hmem
      obtain ⟨l, hl⟩ := Option.isSome_iff_exists.mp (AList.lookup_isSome.mpr hmem)
      exact ⟨l, h p l hl, hl⟩
    · exact ⟨r.lsn, Nat.le_of_eq hr, AList.lookup_insert _⟩
  cases hb : r.body <;> rw [hb] at hp <;>
    simp only [RecordBody.page?, RecordBody.write?, Option.map_some, Option.map_none,
      Option.some.injEq, reduceCtorEq] at hp
  case update q _ _ _ _ =>
    subst hp
    simpa only [analysisStep, hb] using key
  case clr q _ _ _ =>
    subst hp
    simpa only [analysisStep, hb] using key

/-- An image that covers what is filtered out still does after one more record. -/
theorem Covers.append_one {x : Table × Table} {log : List Record} {r : Record} {p k : Nat}
    (h : Covers x.2 log p k) (hbound : DptBound x.2 log.length) (hr : r.lsn = log.length) :
    Covers (analysisStep x r).2 (log ++ [r]) p k := by
  intro j y hy hp hfil
  rcases Nat.lt_or_ge j log.length with hj | hj
  · rw [List.getElem?_append_left hj] at hy
    exact h j y hy hp fun l hl => hfil l (lookup_analysisStep hl)
  · rw [List.getElem?_append_right hj, List.getElem?_singleton] at hy
    split at hy
    · obtain rfl := Option.some.inj hy
      obtain ⟨l, hle, hl⟩ := mem_dpt_analysisStep hp hbound hr
      have := hfil l hl
      omega
    · cases hy

theorem analyze_dptBound {rule : List Record → Record → Prop} {log : List Record}
    (hrule : ∀ l r, rule l r → Lifecycle l r) (hckpt : ∀ l r, rule l r → CkptRule l r)
    (h : History rule log) : DptBound (analyze log).2 log.length := by
  induction h with
  | nil => intro p l hl; cases hl
  | @snoc log r _ hr ih =>
    rw [List.length_append, List.length_singleton]
    by_cases hb : r.body.isCheckpointEnd = true
    · cases hbody : r.body with
      | checkpointEnd a d =>
        rw [analyze_append_end hbody]
        exact fun p l hl => Nat.le_succ_of_le ((hckpt _ _ hr a d hbody).2 p l hl)
      | _ => simp [hbody, RecordBody.isCheckpointEnd] at hb
    · rw [analyze_append_one (by simpa using hb)]
      exact dptBound_analysisStep ih (hrule _ _ hr).1

/-- A scan from the first record filters out no record of the log. -/
theorem scan_covers {rule : List Record → Record → Prop} {log : List Record}
    (hrule : ∀ l r, rule l r → Lifecycle l r) (h : History rule log) (p k : Nat) :
    Covers (log.foldl analysisStep (∅, ∅)).2 log p k ∧
      DptBound (log.foldl analysisStep (∅, ∅)).2 log.length := by
  induction h with
  | nil => exact ⟨by intro j y hy; simp at hy, fun p l hl => by cases hl⟩
  | snoc _ hr ih =>
    obtain ⟨ihc, ihb⟩ := ih
    rw [List.foldl_append, List.foldl_cons, List.foldl_nil, List.length_append,
      List.length_singleton]
    have hlsn := (hrule _ _ hr).1
    exact ⟨ihc.append_one ihb hlsn, dptBound_analysisStep ihb hlsn⟩

/-- Without a checkpoint, analysis is a scan from the first record. -/
theorem analyze_of_no_checkpoint {log : List Record} (h : lastCheckpoint log = none) :
    analyze log = log.foldl analysisStep (∅, ∅) := by
  rw [analyze, h]

theorem lastCheckpoint_eq_none {log : List Record} :
    lastCheckpoint log = none ↔ ∀ r ∈ log, r.body.isCheckpointEnd = false := by
  induction log with
  | nil => simp [lastCheckpoint]
  | cons r l ih =>
    rw [lastCheckpoint, List.forall_mem_cons]
    cases hl : lastCheckpoint l with
    | some x =>
      simp only [reduceCtorEq, false_iff, not_and]
      intro _ hall
      rw [ih.mpr hall] at hl
      cases hl
    | none =>
      rw [← ih]
      simp only [hl, and_true]
      cases hb : r.body <;> simp [RecordBody.isCheckpointEnd]

end PersistX
