import PersistX.Wal.Record

/-!
# PersistX — what the managers use of a page

The managers touch a page only through the operations of `page.hpp`. `PageOps`
collects them; the transaction and recovery managers are modelled over any
`PageOps`, so that one proof serves both readings of a page:

* `SlotPage` (`Page/SlotPage.lean`) — a page as a map from slots to payloads,
  without a bound on its space;
* `Page` (`Page/Layout.lean`) — the 4096 bytes of `page.cpp`.

`LawfulPageOps` states what the managers rely on. A law about `redoInsert` has
the hypothesis `fits`: the source writes the record without looking whether it
fits below the slot directory. `Eqv` identifies pages that differ only in what
replaying the log does not restore (page id and type of a page that reached
the disk as zeros).

The second half is the code that the managers run on one page: the redo of a
record, the undo of an UPDATE, and the operation of a client that
`log_update` documents.
-/

namespace PersistX

/-- The operations of `page.hpp` that the managers and their clients use. -/
class PageOps (P : Type) where
  /-- `Page()`: the all-zero buffer, also what `read_page` gives past the end of the file. -/
  zero : P
  /-- `init(page_id, PageType::DATA)`. -/
  init : Nat → P
  /-- The page has been through `init` (its data frontier is past the header). -/
  inited : P → Bool
  pageLsn : P → Nat
  setPageLsn : P → Nat → P
  /-- `read_record(slot, out)`: `none` for `false`. -/
  readRecord : P → Nat → Option Bytes
  /-- `insert_record(data, size, lsn)`: `none` for `INVALID_SLOT_ID`. -/
  insertRecord : P → Bytes → Nat → Option (P × Nat)
  /-- `redo_insert(slot, data, size, lsn)`. -/
  redoInsert : P → Nat → Bytes → Nat → P
  /-- `delete_record(slot, lsn)`. -/
  deleteRecord : P → Nat → Nat → P × Bool
  /-- `update_record(slot, data, size, lsn)`. -/
  updateRecord : P → Nat → Bytes → Nat → P × Bool
  /-- There is room for what `redo_insert` writes for this slot and payload. -/
  fits : P → Nat → Bytes → Bool
  /-- The payload's length is one that the `uint16_t size` parameters can carry. -/
  sizeOk : Bytes → Bool

open PageOps

/-- What the managers rely on. -/
class LawfulPageOps (P : Type) extends PageOps P where
  /-- The page is well-formed. -/
  Wf : P → Prop
  /-- Equal up to what replaying the log does not restore. -/
  Eqv : P → P → Prop
  eqv_refl : ∀ x, Eqv x x
  eqv_symm : ∀ {x y}, Eqv x y → Eqv y x
  eqv_trans : ∀ {x y z}, Eqv x y → Eqv y z → Eqv x z
  eqv_init : ∀ p, Eqv (init p) zero
  eqv_lsn : ∀ {x y}, Eqv x y → pageLsn x = pageLsn y
  eqv_read : ∀ {x y} s, Wf x → Eqv x y → readRecord x s = readRecord y s
  eqv_fits : ∀ {x y} s d, Eqv x y → fits x s d = fits y s d
  eqv_wf : ∀ {x y}, Eqv x y → Wf x → Wf y
  eqv_setPageLsn : ∀ {x y} l, Eqv x y → Eqv (setPageLsn x l) (setPageLsn y l)
  eqv_redoInsert : ∀ {x y s d} l, Wf x → Eqv x y → fits x s d = true →
    Eqv (redoInsert x s d l) (redoInsert y s d l)
  eqv_deleteRecord : ∀ {x y} s l, Wf x → Eqv x y →
    Eqv (deleteRecord x s l).1 (deleteRecord y s l).1
  eqv_updateRecord : ∀ {x y} s d l, Wf x → Eqv x y →
    Eqv (updateRecord x s d l).1 (updateRecord y s d l).1 ∧
      (updateRecord x s d l).2 = (updateRecord y s d l).2
  wf_zero : Wf zero
  read_zero : ∀ s, readRecord zero s = none
  lsn_zero : pageLsn zero = 0
  wf_setPageLsn : ∀ {x} l, Wf x → Wf (setPageLsn x l)
  read_setPageLsn : ∀ {x} l s, Wf x → readRecord (setPageLsn x l) s = readRecord x s
  lsn_setPageLsn : ∀ x l, pageLsn (setPageLsn x l) = l
  /-- Only the stamp depends on the LSN passed along. -/
  stamp_redoInsert : ∀ x s d l l' k,
    setPageLsn (redoInsert x s d l) k = setPageLsn (redoInsert x s d l') k
  stamp_deleteRecord : ∀ x s l l' k,
    setPageLsn (deleteRecord x s l).1 k = setPageLsn (deleteRecord x s l').1 k
  stamp_updateRecord : ∀ x s d l l' k,
    setPageLsn (updateRecord x s d l).1 k = setPageLsn (updateRecord x s d l').1 k ∧
      (updateRecord x s d l).2 = (updateRecord x s d l').2
  redoInsert_spec : ∀ {x s d} l, Wf x → d ≠ [] → fits x s d = true → Wf (redoInsert x s d l) ∧
    ∀ s', readRecord (redoInsert x s d l) s' = if s' = s then some d else readRecord x s'
  deleteRecord_spec : ∀ {x} s l, Wf x → Wf (deleteRecord x s l).1 ∧
    ∀ s', readRecord (deleteRecord x s l).1 s' = if s' = s then none else readRecord x s'
  deleteRecord_none : ∀ {x s} l, Wf x → readRecord x s = none → (deleteRecord x s l).1 = x
  updateRecord_live : ∀ {x s d} l, Wf x → (updateRecord x s d l).2 = true →
    ∃ old, readRecord x s = some old
  updateRecord_ok : ∀ {x s d} l, Wf x → sizeOk d = true → (updateRecord x s d l).2 = true →
    Wf (updateRecord x s d l).1 ∧
    ∀ s', readRecord (updateRecord x s d l).1 s' = if s' = s then some d else readRecord x s'
  updateRecord_fail : ∀ {x s d} l, (updateRecord x s d l).2 = false →
    (updateRecord x s d l).1 = x
  inited_deleteRecord : ∀ {x} s l, Wf x → inited (deleteRecord x s l).1 = inited x
  insertRecord_spec : ∀ {x d l x' s}, Wf x → inited x = true → d ≠ [] → sizeOk d = true →
    insertRecord x d l = some (x', s) →
    fits x s d = true ∧ readRecord x s = none ∧ x' = redoInsert x s d l

variable {P : Type}

-- ---------------------------------------------------------------------------
-- The managers' work on one page
-- ---------------------------------------------------------------------------

section Ops

variable [PageOps P]

/-- Overwrite in place, or delete and force the image back into the slot when
the length differs: the fallback that `abort`, `undo` and `redo` share. -/
def overwriteRecord (x : P) (s : Nat) (data : Bytes) (lsn : Nat) : P :=
  let (x', ok) := updateRecord x s data lsn
  if ok then x' else redoInsert (deleteRecord x' s 0).1 s data lsn

/-- The `Apply the change` part of `RecoveryManager::redo`, with the stamp. -/
def redoRecord (x : P) (b : RecordBody) (lsn : Nat) : P :=
  let x' :=
    match b with
    | .update _ s old new _ =>
      if old = [] then redoInsert x s new lsn
      else if new = [] then (deleteRecord x s lsn).1
      else overwriteRecord x s new lsn
    | .clr _ s new _ =>
      if new = [] then (deleteRecord x s lsn).1
      else overwriteRecord x s new lsn
    | _ => x
  setPageLsn x' lsn

/-- The heap part of undoing one UPDATE, in `TransactionManager::abort` and in
`RecoveryManager::undo`, with the stamp of the CLR's LSN. -/
def undoRecord (x : P) (s : Nat) (old new : Bytes) (clrLsn : Nat) : P :=
  let x' :=
    if old = [] then (deleteRecord x s 0).1
    else if new = [] then redoInsert x s old 0
    else overwriteRecord x s old 0
  setPageLsn x' clrLsn

/-- One data operation of a client. -/
inductive DataOp where
  | insert (data : Bytes)
  | delete (slot : Nat)
  | update (slot : Nat) (data : Bytes)
  deriving DecidableEq, Repr

/-- The client's work on the page, up to `log_update`: capture the before-image
and change one slot. Gives the page, the slot, and the two images to log;
`none` when the operation does not go through. A record whose length changes
is deleted and inserted again; the operation counts only if `insert_record`
hands out the slot it came from. -/
def DataOp.run (x : P) : DataOp → Option (P × Nat × Bytes × Bytes)
  | .insert data =>
    if data = [] || !sizeOk P data then none
    else (insertRecord x data 0).map fun (x', s) => (x', s, [], data)
  | .delete s => (readRecord x s).map fun old => ((deleteRecord x s 0).1, s, old, [])
  | .update s data =>
    if data = [] || !sizeOk P data then none
    else (readRecord x s).bind fun old =>
      let (x', ok) := updateRecord x s data 0
      if ok then some (x', s, old, data)
      else (insertRecord (deleteRecord x' s 0).1 data 0).bind fun (x'', s') =>
        if s' = s then some (x'', s, old, data) else none

/-- What `overwriteRecord` writes has room: in place, or where the fallback forces it in. -/
def overwriteFits (x : P) (s : Nat) (data : Bytes) : Bool :=
  if (updateRecord x s data 0).2 then sizeOk P data else fits (deleteRecord x s 0).1 s data

/-- What the redo of this record writes has room. -/
def redoFits (x : P) : RecordBody → Bool
  | .update _ s old new _ =>
    if old = [] then fits x s new else if new = [] then true else overwriteFits x s new
  | .clr _ s new _ => if new = [] then true else overwriteFits x s new
  | _ => true

/-- What the undo of this UPDATE writes has room. -/
def undoFits (x : P) (s : Nat) (old new : Bytes) : Bool :=
  if old = [] then true else if new = [] then fits x s old else overwriteFits x s old

end Ops

-- ---------------------------------------------------------------------------
-- Their meaning
-- ---------------------------------------------------------------------------

section Laws

variable [LawfulPageOps P]

open LawfulPageOps

theorem overwriteRecord_spec {x : P} {s : Nat} {data : Bytes} (lsn : Nat) (hw : Wf x)
    (hd : data ≠ []) (hf : overwriteFits x s data = true) :
    Wf (overwriteRecord x s data lsn) ∧ ∀ s', readRecord (overwriteRecord x s data lsn) s' =
      if s' = s then some data else readRecord x s' := by
  have hst := (stamp_updateRecord x s data lsn 0 0).2
  rw [overwriteFits, ← hst] at hf
  rw [overwriteRecord]
  by_cases hok : (updateRecord x s data lsn).2 = true
  · rw [if_pos hok] at hf
    simp only [hok, if_true]
    exact updateRecord_ok lsn hw hf hok
  · rw [Bool.not_eq_true] at hok
    have hx := updateRecord_fail lsn hok
    simp only [hok, Bool.false_eq_true, if_false, hx]
    obtain ⟨hwd, hrd⟩ := deleteRecord_spec s 0 hw
    rw [hok, if_neg (by simp)] at hf
    obtain ⟨hwr, hrr⟩ := redoInsert_spec lsn hwd hd hf
    refine ⟨hwr, fun s' => ?_⟩
    rw [hrr, hrd]
    split <;> rfl

/-- Redoing a record that has room sets its slot and nothing else. -/
theorem redoRecord_spec {x : P} {b : RecordBody} {p s : Nat} {new : Bytes} (lsn : Nat)
    (hw : Wf x) (hb : b.write? = some (p, s, new))
    (hne : ∀ q u o k, b = .update q u o [] k → o ≠ []) (hf : redoFits x b = true) :
    Wf (redoRecord x b lsn) ∧
    ∀ s', readRecord (redoRecord x b lsn) s' = if s' = s then image new else readRecord x s' := by
  -- the final stamp changes neither
  have hstamp : ∀ {y : P} {v : Option Bytes}, (Wf y ∧
      ∀ s', readRecord y s' = if s' = s then v else readRecord x s') →
      Wf (setPageLsn y lsn) ∧ ∀ s', readRecord (setPageLsn y lsn) s' =
        if s' = s then v else readRecord x s' :=
    fun h => ⟨wf_setPageLsn lsn h.1, fun s' => by rw [read_setPageLsn lsn s' h.1, h.2]⟩
  cases b with
  | update q u o n k =>
    simp only [RecordBody.write?, Option.some.injEq, Prod.mk.injEq] at hb
    obtain ⟨-, rfl, rfl⟩ := hb
    simp only [redoRecord]
    simp only [redoFits] at hf
    refine hstamp ?_
    by_cases ho : o = []
    · have hn : n ≠ [] := fun h => hne q u o k (by rw [h]) ho
      rw [if_pos ho] at hf ⊢
      rw [image_of_ne hn]
      exact redoInsert_spec lsn hw hn hf
    · rw [if_neg ho] at hf ⊢
      by_cases hn : n = []
      · subst hn
        exact deleteRecord_spec u lsn hw
      · rw [if_neg hn] at hf ⊢
        rw [image_of_ne hn]
        exact overwriteRecord_spec lsn hw hn hf
  | clr q u n un =>
    simp only [RecordBody.write?, Option.some.injEq, Prod.mk.injEq] at hb
    obtain ⟨-, rfl, rfl⟩ := hb
    simp only [redoRecord]
    simp only [redoFits] at hf
    refine hstamp ?_
    by_cases hn : n = []
    · subst hn
      exact deleteRecord_spec u lsn hw
    · rw [if_neg hn] at hf ⊢
      rw [image_of_ne hn]
      exact overwriteRecord_spec lsn hw hn hf
  | begin => simp [RecordBody.write?] at hb
  | commit => simp [RecordBody.write?] at hb
  | abort => simp [RecordBody.write?] at hb
  | txnEnd => simp [RecordBody.write?] at hb
  | checkpointBegin => simp [RecordBody.write?] at hb
  | checkpointEnd => simp [RecordBody.write?] at hb

theorem lsn_redoRecord (x : P) (b : RecordBody) (lsn : Nat) :
    pageLsn (redoRecord x b lsn) = lsn := lsn_setPageLsn _ _

theorem eqv_overwriteFits {x y : P} (s : Nat) (data : Bytes) (hw : Wf x) (h : Eqv x y) :
    overwriteFits x s data = overwriteFits y s data := by
  rw [overwriteFits, overwriteFits, (eqv_updateRecord s data 0 hw h).2,
    eqv_fits _ _ (eqv_deleteRecord s 0 hw h)]

theorem eqv_redoFits {x y : P} (b : RecordBody) (hw : Wf x) (h : Eqv x y) :
    redoFits x b = redoFits y b := by
  cases b <;> simp only [redoFits, eqv_fits _ _ h, eqv_overwriteFits _ _ hw h]

theorem eqv_overwriteRecord {x y : P} {s : Nat} {data : Bytes} (lsn : Nat) (hw : Wf x)
    (h : Eqv x y) (hf : overwriteFits x s data = true) :
    Eqv (overwriteRecord x s data lsn) (overwriteRecord y s data lsn) := by
  obtain ⟨h1, h2⟩ := eqv_updateRecord s data lsn hw h
  have hst := (stamp_updateRecord x s data lsn 0 0).2
  rw [overwriteFits, ← hst] at hf
  by_cases hok : (updateRecord x s data lsn).2 = true
  · simp only [overwriteRecord, ← h2, hok, if_true]
    exact h1
  · rw [Bool.not_eq_true] at hok
    have hok' := h2 ▸ hok
    rw [hok, if_neg (by simp)] at hf
    simp only [overwriteRecord, hok, hok', Bool.false_eq_true, if_false, updateRecord_fail _ hok,
      updateRecord_fail _ hok']
    exact eqv_redoInsert _ (deleteRecord_spec s 0 hw).1 (eqv_deleteRecord _ _ hw h) hf

/-- Redo does not tell equivalent pages apart. -/
theorem eqv_redoRecord {x y : P} {b : RecordBody} (lsn : Nat) (hw : Wf x) (h : Eqv x y)
    (hf : redoFits x b = true) : Eqv (redoRecord x b lsn) (redoRecord y b lsn) := by
  refine eqv_setPageLsn _ ?_
  cases b with
  | update p s old new k =>
    simp only [redoFits] at hf
    simp only
    split
    · rename_i ho
      rw [if_pos ho] at hf
      exact eqv_redoInsert _ hw h hf
    · rename_i ho
      rw [if_neg ho] at hf
      split
      · exact eqv_deleteRecord _ _ hw h
      · rename_i hn
        rw [if_neg hn] at hf
        exact eqv_overwriteRecord _ hw h hf
  | clr p s new un =>
    simp only [redoFits] at hf
    simp only
    split
    · exact eqv_deleteRecord _ _ hw h
    · rename_i hn
      rw [if_neg hn] at hf
      exact eqv_overwriteRecord _ hw h hf
  | _ => exact h

theorem stamp_overwriteRecord (x : P) (s : Nat) (data : Bytes) (l l' k : Nat) :
    setPageLsn (overwriteRecord x s data l) k = setPageLsn (overwriteRecord x s data l') k := by
  obtain ⟨h1, h2⟩ := stamp_updateRecord x s data l l' k
  by_cases hok : (updateRecord x s data l).2 = true
  · have hok' := h2 ▸ hok
    simp only [overwriteRecord, hok, hok', if_true]
    exact h1
  · rw [Bool.not_eq_true] at hok
    have hok' := h2 ▸ hok
    simp only [overwriteRecord, hok, hok', Bool.false_eq_true, if_false,
      updateRecord_fail _ hok, updateRecord_fail _ hok']
    exact stamp_redoInsert _ _ _ _ _ _

/-- A client operation leaves the page that redoing its UPDATE record gives. -/
theorem DataOp.run_spec {x x' : P} {op : DataOp} {s : Nat} {old new : Bytes} (hw : Wf x)
    (hi : inited x = true) (hne : ∀ s, readRecord x s ≠ some [])
    (h : op.run x = some (x', s, old, new)) (p : Nat) (k : Int) (lsn : Nat) :
    image old = readRecord x s ∧ (new = [] → old ≠ []) ∧
    redoFits x (.update p s old new k) = true ∧
    setPageLsn x' lsn = redoRecord x (.update p s old new k) lsn := by
  have hread : ∀ {s o}, readRecord x s = some o → o ≠ [] := fun ho h => hne _ (h ▸ ho)
  cases op with
  | insert data =>
    simp only [DataOp.run] at h
    split at h
    · simp at h
    · rename_i hcheck
      simp only [Bool.or_eq_true, decide_eq_true_eq, Bool.not_eq_true', not_or,
        Bool.not_eq_false] at hcheck
      obtain ⟨hd, hsize⟩ := hcheck
      rw [Option.map_eq_some_iff] at h
      obtain ⟨⟨y, u⟩, hins, heq⟩ := h
      simp only [Prod.mk.injEq] at heq
      obtain ⟨rfl, rfl, rfl, rfl⟩ := heq
      obtain ⟨hf, hr, rfl⟩ := insertRecord_spec hw hi hd hsize hins
      refine ⟨hr.symm, fun h => absurd h hd, by simp [redoFits, hf], ?_⟩
      simp only [redoRecord, if_true]
      exact stamp_redoInsert _ _ _ _ _ _
  | delete u =>
    simp only [DataOp.run, Option.map_eq_some_iff, Prod.mk.injEq] at h
    obtain ⟨o, ho, rfl, rfl, rfl, rfl⟩ := h
    have ho' := hread ho
    refine ⟨by rw [ho, image_of_ne ho'], fun _ => ho', by simp [redoFits, ho'], ?_⟩
    simp only [redoRecord, if_neg ho', if_true]
    exact stamp_deleteRecord _ _ _ _ _
  | update u data =>
    simp only [DataOp.run] at h
    split at h
    · simp at h
    · rename_i hcheck
      simp only [Bool.or_eq_true, decide_eq_true_eq, Bool.not_eq_true', not_or,
        Bool.not_eq_false] at hcheck
      obtain ⟨hd, hsize⟩ := hcheck
      rw [Option.bind_eq_some_iff] at h
      obtain ⟨o, ho, h⟩ := h
      have ho' := hread ho
      by_cases hok : (updateRecord x u data 0).2 = true
      · simp only [hok, if_true, Option.some.injEq, Prod.mk.injEq] at h
        obtain ⟨rfl, rfl, rfl, rfl⟩ := h
        refine ⟨by rw [ho, image_of_ne ho'], fun h => absurd h hd,
          by simp [redoFits, ho', hd, overwriteFits, hok, hsize], ?_⟩
        simp only [redoRecord, if_neg ho', if_neg hd]
        rw [← stamp_overwriteRecord x u data 0]
        simp only [overwriteRecord, hok, if_true]
      · rw [Bool.not_eq_true] at hok
        simp only [hok, Bool.false_eq_true, if_false, Option.bind_eq_some_iff, Prod.exists,
          updateRecord_fail 0 hok] at h
        obtain ⟨y, s', hins, h⟩ := h
        split at h
        · rename_i hs'
          subst hs'
          simp only [Option.some.injEq, Prod.mk.injEq] at h
          obtain ⟨rfl, rfl, rfl, rfl⟩ := h
          obtain ⟨hwd, -⟩ := deleteRecord_spec s' 0 hw
          obtain ⟨hf, -, rfl⟩ := insertRecord_spec hwd (by rw [inited_deleteRecord _ _ hw, hi]) hd hsize
            hins
          refine ⟨by rw [ho, image_of_ne ho'], fun h => absurd h hd,
            by simp [redoFits, ho', hd, overwriteFits, hok, hf], ?_⟩
          simp only [redoRecord, if_neg ho', if_neg hd]
          rw [← stamp_overwriteRecord x s' data 0]
          simp only [overwriteRecord, hok, Bool.false_eq_true, if_false, updateRecord_fail 0 hok]
        · cases h

/-- When the slot still holds what the UPDATE wrote, undoing it does to the
page what redoing its CLR does. -/
theorem undoRecord_eq_redoRecord {x : P} {s : Nat} {old new : Bytes} (p : Nat) (un : Option Nat)
    (hw : Wf x) (hnew : readRecord x s = image new) (lsn : Nat) :
    undoRecord x s old new lsn = redoRecord x (.clr p s old un) lsn := by
  simp only [undoRecord, redoRecord]
  by_cases ho : old = []
  · simp only [if_pos ho]
    exact stamp_deleteRecord _ _ _ _ _
  · simp only [if_neg ho]
    by_cases hn : new = []
    · subst hn
      rw [if_pos rfl]
      have hfail : (updateRecord x s old lsn).2 = false := by
        by_contra hok
        rw [Bool.not_eq_false] at hok
        obtain ⟨o, hread⟩ := updateRecord_live lsn hw hok
        rw [hnew] at hread
        cases hread
      simp only [overwriteRecord, hfail, Bool.false_eq_true, if_false, updateRecord_fail lsn hfail,
        deleteRecord_none 0 hw hnew]
      exact stamp_redoInsert _ _ _ _ _ _
    · rw [if_neg hn]
      exact stamp_overwriteRecord _ _ _ _ _ _

theorem redoFits_of_undoFits {x : P} {p s : Nat} {old new : Bytes} {un : Option Nat} (hw : Wf x)
    (hnew : readRecord x s = image new) (hf : undoFits x s old new = true) :
    redoFits x (.clr p s old un) = true := by
  simp only [undoFits] at hf
  simp only [redoFits]
  split at hf
  · rename_i ho
    rw [if_pos ho]
  · rename_i ho
    rw [if_neg ho]
    split at hf
    · rename_i hn
      subst hn
      have hfail : (updateRecord x s old 0).2 = false := by
        by_contra hok
        rw [Bool.not_eq_false] at hok
        obtain ⟨o, hread⟩ := updateRecord_live 0 hw hok
        rw [hnew] at hread
        cases hread
      rw [overwriteFits, hfail, if_neg (by simp), deleteRecord_none 0 hw hnew, hf]
    · exact hf

end Laws

end PersistX
