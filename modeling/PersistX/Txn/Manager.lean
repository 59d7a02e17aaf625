import PersistX.Page.SlotPage
import PersistX.Aries.LogManager
import PersistX.Aries.System

/-!
# PersistX — the transaction manager with its index

`TransactionManager` of `transaction_manager.cpp` with a `BTreeIndex`, call by
call: each call runs to its end, and the buffer pool is the function that serves
the pages (`Pool/Transparency.lean` says why it can be). The index is the map
from keys to RIDs that the tree represents.

`abort` is the code's loop along the undo chain; `undoLoop` takes a number of
iterations that it may do, and `Rollback.undoLoop` (`Txn/Rollback.lean`) says how
many are enough.
-/

namespace PersistX

open PageOps

variable {P : Type}

-- ---------------------------------------------------------------------------
-- The index as a map
-- ---------------------------------------------------------------------------

/-- The contents of the index. -/
abbrev IndexMap := Int → Option Rid

/-- `BTreeIndex::insert`: refused when the key has a valid RID. An invalid one gives way to the new
one, behind which its entry stays in the leaf. -/
def IndexMap.insert (m : IndexMap) (key : Int) (rid : Rid) : IndexMap :=
  if (m key).any Rid.isValid then m else fun k => if k = key then some rid else m k

/-- `BTreeIndex::remove`. -/
def IndexMap.remove (m : IndexMap) (key : Int) : IndexMap := fun k => if k = key then none else m k

theorem IndexMap.insert_of_none {m : IndexMap} {key : Int} (h : m key = none) (rid : Rid) :
    m.insert key rid = fun k => if k = key then some rid else m k := by
  rw [IndexMap.insert, h]
  rfl

theorem IndexMap.insert_of_valid {m : IndexMap} {key : Int} {r : Rid} (h : m key = some r)
    (hr : r.isValid = true) (rid : Rid) : m.insert key rid = m := by
  rw [IndexMap.insert, h, Option.any_some, if_pos hr]

theorem IndexMap.remove_insert {m : IndexMap} {key : Int} (h : m key = none) (rid : Rid) :
    (m.insert key rid).remove key = m := by
  rw [insert_of_none h]
  funext k
  simp only [remove]
  split
  · rename_i hk
    rw [hk, h]
  · rfl

theorem IndexMap.insert_remove {m : IndexMap} {key : Int} {rid : Rid} (h : m key = some rid) :
    (m.remove key).insert key rid = m := by
  have hnone : m.remove key key = none := if_pos rfl
  rw [insert_of_none hnone]
  funext k
  split
  · rename_i hk
    rw [hk, h]
  · rename_i hk
    exact if_neg hk

-- ---------------------------------------------------------------------------
-- The calls
-- ---------------------------------------------------------------------------

/-- What the transaction manager works on. -/
structure Database (P : Type) where
  lm : LogManager
  /-- The page that `fetch_page` serves. -/
  heap : Nat → P
  index : IndexMap
  /-- The ATT: the `prev_lsn` of each active transaction. -/
  att : AList fun _ : Nat => Nat
  nextTxnId : Nat

namespace Database

/-- Change a page in the pool. -/
def setPage (db : Database P) (p : Nat) (x : P) : Database P :=
  { db with heap := fun q => if q = p then x else db.heap q }

/-- `begin`: the transaction gets the id `next_txn_id_`. -/
def begin (db : Database P) : Database P :=
  let t := db.nextTxnId
  let (lm, lsn) := db.lm.append t none .begin
  { db with lm, att := db.att.insert t lsn, nextTxnId := t + 1 }

/-- `commit`. -/
def commit (db : Database P) (t : Nat) : Option (Database P) :=
  (db.att.lookup t).map fun prev =>
    let (lm, commitLsn) := db.lm.append t (some prev) .commit
    let lm := lm.flush commitLsn
    { db with lm := (lm.append t (some commitLsn) .txnEnd).1, att := db.att.erase t }

/-- `log_update`, with the LSN it returns. -/
def logUpdate (db : Database P) (t p slot : Nat) (old new : Bytes) (key : Int) :
    Option (Database P × Nat) :=
  (db.att.lookup t).map fun prev =>
    let (lm, lsn) := db.lm.append t (some prev) (.update p slot old new key)
    ({ db with lm, att := db.att.insert t lsn }, lsn)

variable [PageOps P]

/-- `read_record` on the page. -/
def read (db : Database P) (p slot : Nat) : Option Bytes := readRecord (db.heap p) slot

/-- `set_page_lsn`, with the page fetched again. -/
def stampPage (db : Database P) (p lsn : Nat) : Database P :=
  db.setPage p (setPageLsn (db.heap p) lsn)

/-- `abort`, the UPDATE branch of the loop: undo on the page and in the index,
log the CLR, stamp the page. -/
def undoUpdate (db : Database P) (t last : Nat) (undoNext : Option Nat) (p slot : Nat)
    (old new : Bytes) (key : Int) : Database P × Nat :=
  let index :=
    if old = [] then db.index.remove key
    else if new = [] then db.index.insert key ⟨p, slot⟩
    else db.index
  let (lm, clrLsn) := db.lm.append t (some last) (.clr p slot old undoNext)
  ({ db with lm, index }.setPage p (undoRecord (db.heap p) slot old new clrLsn), clrLsn)

/-- `abort`, one iteration of the loop at `undo_lsn = u`. Gives the transaction's
`prev_lsn` and the next `undo_lsn`, `none` where the loop is left. -/
def undoOne (db : Database P) (t last u : Nat) : Database P × Nat × Option Nat :=
  let (lm, rec) := db.lm.readRecordAtLsn u
  let db := { db with lm }
  match rec with
  | none => (db, last, none)
  | some r =>
    match r.body with
    | .begin => (db, last, none)
    | .update p slot old new key =>
      let (db, clrLsn) := db.undoUpdate t last r.prevLsn p slot old new key
      (db, clrLsn, r.prevLsn)
    | .clr _ _ _ undoNext => (db, last, undoNext)
    | _ => (db, last, r.prevLsn)

/-- `abort`, the loop, for at most `fuel` iterations. -/
def undoLoop : Nat → Database P → Nat → Nat → Option Nat → Option (Database P × Nat)
  | _, db, _, last, none => some (db, last)
  | 0, _, _, _, some _ => none
  | fuel + 1, db, t, last, some u =>
    let (db, last, next) := db.undoOne t last u
    undoLoop fuel db t last next

/-- `abort`: the ABORT record, with the undo starting point saved before it, the
loop, TXN_END, and out of the ATT. -/
def abort (fuel : Nat) (db : Database P) (t : Nat) : Option (Database P) :=
  (db.att.lookup t).bind fun prev =>
    let (lm, abortLsn) := db.lm.append t (some prev) .abort
    (undoLoop fuel { db with lm } t abortLsn (some prev)).map fun (db, last) =>
      { db with lm := (db.lm.append t (some last) .txnEnd).1, att := db.att.erase t }

/-- What the loop forces back at `undo_lsn = u` has room on its page. -/
def roomAt (db : Database P) (u : Nat) : Bool :=
  match (db.lm.readRecordAtLsn u).2.map Record.body with
  | some (.update p slot old new _) => undoFits (db.heap p) slot old new
  | _ => true

/-- All that the loop forces back has room on its page. -/
def undoRoom : Nat → Database P → Nat → Nat → Option Nat → Bool
  | _, _, _, _, none => true
  | 0, _, _, _, some _ => true
  | fuel + 1, db, t, last, some u =>
    db.roomAt u &&
    let (db, last, next) := db.undoOne t last u
    undoRoom fuel db t last next

/-- The same for the whole of `abort`. -/
def abortRoom (fuel : Nat) (db : Database P) (t : Nat) : Bool :=
  (db.att.lookup t).all fun prev =>
    let (lm, abortLsn) := db.lm.append t (some prev) .abort
    undoRoom fuel { db with lm } t abortLsn (some prev)

end Database

-- ---------------------------------------------------------------------------
-- The operations of a client
-- ---------------------------------------------------------------------------

/-- One data operation of a transaction, with its key. -/
inductive TxnOp where
  /-- `insert_record` on page `p`, index insert, `log_update`. -/
  | insert (p : Nat) (data : Bytes) (key : Int)
  /-- `delete_record` of the record the index has for the key, index remove, `log_update`. -/
  | delete (key : Int)
  /-- An update at the same RID, logged with both images. -/
  | update (rid : Rid) (data : Bytes) (key : Int)
  deriving DecidableEq, Repr

/-- The operation as transaction `t` does it; `none` when it is refused. -/
def TxnOp.run [PageOps P] (t : Nat) (db : Database P) : TxnOp → Option (Database P)
  | .insert p data key =>
    if (db.index key).isSome then none
    else
      (insertRecord (db.heap p) data 0).bind fun (x, slot) =>
        let db := { db.setPage p x with index := db.index.insert key ⟨p, slot⟩ }
        (db.logUpdate t p slot [] data key).map fun (db, lsn) => db.stampPage p lsn
  | .delete key =>
    (db.index key).bind fun rid =>
      (db.read rid.pageId rid.slotId).bind fun old =>
        let x := (deleteRecord (db.heap rid.pageId) rid.slotId 0).1
        let db := { db.setPage rid.pageId x with index := db.index.remove key }
        (db.logUpdate t rid.pageId rid.slotId old [] key).map fun (db, lsn) =>
          db.stampPage rid.pageId lsn
  | .update rid data key =>
    if data = [] then none
    else
      (db.read rid.pageId rid.slotId).bind fun old =>
        let db := db.setPage rid.pageId
          (overwriteRecord (db.heap rid.pageId) rid.slotId data 0)
        (db.logUpdate t rid.pageId rid.slotId old data key).map fun (db, lsn) =>
          db.stampPage rid.pageId lsn

end PersistX
