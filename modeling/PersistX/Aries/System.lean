import PersistX.Page.Interface
import PersistX.Aries.LogManager
import PersistX.Aries.Analysis
import Mathlib.Data.Finset.Max

/-!
# PersistX — the storage system, step by step

The managers of PersistX around one log and one page file, over any `PageOps`:
`BufferManager`, `TransactionManager` (without an index), `CheckpointManager`
and `RecoveryManager`. Each event is one piece of work that the code does not
interrupt: a data operation with its `log_update`, one iteration of the undo
loop of `abort`, one iteration of a recovery loop, the flush or eviction of
one page, one of the steps of `checkpoint()`, or a crash. A run is any
sequence of events; where the code has a loop, the crash may come between any
two iterations.

* Which frame is evicted, and when a page is flushed, is left to the run:
  `evict` and `flushPage` may happen between any two steps.
* The page file keeps every image written for a page, newest first. `readPage`
  sees the newest one; after a crash the page is any image written earlier,
  or zeros (`crash`).
* `checkpoint()` runs on the one thread: while it is under way only its own
  steps and a crash are possible.
-/

namespace PersistX

open PageOps

variable {P : Type} [PageOps P]

-- ---------------------------------------------------------------------------
-- Buffer manager and page file
-- ---------------------------------------------------------------------------

/-- A frame of the buffer pool. -/
structure Frame (P : Type) where
  page : P
  dirty : Bool

/-- `BufferManager` with its `DiskManager`. -/
structure BufferManager (P : Type) where
  /-- The frames, by page id (`page_table_`). -/
  frames : AList fun _ : Nat => Frame P
  /-- The images written for each page, newest first. -/
  images : Nat → List P

namespace BufferManager

/-- `DiskManager::read_page`: zeros past the end of the file. -/
def readPage (bm : BufferManager P) (p : Nat) : P := (bm.images p).headD zero

/-- `DiskManager::write_page`. -/
def writePage (bm : BufferManager P) (p : Nat) (x : P) : BufferManager P :=
  { bm with images := fun q => if q = p then x :: bm.images q else bm.images q }

/-- The page that `fetch_page` would return. -/
def page (bm : BufferManager P) (p : Nat) : P :=
  match bm.frames.lookup p with
  | some f => f.page
  | none => bm.readPage p

/-- `fetch_page`. -/
def fetchPage (bm : BufferManager P) (p : Nat) : BufferManager P × P :=
  match bm.frames.lookup p with
  | some f => (bm, f.page)
  | none => ({ bm with frames := bm.frames.insert p ⟨bm.readPage p, false⟩ }, bm.readPage p)

/-- `unpin_page`, for a page that was changed in its frame to `x`. -/
def unpinPage (bm : BufferManager P) (p : Nat) (x : P) (isDirty : Bool) : BufferManager P :=
  match bm.frames.lookup p with
  | some f => { bm with frames := bm.frames.insert p ⟨x, f.dirty || isDirty⟩ }
  | none => bm

/-- The write of a frame's page, with `dirty_[frame] = false`. -/
def writeFrame (bm : BufferManager P) (p : Nat) (f : Frame P) : BufferManager P :=
  { bm.writePage p f.page with frames := bm.frames.insert p ⟨f.page, false⟩ }

/-- `get_dirty_pages`. -/
def getDirtyPages (bm : BufferManager P) : List (Nat × Nat) :=
  (bm.frames.entries.filter (·.2.dirty)).map fun e => (e.1, pageLsn e.2.page)

end BufferManager

-- ---------------------------------------------------------------------------
-- Transactions, checkpoints, recovery
-- ---------------------------------------------------------------------------

/-- How far the code is with a transaction. -/
inductive TxnPhase where
  | growing
  /-- In `commit`: COMMIT is appended, the log not yet forced. -/
  | committing (commitLsn : Nat)
  /-- In `commit`: the log is forced. -/
  | committed (commitLsn : Nat)
  /-- In the undo loop of `abort`, about to read the record at `undoLsn`. -/
  | aborting (undoLsn : Option Nat)
  /-- In `abort`, behind the undo loop. -/
  | aborted
  deriving DecidableEq, Repr

/-- `Transaction`. -/
structure Txn where
  prevLsn : Nat
  phase : TxnPhase
  deriving DecidableEq, Repr

/-- `TransactionManager`. -/
structure TransactionManager where
  att : AList fun _ : Nat => Txn
  nextTxnId : Nat

/-- A new `TransactionManager`. -/
def TransactionManager.new : TransactionManager := ⟨∅, 0⟩

/-- `get_att_snapshot`. -/
def TransactionManager.getAttSnapshot (tm : TransactionManager) : List (Nat × Nat) :=
  tm.att.entries.map fun e => (e.1, e.2.prevLsn)

/-- Where the system is: in normal operation, crashed, or in `recover()`. -/
inductive Mode where
  | normal
  | down
  /-- In `redo()`, with the records still to look at. -/
  | redo (rest : List Record) (dpt att : Table)
  /-- In the loop of `undo()`. -/
  | undo (toUndo : Finset Nat) (att : Table)
  /-- In the `flush_all_pages()` that ends `recover()`. -/
  | flushing

/-- Whether transactions can run. -/
def Mode.isNormal : Mode → Bool
  | .normal => true
  | _ => false

/-- How far `checkpoint()` is. -/
inductive Ckpt where
  | idle
  | begun
  | snapped (att dpt : List (Nat × Nat))
  /-- In `flush_all_pages`; `forced` is the page whose `enforce_wal` is done. -/
  | writing (endLsn : Nat) (forced : Option Nat)
  deriving DecidableEq, Repr

/-- The whole system. -/
structure Sys (P : Type) where
  lm : LogManager
  bm : BufferManager P
  tm : TransactionManager
  mode : Mode
  ckpt : Ckpt

namespace Sys

/-- An empty log and an empty page file. -/
def init : Sys P := ⟨.ofFile [], ⟨∅, fun _ => []⟩, .new, .normal, .idle⟩

/-- The log, flushed or not. -/
abbrev log (s : Sys P) : List Record := s.lm.log

/-- `read_record` on the fetched page. -/
def read (s : Sys P) (p slot : Nat) : Option Bytes := readRecord (s.bm.page p) slot

/-- No recovery and no checkpoint under way. -/
def running (s : Sys P) : Bool := s.mode.isNormal && s.ckpt == .idle

/-- Change a transaction's entry. -/
def setTxn (s : Sys P) (t : Nat) (x : Txn) : Sys P :=
  { s with tm := { s.tm with att := s.tm.att.insert t x } }

/-- `att_.erase(txn_id)`. -/
def eraseTxn (s : Sys P) (t : Nat) : Sys P :=
  { s with tm := { s.tm with att := s.tm.att.erase t } }

/-! ### `TransactionManager` -/

/-- `begin()`. -/
def begin (s : Sys P) : Sys P :=
  let t := s.tm.nextTxnId
  let (lm, lsn) := s.lm.append t none .begin
  { s with lm, tm := ⟨s.tm.att.insert t ⟨lsn, .growing⟩, t + 1⟩ }

/-- A data operation as `log_update` documents it: on the pinned page capture
the before-image and change the slot, `log_update`, `set_page_lsn`, unpin dirty. -/
def update (s : Sys P) (t p : Nat) (op : DataOp) (key : Int) : Option (Sys P) :=
  match s.tm.att.lookup t with
  | some ⟨prev, .growing⟩ =>
    let (bm, x) := s.bm.fetchPage p
    (op.run x).map fun (x', slot, old, new) =>
      let (lm, lsn) := s.lm.append t (some prev) (.update p slot old new key)
      { s with lm, bm := bm.unpinPage p (setPageLsn x' lsn) true }.setTxn t ⟨lsn, .growing⟩
  | _ => none

/-- `commit`, step 1: the COMMIT record. -/
def commitLog (s : Sys P) (t : Nat) : Option (Sys P) :=
  match s.tm.att.lookup t with
  | some ⟨prev, .growing⟩ =>
    let (lm, lsn) := s.lm.append t (some prev) .commit
    some ({ s with lm }.setTxn t ⟨lsn, .committing lsn⟩)
  | _ => none

/-- `commit`, step 2: force the log. -/
def commitForce (s : Sys P) (t : Nat) : Option (Sys P) :=
  match s.tm.att.lookup t with
  | some ⟨prev, .committing c⟩ => some ({ s with lm := s.lm.flush c }.setTxn t ⟨prev, .committed c⟩)
  | _ => none

/-- `commit`, step 3: TXN_END, and out of the ATT. -/
def commitEnd (s : Sys P) (t : Nat) : Option (Sys P) :=
  match s.tm.att.lookup t with
  | some ⟨_, .committed c⟩ => some ({ s with lm := (s.lm.append t (some c) .txnEnd).1 }.eraseTxn t)
  | _ => none

/-- `abort`, up to the loop: the ABORT record, with the undo starting point saved before it. -/
def abortLog (s : Sys P) (t : Nat) : Option (Sys P) :=
  match s.tm.att.lookup t with
  | some ⟨prev, .growing⟩ =>
    let (lm, lsn) := s.lm.append t (some prev) .abort
    some ({ s with lm }.setTxn t ⟨lsn, .aborting (some prev)⟩)
  | _ => none

/-- Undo one UPDATE on its page and log the CLR; gives the CLR's LSN. -/
def undoUpdate (s : Sys P) (t last : Nat) (undoNext : Option Nat) (p slot : Nat)
    (old new : Bytes) : Sys P × Nat :=
  let (bm, x) := s.bm.fetchPage p
  let (lm, clrLsn) := s.lm.append t (some last) (.clr p slot old undoNext)
  ({ s with lm, bm := bm.unpinPage p (undoRecord x slot old new clrLsn) true }, clrLsn)

/-- `abort`, one iteration of the undo loop. -/
def abortStep (s : Sys P) (t : Nat) : Option (Sys P) :=
  match s.tm.att.lookup t with
  | some ⟨last, .aborting (some u)⟩ =>
    let (lm, rec) := s.lm.readRecordAtLsn u
    let s := { s with lm }
    match rec with
    | none => some (s.setTxn t ⟨last, .aborted⟩)
    | some r =>
      match r.body with
      | .begin => some (s.setTxn t ⟨last, .aborted⟩)
      | .update p slot old new _ =>
        let (s, clrLsn) := s.undoUpdate t last r.prevLsn p slot old new
        some (s.setTxn t ⟨clrLsn, .aborting r.prevLsn⟩)
      | .clr _ _ _ undoNext => some (s.setTxn t ⟨last, .aborting undoNext⟩)
      | _ => some (s.setTxn t ⟨last, .aborting r.prevLsn⟩)
  | some ⟨last, .aborting none⟩ => some (s.setTxn t ⟨last, .aborted⟩)
  | _ => none

/-- `abort`, behind the loop: TXN_END, and out of the ATT. -/
def abortEnd (s : Sys P) (t : Nat) : Option (Sys P) :=
  match s.tm.att.lookup t with
  | some ⟨last, .aborted⟩ =>
    some ({ s with lm := (s.lm.append t (some last) .txnEnd).1 }.eraseTxn t)
  | _ => none

/-! ### `BufferManager` -/

/-- `new_page`, with page id `p`, unpinned dirty or not. -/
def newPage (s : Sys P) (p : Nat) (isDirty : Bool) : Sys P :=
  { s with bm := { s.bm with frames := s.bm.frames.insert p ⟨PageOps.init p, isDirty⟩ } }

/-- `flush_page`: `enforce_wal`, write, clean. -/
def flushPage (s : Sys P) (p : Nat) : Sys P :=
  match s.bm.frames.lookup p with
  | some f => { s with lm := s.lm.flush (pageLsn f.page), bm := s.bm.writeFrame p f }
  | none => s

/-- The eviction of page `p` by a later `fetch_page` or `new_page`. -/
def evict (s : Sys P) (p : Nat) : Sys P :=
  match s.bm.frames.lookup p with
  | some f =>
    let s := if f.dirty then s.flushPage p else s
    { s with bm := { s.bm with frames := s.bm.frames.erase p } }
  | none => s

/-! ### `CheckpointManager::checkpoint` -/

/-- Step 1: CHECKPOINT_BEGIN. -/
def ckptBegin (s : Sys P) : Sys P :=
  { s with lm := (s.lm.append invalidU64 none .checkpointBegin).1, ckpt := .begun }

/-- Step 2: the two snapshots. -/
def ckptSnapshot (s : Sys P) : Sys P :=
  { s with ckpt := .snapped s.tm.getAttSnapshot s.bm.getDirtyPages }

/-- Step 3: CHECKPOINT_END. -/
def ckptEnd (s : Sys P) (att dpt : List (Nat × Nat)) : Sys P :=
  let (lm, lsn) := s.lm.append invalidU64 none (.checkpointEnd att dpt)
  { s with lm, ckpt := .writing lsn none }

/-- Step 4, for one dirty frame: `enforce_wal`. -/
def ckptForce (s : Sys P) (endLsn p : Nat) (f : Frame P) : Sys P :=
  { s with lm := s.lm.flush (pageLsn f.page), ckpt := .writing endLsn (some p) }

/-- Step 4, for the same frame: `write_page`. -/
def ckptWrite (s : Sys P) (endLsn p : Nat) (f : Frame P) : Sys P :=
  { s with bm := s.bm.writeFrame p f, ckpt := .writing endLsn none }

/-- Step 5: flush the log up to CHECKPOINT_END. -/
def ckptFinish (s : Sys P) (endLsn : Nat) : Sys P :=
  { s with lm := s.lm.flush endLsn, ckpt := .idle }

/-! ### `RecoveryManager::recover` -/

/-- The smallest `rec_lsn` of the DPT: where `redo()` starts. -/
def startLsn (dpt : Table) : Option Nat :=
  dpt.entries.foldl (fun start e =>
    match start with
    | none => some e.2
    | some l => if e.2 < l then some e.2 else start) none

/-- The body of the loop of `redo()`. -/
def redoOne (dpt : Table) (bm : BufferManager P) (r : Record) : BufferManager P :=
  if (startLsn dpt).any (r.lsn < ·) then bm
  else
    match r.body.page? with
    | none => bm
    | some p =>
      match dpt.lookup p with
      | none => bm
      | some recLsn =>
        if r.lsn < recLsn then bm
        else
          let (bm, x) := bm.fetchPage p
          if pageLsn x ≥ r.lsn then bm.unpinPage p x false
          else bm.unpinPage p (redoRecord x r.body r.lsn) true

/-- The managers are constructed anew, the log is read, and recovery starts
with the given outcome of the analysis. -/
def startRecovery (s : Sys P) (tables : Table × Table) : Sys P :=
  { s with
    lm := (LogManager.ofFile s.lm.file).readLog.1
    mode := .redo (if (startLsn tables.2).isNone then [] else s.lm.file) tables.2 tables.1 }

/-- Behind the loop of `undo()`: flush the log. -/
def finishUndo (s : Sys P) : Sys P := { s with lm := s.lm.flushAll, mode := .flushing }

/-- The body of the loop of `undo()`, for the largest LSN of `to_undo`. -/
def undoOne (s : Sys P) (toUndo : Finset Nat) (att : Table) (lsn : Nat) : Sys P :=
  let toUndo := toUndo.erase lsn
  let next : Option Nat → Finset Nat
    | some l => insert l toUndo
    | none => toUndo
  let (lm, rec) := s.lm.readRecordAtLsn lsn
  let s := { s with lm }
  match rec with
  | none => s.finishUndo
  | some r =>
    let t := r.txnId
    let last := (att.lookup t).getD 0
    let txnEnd : Sys P :=
      { s with lm := (s.lm.append t (some last) .txnEnd).1, mode := .undo toUndo (att.erase t) }
    match r.body with
    | .update p slot old new _ =>
      let (s, clrLsn) := s.undoUpdate t last r.prevLsn p slot old new
      { s with mode := .undo (next r.prevLsn) (att.insert t clrLsn) }
    | .clr _ _ _ (some l) => { s with mode := .undo (insert l toUndo) att }
    | .clr _ _ _ none => txnEnd
    | .begin => txnEnd
    | _ => { s with mode := .undo (next r.prevLsn) att }

/-- One step of reopening and `recover()`; nothing to do in normal operation. -/
def recoverStep (s : Sys P) : Sys P :=
  match s.mode with
  | .normal => s
  | .down => s.startRecovery (analyze s.lm.file)
  | .redo [] _ att => { s with mode := .undo (att.entries.map (·.2)).toFinset att }
  | .redo (r :: rest) dpt att => { s with bm := redoOne dpt s.bm r, mode := .redo rest dpt att }
  | .undo toUndo att =>
    match toUndo.max with
    | none => s.finishUndo
    | some lsn => s.undoOne toUndo att lsn
  | .flushing =>
    match s.bm.frames.entries.find? (·.2.dirty) with
    | some e => s.flushPage e.1
    | none => { s with tm := .new, mode := .normal }

/-- Power off: the pool and the unflushed log are gone, page `p` is `choice p`. -/
def crash (s : Sys P) (choice : Nat → P) : Sys P :=
  { lm := .ofFile s.lm.file
    bm := ⟨∅, fun p => choice p :: s.bm.images p⟩
    tm := .new
    mode := .down
    ckpt := .idle }

end Sys

-- ---------------------------------------------------------------------------
-- Events
-- ---------------------------------------------------------------------------

/-- One piece of work. -/
inductive Event (P : Type) where
  | begin
  | update (t p : Nat) (op : DataOp) (key : Int)
  | commitLog (t : Nat)
  | commitForce (t : Nat)
  | commitEnd (t : Nat)
  | abortLog (t : Nat)
  | abortStep (t : Nat)
  | abortEnd (t : Nat)
  | newPage (p : Nat) (isDirty : Bool)
  | flushPage (p : Nat)
  | evict (p : Nat)
  | flushLog
  | ckptBegin
  | ckptSnapshot
  | ckptEnd
  | ckptForce (p : Nat)
  | ckptWrite
  | ckptFinish
  | crash (choice : Nat → P)
  | recoverStep

/-- What the code does; `none` where it would not be there to do it. -/
def step (s : Sys P) : Event P → Option (Sys P)
  | .begin => if s.running then some s.begin else none
  | .update t p op key => if s.running then s.update t p op key else none
  | .commitLog t => if s.running then s.commitLog t else none
  | .commitForce t => if s.running then s.commitForce t else none
  | .commitEnd t => if s.running then s.commitEnd t else none
  | .abortLog t => if s.running then s.abortLog t else none
  | .abortStep t => if s.running then s.abortStep t else none
  | .abortEnd t => if s.running then s.abortEnd t else none
  | .newPage p isDirty => if s.running then some (s.newPage p isDirty) else none
  | .flushPage p => if s.ckpt = .idle then some (s.flushPage p) else none
  | .evict p => if s.ckpt = .idle then some (s.evict p) else none
  | .flushLog => if s.ckpt = .idle then some { s with lm := s.lm.flushAll } else none
  | .ckptBegin => if s.running then some s.ckptBegin else none
  | .ckptSnapshot => if s.ckpt = .begun then some s.ckptSnapshot else none
  | .ckptEnd =>
    match s.ckpt with
    | .snapped att dpt => some (s.ckptEnd att dpt)
    | _ => none
  | .ckptForce p =>
    match s.ckpt, s.bm.frames.lookup p with
    | .writing e none, some ⟨x, true⟩ => some (s.ckptForce e p ⟨x, true⟩)
    | _, _ => none
  | .ckptWrite =>
    match s.ckpt with
    | .writing e (some p) => (s.bm.frames.lookup p).map fun f => s.ckptWrite e p f
    | _ => none
  | .ckptFinish =>
    match s.ckpt with
    | .writing e none =>
      if s.bm.frames.entries.all (!·.2.dirty) then some (s.ckptFinish e) else none
    | _ => none
  | .crash choice => some (s.crash choice)
  | .recoverStep => if s.mode.isNormal then none else some s.recoverStep

end PersistX
