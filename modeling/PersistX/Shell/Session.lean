import PersistX.Shell.Announced
import PersistX.Aries.FromFiles
import PersistX.Aries.Runs

/-!
# PersistX — one database through many runs of the shell

A database is its two files. `Shell` opens them (`init_storage`): with no record in
the log it starts a fresh tree and a fresh data page, otherwise it runs `recover()`
and builds the index anew from the data pages that the log names. Then it executes
commands (`Machine`, `Shell/Stages.lean`) until the process goes: by `crash`, by
a power failure, or by `exit`, which writes the dirty pages and the log buffer first.
The recovery is that of `Aries/System.lean`.

Beside a session, `Watched` keeps the key-value store that its commands describe:
a command counts when it is through, and what no commit covers is gone with the
process.
-/

namespace PersistX

open PageOps Transition

-- ---------------------------------------------------------------------------
-- Opening the files
-- ---------------------------------------------------------------------------

/-- `max_pid` of `init_storage`: one more than the largest page id in the log. -/
def maxPageId (records : List Record) : Nat :=
  records.foldl (fun n r =>
    match r.body.page? with
    | some p => if p ≥ n then p + 1 else n
    | none => n) 0

/-- `data_pages` of `init_storage`: the pages that the log names, in the order of the set. -/
def dataPages (records : List Record) : List Nat :=
  (List.range (maxPageId records)).filter fun p => records.any fun r => r.body.page? == some p

/-- The two loops over pages and slots: all RIDs that are looked at. -/
def scannedRids (heap : Nat → Page) (pages : List Nat) : List Rid :=
  pages.flatMap fun p => (List.range (heap p).slotCount).map fun s => ⟨p, s⟩

/-- The body of the inner loop. `index_->insert` leaves a key alone that is there. -/
def indexRid (heap : Nat → Page) (index : IndexMap) (rid : Rid) : IndexMap :=
  match readRecord (heap rid.pageId) rid.slotId with
  | none => index
  | some data => if data.length < 8 then index else index.insert (recordKey data) rid

/-- `Rebuild B+ tree index from recovered data pages.` -/
def rebuildIndex (heap : Nat → Page) (pages : List Nat) : IndexMap :=
  (scannedRids heap pages).foldl (indexRid heap) fun _ => none

namespace Machine

/-- `init_storage` where the log is empty and the file has `n` pages: the root of the index
is page `n`, the data page is the one behind it. -/
def fresh (disk : Nat → Page) (n : Nat) : Machine where
  shell :=
    { db :=
        { lm := .ofFile []
          heap := fun p => if p = n + 1 then init (n + 1) else disk p
          index := fun _ => none
          att := ∅
          nextTxnId := 0 }
      activeTxn := none
      dataPage := n + 1
      nextPageId := n + 2
      totalPuts := 0
      nextFillKey := 0 }
  stage := .ready
  disk := disk
  since := fun _ => 0
  writes := []

/-- `init_storage` behind `recover()`, with `records` the log before it and `numPages` the page
counter of the new disk manager; the new tree takes its root and `grow` pages more. -/
def rebuilt (s : Sys Page) (records : List Record) (numPages grow : Nat) : Machine where
  shell :=
    { db :=
        { lm := s.lm
          heap := s.bm.page
          index := rebuildIndex s.bm.page (dataPages records)
          att := ∅
          nextTxnId := 0 }
      activeTxn := none
      dataPage := (dataPages records).getLast?.getD invalidPageId
      nextPageId := max numPages (maxPageId records) + 1 + grow
      totalPuts := 0
      nextFillKey := 0 }
  stage := .ready
  disk := s.bm.readPage
  since := fun _ => s.lm.log.length
  writes := []

/-- The log, the pages, the index or the transactions have changed. -/
def withDb (m : Machine) (db : Database Page) : Machine := { m with shell := { m.shell with db } }

/-- `flush_all` of the log. -/
def flushLog (m : Machine) : Machine := m.withDb { m.shell.db with lm := m.shell.db.lm.flushAll }

/-- `enforce_wal` for a page with that LSN. -/
def flushLogTo (m : Machine) (upTo : Nat) : Machine :=
  m.withDb { m.shell.db with lm := m.shell.db.lm.flush upTo }

/-- The index has taken pages. -/
def grow (m : Machine) (k : Nat) : Machine :=
  { m with shell := { m.shell with nextPageId := m.shell.nextPageId + k } }

end Machine

-- ---------------------------------------------------------------------------
-- The session
-- ---------------------------------------------------------------------------

namespace Session

/-- What becomes of the files. -/
inductive Phase where
  /-- No process. -/
  | down (file : List Record) (disk : Nat → Page)
  /-- In `recover()`, or behind it and before the index is there. -/
  | recovering (s : Sys Page) (records : List Record) (numPages : Nat)
  | running (m : Machine)
  /-- In the undo loop of `abort`: `last` is the transaction's `prev_lsn`, the record at `undo` is next. -/
  | aborting (m : Machine) (t last : Nat) (undo : Option Nat)

inductive Event where
  | open
  /-- The next piece of work of `recover()`. -/
  | recoverStep
  /-- A page is written while `recover()` is under way, or leaves the pool. -/
  | flushPage (p : Nat)
  | evict (p : Nat)
  /-- The index is built; it takes `grow` pages beside its root. -/
  | rebuild (grow : Nat)
  /-- A command begins or goes on, or a data page is written. -/
  | work (e : Machine.Event)
  /-- The node of the index on page `q` is written. -/
  | writeNode (q upTo : Nat)
  /-- `flush_all` of the log. -/
  | flushLog
  | begin
  | commit
  /-- The ABORT record, an iteration of the undo loop, in which the index takes `grow` pages, and
  the TXN_END. -/
  | abort
  | abortStep (grow : Nat)
  | abortEnd
  | crash

end Session

structure Session where
  phase : Session.Phase
  /-- How many pages the database file has. -/
  filePages : Nat

namespace Session

/-- No files yet. -/
def init : Session := ⟨.down [] fun _ => zero, 0⟩

/-- The page is written. -/
def wrote (x : Session) (p : Option Nat) (phase : Phase) : Session :=
  ⟨phase, p.elim x.filePages fun p => max x.filePages (p + 1)⟩

/-- The page, if it is in the pool and `dirty` is what its frame says. -/
def inPool (s : Sys Page) (p : Nat) (check : Bool → Bool) : Option Nat :=
  match s.bm.frames.lookup p with
  | some f => if check f.dirty then some p else none
  | none => none

/-- The page that a step of the machine writes. -/
def written : Machine.Event → Option Nat
  | .write p => some p
  | _ => none

/-- The shell has changed and no command is under way. -/
def between (x : Session) (m : Machine) (s : Option (Shell Page)) : Option Session :=
  if m.stage = .ready then s.map fun s => ⟨.running { m with shell := s }, x.filePages⟩ else none

/-- `abort` up to the loop. -/
def abort (x : Session) (m : Machine) : Option Session :=
  if m.stage = .ready then
    match m.shell.activeTxn with
    | none => some x
    | some t => (m.shell.db.att.lookup t).map fun prev =>
      let (lm, abortLsn) := m.shell.db.lm.append t (some prev) .abort
      ⟨.aborting (m.withDb { m.shell.db with lm }) t abortLsn (some prev), x.filePages⟩
  else none

/-- The process starts. -/
def stepDown (x : Session) (file : List Record) (disk : Nat → Page) : Event → Option Session
  | .open =>
    some ⟨if file = [] then .running (.fresh disk x.filePages)
      else .recovering (reopened file disk).recoverStep file x.filePages, x.filePages⟩
  | _ => none

/-- `recover()` goes on, or it is through and the index is built. -/
def stepRecovering (x : Session) (s : Sys Page) (records : List Record) (n : Nat) : Event → Option Session
  | .recoverStep =>
    if s.mode.isNormal then none else some (x.wrote s.flushedNext (.recovering s.recoverStep records n))
  | .flushPage p => some (x.wrote (inPool s p fun _ => true) (.recovering (s.flushPage p) records n))
  | .evict p => some (x.wrote (inPool s p id) (.recovering (s.evict p) records n))
  | .rebuild grow =>
    if s.mode.isNormal then some ⟨.running (.rebuilt s records n grow), x.filePages⟩ else none
  | .crash => some ⟨.down s.lm.file s.bm.readPage, x.filePages⟩
  | _ => none

def stepRunning (x : Session) (m : Machine) : Event → Option Session
  | .work (.writeNode _) => none
  | .work e => (m.step e).map fun m => x.wrote (written e) (.running m)
  | .writeNode q upTo =>
    if q < m.shell.nextPageId then some (x.wrote (some q) (.running (m.flushLogTo upTo))) else none
  | .flushLog => some ⟨.running m.flushLog, x.filePages⟩
  | .begin => x.between m (some m.shell.begin)
  | .commit => x.between m m.shell.commit
  | .abort => x.abort m
  | .crash => some ⟨.down m.shell.db.lm.file m.disk, x.filePages⟩
  | _ => none

def stepAborting (x : Session) (m : Machine) (t last : Nat) (undo : Option Nat) : Event → Option Session
  | .abortStep grow => undo.map fun u =>
    let (db, last, undo) := m.shell.db.undoOne t last u
    ⟨.aborting ((m.withDb db).grow grow) t last undo, x.filePages⟩
  | .abortEnd =>
    let db := { m.shell.db with
      lm := (m.shell.db.lm.append t (some last) .txnEnd).1
      att := m.shell.db.att.erase t }
    if undo = none then
      some ⟨.running { m with shell := { m.shell with db, activeTxn := none } }, x.filePages⟩
    else none
  | .work (.write p) =>
    if p < m.shell.nextPageId then some (x.wrote (some p) (.aborting (m.writePage p) t last undo)) else none
  | .writeNode q upTo =>
    if q < m.shell.nextPageId then some (x.wrote (some q) (.aborting (m.flushLogTo upTo) t last undo))
    else none
  | .flushLog => some ⟨.aborting m.flushLog t last undo, x.filePages⟩
  | .crash => some ⟨.down m.shell.db.lm.file m.disk, x.filePages⟩
  | _ => none

def step (x : Session) (e : Event) : Option Session :=
  match x.phase with
  | .down file disk => x.stepDown file disk e
  | .recovering s records n => x.stepRecovering s records n e
  | .running m => x.stepRunning m e
  | .aborting m t last undo => x.stepAborting m t last undo e

-- ---------------------------------------------------------------------------
-- Which turns a run takes
-- ---------------------------------------------------------------------------

/-- A record that fits an empty page, under a key that is not there yet; an update whose new
record goes where the old one was; page ids to spare; and no page is written with a change
that is not logged yet. -/
def keepsStep (m : Machine) : Machine.Event → Bool
  | .put key value => (m.shell.db.index key.toInt).isNone && decide (8 + value.length ≤ maxRecordLen)
  | .update _ value => decide (8 + value.length ≤ maxRecordLen)
  | .next grow => decide (m.shell.nextPageId + 1 + grow ≤ invalidPageId) &&
    match m.stage with
    | .stored key _ _ _ => (m.shell.db.index key.toInt).isNone
    | .erased _ rid _ record _ _ => m.shell.goesBack rid record
    | _ => true
  | .write p => m.stage.pending.all fun rid => rid.pageId != p
  | _ => true

/-- The same for a session; undo has room, and the log has a data page when it is not empty. -/
def keeps (x : Session) (e : Event) : Bool :=
  match x.phase, e with
  | .down _ _, .open => decide (x.filePages + 2 ≤ invalidPageId)
  | .recovering s _ _, .recoverStep => undoRoomCheck s .recoverStep
  | .recovering _ records n, .rebuild grow => !(dataPages records).isEmpty &&
    decide (max n (maxPageId records) + 1 + grow ≤ invalidPageId)
  | .running m, .work e => keepsStep m e
  | .aborting m _ _ (some u), .abortStep grow => m.shell.db.roomAt u &&
    decide (m.shell.nextPageId + grow ≤ invalidPageId)
  | _, _ => true

end Session

-- ---------------------------------------------------------------------------
-- What the session is for
-- ---------------------------------------------------------------------------

/-- A key-value store, as the last commit left it and as the open transaction sees it. -/
structure Store where
  committed : Int64 → Option Bytes
  current : Int64 → Option Bytes
  /-- The effect of the command that is under way. -/
  todo : List (Int64 × Option Bytes)

namespace Store

def empty : Store := ⟨fun _ => none, fun _ => none, []⟩

/-- One key gets a value, or loses it. -/
def set (kv : Int64 → Option Bytes) (x : Int64 × Option Bytes) : Int64 → Option Bytes :=
  fun key => if key = x.1 then x.2 else kv key

/-- All of a command. -/
def apply (kv : Int64 → Option Bytes) (todo : List (Int64 × Option Bytes)) : Int64 → Option Bytes :=
  todo.foldl set kv

/-- What `fill` inserts in `k` iterations from iteration `i` on. -/
def fillPairs : Int64 → Nat → Nat → List (Int64 × Option Bytes)
  | _, 0, _ => []
  | key, k + 1, i => (key, some (numbered "val_" i)) :: fillPairs (key + 1) k (i + 1)

/-- A command is through; outside of a transaction it is committed. -/
def done (st : Store) (inTxn : Bool) : Store :=
  let current := apply st.current st.todo
  { committed := if inTxn then st.committed else current, current, todo := [] }

/-- What an event of the session means. -/
def next (st : Store) : Session.Event → Session.Phase → Session.Phase → Store
  | .work (.put key value), _, _ => { st with todo := [(key, some value)] }
  | .work (.update key value), _, _ =>
    { st with todo := if (st.current key).isSome then [(key, some value)] else [] }
  | .work (.del key), _, _ => { st with todo := [(key, none)] }
  | .work (.fill n), .running m, _ =>
    { st with todo := fillPairs m.shell.nextFillKey n.toInt.toNat 0 }
  | .work (.next _), _, .running m =>
    if m.stage = .ready then st.done m.shell.activeTxn.isSome else st
  | .commit, _, _ => { st with committed := st.current }
  | .abortEnd, _, _ => { st with current := st.committed }
  | .crash, _, _ => { st with current := st.committed, todo := [] }
  | _, _, _ => st

end Store

/-- What `get` prints for a key of the store. -/
def Answer.of : Option Bytes → Answer
  | none => .notFound
  | some v => .value v

/-- A session and the store that its commands describe. -/
structure Watched where
  session : Session
  store : Store

namespace Watched

def init : Watched := ⟨.init, .empty⟩

def step (x : Watched) (e : Session.Event) : Option Watched :=
  (x.session.step e).map fun y => ⟨y, x.store.next e x.session.phase y.phase⟩

end Watched

end PersistX
