import PersistX.Txn.Manager
import PersistX.Lib.Codec
import Mathlib.Data.Nat.Digits.Defs

/-!
# PersistX — the shell's commands

The commands of `shell.cpp` and `shell_commands.cpp` that change the database,
each one run to its end over a `Database`. A record is the eight bytes of its key
followed by the value, and it goes to the current data page or, when it has no
room there, to a fresh page. The index takes its pages from the same counter;
how many it takes while it inserts a key depends on the shape of the tree, so
the number comes with the command.

The heap holds the data pages; the nodes of the index are not part of it.
-/

namespace PersistX

open PageOps Bytes

variable {P : Type}

-- ---------------------------------------------------------------------------
-- Records
-- ---------------------------------------------------------------------------

/-- `make_record`: `[8 bytes key][value]`. -/
def makeRecord (key : Int64) (value : Bytes) : Bytes := i64.enc key ++ value

/-- `record_key`: 0 when the record is too short to hold one. -/
def recordKey (data : Bytes) : Int :=
  if data.length ≥ 8 then (i64.dec (data.take 8)).toInt else 0

/-- `record_value`. -/
def recordValue (data : Bytes) : Bytes := data.drop 8

/-- The characters of an ASCII text, followed by those of `std::to_string(i)`. -/
def numbered (text : String) (i : Nat) : Bytes :=
  (text.toList ++ Nat.toDigits 10 i).map Char.toUInt8

@[simp] theorem length_makeRecord (key : Int64) (value : Bytes) :
    (makeRecord key value).length = 8 + value.length := by
  rw [makeRecord, List.length_append, i64.length_enc]
  rfl

theorem makeRecord_ne_nil (key : Int64) (value : Bytes) : makeRecord key value ≠ [] := by
  intro h
  have := congrArg List.length h
  rw [length_makeRecord] at this
  simp at this

/-- The key comes back. -/
@[simp] theorem recordKey_makeRecord (key : Int64) (value : Bytes) :
    recordKey (makeRecord key value) = key.toInt := by
  have hlen : (i64.enc key).length = 8 := i64.length_enc key
  have htake : (makeRecord key value).take 8 = i64.enc key := by
    rw [makeRecord, List.take_append_of_le_length (Nat.le_of_eq hlen.symm)]
    exact List.take_of_length_le (Nat.le_of_eq hlen)
  rw [recordKey, if_pos (by rw [length_makeRecord]; omega), htake, i64.dec_enc]

/-- The value comes back. -/
theorem recordValue_makeRecord (key : Int64) (value : Bytes) :
    recordValue (makeRecord key value) = value := by
  have hlen : (i64.enc key).length = 8 := i64.length_enc key
  rw [recordValue, makeRecord, List.drop_append, hlen, Nat.sub_self,
    List.drop_of_length_le (Nat.le_of_eq hlen)]
  rfl

theorem length_numbered {text : String} {i : Nat} (hi : i < 2 ^ 31) :
    (numbered text i).length ≤ text.toList.length + 10 := by
  have hd : (Nat.toDigits 10 i).length ≤ 10 :=
    (Nat.length_toDigits_le_iff (by decide) (by decide)).mpr (by omega)
  rw [numbered, List.length_map, List.length_append]
  omega

-- ---------------------------------------------------------------------------
-- The state and its helpers
-- ---------------------------------------------------------------------------

/-- What the commands read and write of the `Shell` object. -/
structure Shell (P : Type) where
  db : Database P
  /-- `active_txn_`: the transaction that `begin` has opened. -/
  activeTxn : Option Nat
  /-- `data_page_id_`. -/
  dataPage : Nat
  /-- `next_page_id_` of the disk manager. -/
  nextPageId : Nat
  totalPuts : UInt64
  nextFillKey : Int64

/-- What `get` prints. -/
inductive Answer where
  | notFound
  /-- `<error: record not found>`. -/
  | error
  | value (data : Bytes)
  deriving DecidableEq, Repr

/-- The commands, after their arguments have been read. `grow` is the number of
pages that the index allocates when the command inserts a key; `fill` and `bench`
insert one in every iteration. -/
inductive Command where
  | put (key : Int64) (value : Bytes) (grow : Nat)
  | update (key : Int64) (value : Bytes) (grow : Nat)
  | del (key : Int64)
  | begin
  | commit
  | abort (grow : Nat)
  | fill (n : Int32) (grow : Nat → Nat)
  | bench (n : Int32) (grow : Nat → Nat)

namespace Shell

variable [PageOps P]

/-- `init_storage` on a fresh database: page 0 is the root of the index, page 1
the first data page. -/
def initStorage : Shell P where
  db :=
    { lm := .ofFile []
      heap := fun p => if p = 1 then init 1 else zero
      index := fun _ => none
      att := ∅
      nextTxnId := 0 }
  activeTxn := none
  dataPage := 1
  nextPageId := 2
  totalPuts := 0
  nextFillKey := 0

/-- `index_->search`, with the test `is_valid` that every caller makes. -/
def search (s : Shell P) (key : Int64) : Option Rid := (s.db.index key.toInt).filter Rid.isValid

omit [PageOps P] in
theorem search_of_none {s : Shell P} {key : Int64} (h : s.db.index key.toInt = none) :
    s.search key = none := by
  rw [search, h, Option.filter_none]

omit [PageOps P] in
theorem search_isSome (s : Shell P) (key : Int64) :
    (s.search key).isSome = (s.db.index key.toInt).any Rid.isValid := by
  rw [search]
  cases s.db.index key.toInt with
  | none => rfl
  | some r =>
    rw [Option.filter_some, Option.any_some]
    cases r.isValid <;> rfl

omit [PageOps P] in
theorem search_congr {s s' : Shell P} (h : s'.db.index = s.db.index) (key : Int64) :
    s'.search key = s.search key := by
  rw [search, h, search]

/-- `cmd_get`, with `fetch_value`. -/
def get (s : Shell P) (key : Int64) : Answer :=
  match s.search key with
  | none => .notFound
  | some rid =>
    match s.db.read rid.pageId rid.slotId with
    | none => .error
    | some data => .value (recordValue data)

/-- `store_value`. -/
def storeValue (s : Shell P) (record : Bytes) : Shell P × Rid :=
  match insertRecord (s.db.heap s.dataPage) record 0 with
  | some (x, slot) => ({ s with db := s.db.setPage s.dataPage x }, ⟨s.dataPage, slot⟩)
  | none =>
    let pid := s.nextPageId
    let (x, slot) := (insertRecord (init pid : P) record 0).getD (init pid, invalidSlotId)
    ({ s with db := s.db.setPage pid x, dataPage := pid, nextPageId := pid + 1 }, ⟨pid, slot⟩)

/-- `index_->insert`, which allocates `grow` pages. -/
def indexInsert (s : Shell P) (key : Int64) (rid : Rid) (grow : Nat) : Shell P :=
  { s with
    db := { s.db with index := s.db.index.insert key.toInt rid }
    nextPageId := s.nextPageId + grow }

/-- The steps that the commands share once heap and index are changed:
`log_update`, the flush that `fill` and `bench` leave out, and the stamp. -/
def logWrite (s : Shell P) (t : Nat) (rid : Rid) (old new : Bytes) (key : Int) (flush : Bool) :
    Option (Shell P) :=
  (s.db.logUpdate t rid.pageId rid.slotId old new key).map fun (db, lsn) =>
    let lm := if flush then db.lm.flush lsn else db.lm
    { s with db := { db with lm }.stampPage rid.pageId lsn }

/-- The transaction of a command: the open one, or one of its own. -/
def autoBegin (s : Shell P) : Shell P × Nat × Bool :=
  match s.activeTxn with
  | some t => (s, t, false)
  | none => ({ s with db := s.db.begin }, s.db.nextTxnId, true)

def commitTxn (s : Shell P) (t : Nat) : Option (Shell P) :=
  (s.db.commit t).map fun db => { s with db }

/-- The transaction manager's `abort`; its loop takes at most one iteration for each record. -/
def abortTxn (s : Shell P) (t : Nat) : Option (Shell P) :=
  (s.db.abort s.db.lm.log.length t).map fun db => { s with db }

/-- Commit if the transaction is the command's own. -/
def autoCommit (s : Shell P) (t : Nat) (auto : Bool) : Option (Shell P) :=
  if auto then s.commitTxn t else some s

-- ---------------------------------------------------------------------------
-- The commands
-- ---------------------------------------------------------------------------

/-- `cmd_put`. A key that is there already is noticed after the record has been stored, by the
test `is_valid` in `index_->insert`. -/
def put (s : Shell P) (key : Int64) (value : Bytes) (grow : Nat) : Option (Shell P) :=
  let (s, t, auto) := s.autoBegin
  let record := makeRecord key value
  let (s, rid) := s.storeValue record
  if (s.search key).isSome then
    if auto then s.abortTxn t else some s
  else do
    let s := s.indexInsert key rid grow
    let s ← s.logWrite t rid [] record key.toInt true
    let s ← s.autoCommit t auto
    some { s with totalPuts := s.totalPuts + 1 }

/-- `cmd_del`. -/
def del (s : Shell P) (key : Int64) : Option (Shell P) :=
  match s.search key with
  | none => some s
  | some rid => do
    let (s, t, auto) := s.autoBegin
    let old := (s.db.read rid.pageId rid.slotId).getD []
    let x := (deleteRecord (s.db.heap rid.pageId) rid.slotId 0).1
    let s := { s with
      db := { s.db.setPage rid.pageId x with index := s.db.index.remove key.toInt } }
    let s ← s.logWrite t rid old [] key.toInt true
    s.autoCommit t auto

/-- `cmd_update`: delete and insert again. The log names the new RID only, and
no key. -/
def update (s : Shell P) (key : Int64) (value : Bytes) (grow : Nat) : Option (Shell P) :=
  match s.search key with
  | none => some s
  | some rid => do
    let (s, t, auto) := s.autoBegin
    let old := (s.db.read rid.pageId rid.slotId).getD []
    let x := (deleteRecord (s.db.heap rid.pageId) rid.slotId 0).1
    let s := { s with db := s.db.setPage rid.pageId x }
    let record := makeRecord key value
    let (s, newRid) := s.storeValue record
    let s :=
      if newRid = rid then s
      else { s with db := { s.db with index := s.db.index.remove key.toInt } }.indexInsert key newRid grow
    let s ← s.logWrite t newRid old record 0 true
    s.autoCommit t auto

/-- `cmd_begin`. -/
def begin (s : Shell P) : Shell P :=
  match s.activeTxn with
  | some _ => s
  | none => { s with db := s.db.begin, activeTxn := some s.db.nextTxnId }

/-- `cmd_commit`. -/
def commit (s : Shell P) : Option (Shell P) :=
  match s.activeTxn with
  | none => some s
  | some t => (s.commitTxn t).map fun s => { s with activeTxn := none }

/-- `cmd_abort`. The undo of a delete inserts into the index. -/
def abort (s : Shell P) (grow : Nat) : Option (Shell P) :=
  match s.activeTxn with
  | none => some s
  | some t => (s.abortTxn t).map fun s =>
    { s with activeTxn := none, nextPageId := s.nextPageId + grow }

/-- `cmd_fill`, iteration `i` of the loop: a key that is there is passed over,
after its record has been stored. Gives whether the key was inserted. -/
def fillOne (s : Shell P) (t i grow : Nat) : Option (Shell P × Bool) :=
  let key := s.nextFillKey
  let s := { s with nextFillKey := key + 1 }
  let record := makeRecord key (numbered "val_" i)
  let (s, rid) := s.storeValue record
  if (s.search key).isSome then some (s, false)
  else
    let s := s.indexInsert key rid grow
    (s.logWrite t rid [] record key.toInt false).map (·, true)

/-- The loop of `cmd_fill` from iteration `i` on, for `k` iterations, with the
number of keys inserted so far. -/
def fillLoop (t : Nat) (grow : Nat → Nat) : Nat → Nat → Shell P → Nat → Option (Shell P × Nat)
  | 0, _, s, inserted => some (s, inserted)
  | k + 1, i, s, inserted => do
    let (s, new) ← s.fillOne t i (grow i)
    fillLoop t grow k (i + 1) s (if new then inserted + 1 else inserted)

/-- `cmd_fill`: one transaction for the whole batch. -/
def fill (s : Shell P) (n : Int32) (grow : Nat → Nat) : Option (Shell P) := do
  let (s, t, auto) := s.autoBegin
  let (s, inserted) ← fillLoop t grow n.toInt.toNat 0 s 0
  let s ← s.autoCommit t auto
  some { s with totalPuts := s.totalPuts + UInt64.ofNat inserted }

/-- The key of iteration `i` of `cmd_bench`: `int` arithmetic, then `int64_t`. -/
def benchKey (totalPuts : UInt64) (i : Nat) : Int64 :=
  (totalPuts.toUInt32.toInt32 + 100000 + Int32.ofNat i).toInt64

/-- `cmd_bench`, iteration `i` of the first loop: the result of the index insert
is not looked at. -/
def benchOne (s : Shell P) (t i grow : Nat) : Option (Shell P) :=
  let key := benchKey s.totalPuts i
  let record := makeRecord key (numbered "bench_" i)
  let (s, rid) := s.storeValue record
  let s := s.indexInsert key rid grow
  s.logWrite t rid [] record key.toInt false

/-- The first loop of `cmd_bench`. -/
def benchLoop (t : Nat) (grow : Nat → Nat) : Nat → Nat → Shell P → Option (Shell P)
  | 0, _, s => some s
  | k + 1, i, s => (s.benchOne t i (grow i)).bind (benchLoop t grow k (i + 1))

/-- `cmd_bench`: always a transaction of its own. -/
def bench (s : Shell P) (n : Int32) (grow : Nat → Nat) : Option (Shell P) := do
  let t := s.db.nextTxnId
  let s ← benchLoop t grow n.toInt.toNat 0 { s with db := s.db.begin }
  let s ← s.commitTxn t
  some { s with totalPuts := s.totalPuts + n.toInt64.toUInt64 }

/-- `dispatch`, for these commands. -/
def step (s : Shell P) : Command → Option (Shell P)
  | .put key value grow => s.put key value grow
  | .update key value grow => s.update key value grow
  | .del key => s.del key
  | .begin => some s.begin
  | .commit => s.commit
  | .abort grow => s.abort grow
  | .fill n grow => s.fill n grow
  | .bench n grow => s.bench n grow

end Shell

end PersistX
