import PersistX.Shell.AllOrNothing

/-!
# PersistX — the data commands, stage by stage

`Shell/Commands.lean` runs a command to its end. Here `put`, `update`, `del` and
`fill` are cut wherever the code calls the buffer pool: between two stages the pool
may choose any page that it holds as a victim and write it, and so does `flush`
between two commands. Which pages it chooses depends on its size and contents; a
run may take any of them, except a page that the code is about to fetch again
without a fetch of another one in between. The shell holds no pin from one stage to
the next, so its own fetches find a frame in a pool of any size.

Main result: `Machine.step_command` — with no page written in between, the stages
of a command do together what the command does.
-/

namespace PersistX

open PageOps Transition

-- ---------------------------------------------------------------------------
-- The stages
-- ---------------------------------------------------------------------------

/-- Where a command goes on once its page is stamped. -/
inductive Sequel where
  /-- To its end; `put` counts itself. -/
  | finish (t : Nat) (auto counted : Bool)
  /-- To the head of the loop of `fill`: `k` iterations are left, the next is iteration `i`. -/
  | loop (t : Nat) (auto : Bool) (k i inserted : Nat)
  deriving DecidableEq, Repr

/-- The transaction of the command. -/
def Sequel.txn : Sequel → Nat
  | .finish t _ _ => t
  | .loop t _ _ _ _ => t

/-- `fill` leaves out the flush behind `log_update`. -/
def Sequel.flushes : Sequel → Bool
  | .finish _ _ _ => true
  | .loop _ _ _ _ _ => false

inductive CommandStage where
  /-- Between two commands. -/
  | ready
  /-- The head of the loop of `fill`. -/
  | loop (t : Nat) (auto : Bool) (k i inserted : Nat)
  /-- `put` and `fill`: `store_value` is next. -/
  | store (key : Int64) (record : Bytes) (sequel : Sequel)
  /-- `put` and `fill`: the record is on a page, `index_->insert` is next. -/
  | stored (key : Int64) (rid : Rid) (record : Bytes) (sequel : Sequel)
  /-- `del`, and `update` with the new record: `delete_record` is next. -/
  | erase (key : Int64) (rid : Rid) (record : Option Bytes) (t : Nat) (auto : Bool)
  /-- `update`: the old record is off its page, `store_value` is next. -/
  | erased (key : Int64) (rid : Rid) (old record : Bytes) (t : Nat) (auto : Bool)
  /-- Heap and index are changed, `log_update` is next. -/
  | changed (rid : Rid) (old new : Bytes) (key : Int) (sequel : Sequel)
  /-- The UPDATE is logged, the stamp is next. -/
  | logged (rid : Rid) (lsn : Nat) (sequel : Sequel)
  deriving DecidableEq, Repr

/-- The slot that a stage has changed and not logged yet. -/
def CommandStage.pending : CommandStage → Option Rid
  | .stored _ rid _ _ => some rid
  | .erased _ rid _ _ _ _ => some rid
  | .changed rid _ _ _ _ => some rid
  | _ => none

/-- The slot that a stage has changed and not stamped its page for. -/
def CommandStage.slot : CommandStage → Option Rid
  | .logged rid _ _ => some rid
  | stage => stage.pending

/-- One `write_page` of a data page. -/
structure PageWrite where
  pageId : Nat
  image : Page
  /-- The image of the page that was in the file before. -/
  previous : Page
  /-- The length of the log when that one was written. -/
  since : Nat
  /-- The log file. -/
  file : List Record

/-- The shell in the middle of a command, and the database file. -/
structure Machine where
  shell : Shell Page
  stage : CommandStage
  /-- The pages in the file. -/
  disk : Nat → Page
  /-- The length of the log when each of them was written. -/
  since : Nat → Nat
  writes : List PageWrite

namespace Shell

-- ---------------------------------------------------------------------------
-- From stage to stage
-- ---------------------------------------------------------------------------

/-- `put` and `fill` of a key that the index has: what has been stored stays where it is. -/
def refuse (s : Shell Page) : Sequel → Option (Shell Page × CommandStage)
  | .finish t auto _ => (if auto then s.abortTxn t else some s).map (·, .ready)
  | .loop t auto k i inserted => some (s, .loop t auto k i inserted)

/-- Behind the stamp. -/
def goOn (s : Shell Page) : Sequel → Option (Shell Page × CommandStage)
  | .finish t auto counted => (s.autoCommit t auto).map fun s =>
    (if counted then { s with totalPuts := s.totalPuts + 1 } else s, .ready)
  | .loop t auto k i inserted => some (s, .loop t auto k i (inserted + 1))

/-- What the command does until it calls the pool again. -/
def advance (s : Shell Page) (grow : Nat) : CommandStage → Option (Shell Page × CommandStage)
  | .ready => none
  | .loop t auto 0 _ inserted => (s.autoCommit t auto).map fun s =>
    ({ s with totalPuts := s.totalPuts + UInt64.ofNat inserted }, .ready)
  | .loop t auto (k + 1) i inserted =>
    let key := s.nextFillKey
    some ({ s with nextFillKey := key + 1 },
      .store key (makeRecord key (numbered "val_" i)) (.loop t auto k (i + 1) inserted))
  | .store key record sequel =>
    let (s, rid) := s.storeValue record
    some (s, .stored key rid record sequel)
  | .stored key rid record sequel =>
    if (s.search key).isSome then s.refuse sequel
    else some (s.indexInsert key rid grow, .changed rid [] record key.toInt sequel)
  | .erase key rid none t auto =>
    let old := (s.db.read rid.pageId rid.slotId).getD []
    let x := (deleteRecord (s.db.heap rid.pageId) rid.slotId 0).1
    some ({ s with db := { s.db.setPage rid.pageId x with index := s.db.index.remove key.toInt } },
      .changed rid old [] key.toInt (.finish t auto false))
  | .erase key rid (some record) t auto =>
    let old := (s.db.read rid.pageId rid.slotId).getD []
    let x := (deleteRecord (s.db.heap rid.pageId) rid.slotId 0).1
    some ({ s with db := s.db.setPage rid.pageId x }, .erased key rid old record t auto)
  | .erased key rid old record t auto =>
    let (s, newRid) := s.storeValue record
    let s :=
      if newRid = rid then s
      else { s with db := { s.db with index := s.db.index.remove key.toInt } }.indexInsert key newRid grow
    some (s, .changed newRid old record 0 (.finish t auto false))
  | .changed rid old new key sequel =>
    (s.db.logUpdate sequel.txn rid.pageId rid.slotId old new key).map fun (db, lsn) =>
      let lm := if sequel.flushes then db.lm.flush lsn else db.lm
      ({ s with db := { db with lm } }, .logged rid lsn sequel)
  | .logged rid lsn sequel => { s with db := s.db.stampPage rid.pageId lsn }.goOn sequel

end Shell

namespace Machine

inductive Event where
  | put (key : Int64) (value : Bytes)
  | update (key : Int64) (value : Bytes)
  | del (key : Int64)
  | fill (n : Int32)
  /-- The command goes on to its next stage; the index allocates `grow` pages there. -/
  | next (grow : Nat)
  /-- A data page is written, as a victim or by `flush`. -/
  | write (p : Nat)
  /-- A node of the index is written; `upTo` is what its bytes say where a data page has its LSN. -/
  | writeNode (upTo : Nat)

/-- A fresh database. The file has no page yet. -/
def initStorage : Machine := ⟨Shell.initStorage, .ready, fun _ => zero, fun _ => 0, []⟩

/-- Shell and stage move on, the file stays. -/
def goTo (m : Machine) (x : Shell Page × CommandStage) : Machine := { m with shell := x.1, stage := x.2 }

/-- `enforce_wal` and `write_page`. -/
def writePage (m : Machine) (p : Nat) : Machine :=
  let x := m.shell.db.heap p
  let lm := m.shell.db.lm.flush (pageLsn x)
  { m with
    shell := { m.shell with db := { m.shell.db with lm } }
    disk := fun q => if q = p then x else m.disk q
    since := fun q => if q = p then lm.log.length else m.since q
    writes := ⟨p, x, m.disk p, m.since p, lm.file⟩ :: m.writes }

/-- Between `log_update` and the stamp the code fetches the page to be stamped and no other. -/
def canWrite (m : Machine) (p : Nat) : Bool :=
  decide (p < m.shell.nextPageId) &&
    match m.stage with
    | .logged rid _ _ => rid.pageId != p
    | _ => true

/-- A command begins. -/
def start (m : Machine) (stage : Nat → Bool → CommandStage) : Option Machine :=
  if m.stage = .ready then
    let (s, t, auto) := m.shell.autoBegin
    some (m.goTo (s, stage t auto))
  else none

/-- A command that looks its key up first begins, if the key is there. -/
def startAt (m : Machine) (key : Int64) (record : Option Bytes) : Option Machine :=
  match m.shell.search key with
  | none => if m.stage = .ready then some m else none
  | some rid => m.start (.erase key rid record)

def step (m : Machine) : Event → Option Machine
  | .put key value => m.start fun t auto => .store key (makeRecord key value) (.finish t auto true)
  | .update key value => m.startAt key (some (makeRecord key value))
  | .del key => m.startAt key none
  | .fill n => m.start fun t auto => .loop t auto n.toInt.toNat 0 0
  | .next grow => (m.shell.advance grow m.stage).map m.goTo
  | .write p => if m.canWrite p then some (m.writePage p) else none
  | .writeNode upTo => some { m with
      shell := { m.shell with db := { m.shell.db with lm := m.shell.db.lm.flush upTo } } }

-- ---------------------------------------------------------------------------
-- The stages of a command do what the command does
-- ---------------------------------------------------------------------------

/-- A page is written, of the heap or of the index. -/
def Event.isWrite : Event → Bool
  | .write _ | .writeNode _ => true
  | _ => false

/-- A run in which no page is written. -/
def Undisturbed : Machine → Machine → Prop := Steps step fun _ e => e.isWrite = false

variable {m : Machine} {s s₁ s₂ : Shell Page} {t : Nat} {auto : Bool}

theorem Undisturbed.next {stage : CommandStage} {a : Machine} (grow : Nat) {x : Shell Page × CommandStage}
    (h : Undisturbed a (m.goTo (s, stage))) (hx : s.advance grow stage = some x) :
    Undisturbed a (m.goTo x) := by
  refine Steps.snoc h (e := .next grow) rfl ?_
  show (s.advance grow stage).map _ = _
  rw [hx]
  rfl

/-- The log record, the stamp, and on. -/
theorem Undisturbed.logWrite {a : Machine} {rid : Rid} {old new : Bytes} {key : Int} {sequel : Sequel}
    {x : Shell Page × CommandStage} (h : Undisturbed a (m.goTo (s, .changed rid old new key sequel)))
    (hlog : s.logWrite sequel.txn rid old new key sequel.flushes = some s₁)
    (hx : s₁.goOn sequel = some x) : Undisturbed a (m.goTo x) := by
  rw [Shell.logWrite, Option.map_eq_some_iff] at hlog
  obtain ⟨⟨db, lsn⟩, hupd, rfl⟩ := hlog
  refine (h.next 0 (x := ({ s with db := { db with
    lm := if sequel.flushes then db.lm.flush lsn else db.lm } }, .logged rid lsn sequel)) ?_).next 0 hx
  rw [Shell.advance, hupd]
  rfl

theorem start_autoBegin (hready : m.stage = .ready) (hbegin : m.shell.autoBegin = (s, t, auto))
    (stage : Nat → Bool → CommandStage) : m.start stage = some (m.goTo (s, stage t auto)) := by
  rw [start, if_pos hready, hbegin]

theorem Undisturbed.put (hready : m.stage = .ready) {key : Int64} {value : Bytes} {grow : Nat}
    (h : m.shell.put key value grow = some s) : Undisturbed m (m.goTo (s, .ready)) := by
  obtain ⟨⟨s₀, t, auto⟩, hbegin⟩ : ∃ x, m.shell.autoBegin = x := ⟨_, rfl⟩
  obtain ⟨⟨s₁, rid⟩, hstore⟩ : ∃ x, s₀.storeValue (makeRecord key value) = x := ⟨_, rfl⟩
  have hrun : Undisturbed m (m.goTo (s₁, .stored key rid (makeRecord key value) (.finish t auto true))) := by
    have hstart : Undisturbed m (m.goTo (s₀, .store key (makeRecord key value) (.finish t auto true))) :=
      .snoc .refl (e := .put key value) rfl (start_autoBegin hready hbegin fun t auto =>
        .store key (makeRecord key value) (.finish t auto true))
    refine hstart.next 0 ?_
    rw [Shell.advance, hstore]
  simp only [Shell.put, hbegin, hstore] at h
  split at h
  · rename_i hkey
    refine hrun.next grow ?_
    rw [Shell.advance, if_pos hkey]
    simp only [Shell.refuse, h]
    rfl
  · rename_i hkey
    simp only [Option.bind_eq_bind, Option.bind_eq_some_iff] at h
    obtain ⟨s₂, hlog, s₃, hcommit, hs⟩ := h
    have hchanged : Undisturbed m (m.goTo (s₁.indexInsert key rid grow,
        .changed rid [] (makeRecord key value) key.toInt (.finish t auto true))) := by
      refine hrun.next grow ?_
      rw [Shell.advance, if_neg hkey]
    refine hchanged.logWrite hlog ?_
    simp only [Shell.goOn, hcommit, Option.map_some, if_true, Option.some.inj hs]

theorem Undisturbed.del (hready : m.stage = .ready) {key : Int64} (h : m.shell.del key = some s) :
    Undisturbed m (m.goTo (s, .ready)) := by
  obtain ⟨⟨s₀, t, auto⟩, hbegin⟩ : ∃ x, m.shell.autoBegin = x := ⟨_, rfl⟩
  rw [Shell.del] at h
  split at h
  · rename_i hsearch
    rw [← Option.some.inj h, goTo, ← hready]
    refine .snoc .refl (e := .del key) rfl ?_
    simp only [step, startAt, hsearch, if_pos hready]
  · rename_i rid hsearch
    simp only [hbegin, Option.bind_eq_bind, Option.bind_eq_some_iff] at h
    obtain ⟨s₁, hlog, hcommit⟩ := h
    have hrun : Undisturbed m (m.goTo (s₀, .erase key rid none t auto)) := by
      refine .snoc .refl (e := .del key) rfl ?_
      simp only [step, startAt, hsearch]
      exact start_autoBegin hready hbegin _
    refine (hrun.next 0 rfl).logWrite hlog ?_
    simp only [Shell.goOn, hcommit, Option.map_some]
    rfl

theorem Undisturbed.update (hready : m.stage = .ready) {key : Int64} {value : Bytes} {grow : Nat}
    (h : m.shell.update key value grow = some s) : Undisturbed m (m.goTo (s, .ready)) := by
  obtain ⟨⟨s₀, t, auto⟩, hbegin⟩ : ∃ x, m.shell.autoBegin = x := ⟨_, rfl⟩
  rw [Shell.update] at h
  split at h
  · rename_i hsearch
    rw [← Option.some.inj h, goTo, ← hready]
    refine .snoc .refl (e := .update key value) rfl ?_
    simp only [step, startAt, hsearch, if_pos hready]
  · rename_i rid hsearch
    simp only [hbegin, Option.bind_eq_bind, Option.bind_eq_some_iff] at h
    obtain ⟨s₂, hlog, hcommit⟩ := h
    have hrun : Undisturbed m (m.goTo (s₀, .erase key rid (some (makeRecord key value)) t auto)) := by
      refine .snoc .refl (e := .update key value) rfl ?_
      simp only [step, startAt, hsearch]
      exact start_autoBegin hready hbegin _
    refine ((hrun.next 0 rfl).next grow rfl).logWrite hlog ?_
    simp only [Shell.goOn, hcommit, Option.map_some]
    rfl

/-- One iteration of `fill`. -/
theorem Undisturbed.fillOne {a : Machine} {k i inserted grow : Nat} {new : Bool}
    (h : Undisturbed a (m.goTo (s, .loop t auto (k + 1) i inserted)))
    (hone : s.fillOne t i grow = some (s₁, new)) :
    Undisturbed a (m.goTo (s₁, .loop t auto k (i + 1) (if new then inserted + 1 else inserted))) := by
  obtain ⟨⟨s₀, rid⟩, hstore⟩ : ∃ x, Shell.storeValue { s with nextFillKey := s.nextFillKey + 1 }
    (makeRecord s.nextFillKey (numbered "val_" i)) = x := ⟨_, rfl⟩
  have hrun := (h.next 0 rfl).next 0 (x := (s₀, .stored s.nextFillKey rid
    (makeRecord s.nextFillKey (numbered "val_" i)) (.loop t auto k (i + 1) inserted))) (by
      rw [Shell.advance, hstore])
  simp only [Shell.fillOne, hstore] at hone
  split at hone
  · rename_i hkey
    obtain ⟨rfl, rfl⟩ := Prod.mk.injEq .. ▸ Option.some.inj hone
    refine hrun.next grow ?_
    rw [Shell.advance, if_pos hkey]
    rfl
  · rename_i hkey
    rw [Option.map_eq_some_iff] at hone
    obtain ⟨s₂, hlog, hs⟩ := hone
    obtain ⟨rfl, rfl⟩ := Prod.mk.injEq .. ▸ hs
    have hchanged : Undisturbed a (m.goTo (s₀.indexInsert s.nextFillKey rid grow,
        .changed rid [] (makeRecord s.nextFillKey (numbered "val_" i)) s.nextFillKey.toInt
          (.loop t auto k (i + 1) inserted))) := by
      refine hrun.next grow ?_
      rw [Shell.advance, if_neg hkey]
    exact hchanged.logWrite hlog rfl

theorem Undisturbed.fillLoop {a : Machine} {grow : Nat → Nat} {k i inserted inserted' : Nat}
    (h : Undisturbed a (m.goTo (s, .loop t auto k i inserted)))
    (hloop : Shell.fillLoop t grow k i s inserted = some (s₁, inserted')) :
    Undisturbed a (m.goTo (s₁, .loop t auto 0 (i + k) inserted')) := by
  induction k generalizing i s inserted with
  | zero =>
    obtain ⟨rfl, rfl⟩ := Prod.mk.injEq .. ▸ Option.some.inj hloop
    exact h
  | succ k ih =>
    simp only [Shell.fillLoop, Option.bind_eq_bind, Option.bind_eq_some_iff] at hloop
    obtain ⟨⟨s₂, new⟩, hone, hloop⟩ := hloop
    rw [Nat.add_comm k 1, ← Nat.add_assoc]
    exact ih (h.fillOne hone) hloop

theorem Undisturbed.fill (hready : m.stage = .ready) {n : Int32} {grow : Nat → Nat}
    (h : m.shell.fill n grow = some s) : Undisturbed m (m.goTo (s, .ready)) := by
  obtain ⟨⟨s₀, t, auto⟩, hbegin⟩ : ∃ x, m.shell.autoBegin = x := ⟨_, rfl⟩
  simp only [Shell.fill, hbegin, Option.bind_eq_bind, Option.bind_eq_some_iff] at h
  obtain ⟨⟨s₁, inserted⟩, hloop, s₂, hcommit, hs⟩ := h
  have hrun : Undisturbed m (m.goTo (s₀, .loop t auto n.toInt.toNat 0 0)) :=
    .snoc .refl (e := .fill n) rfl (start_autoBegin hready hbegin fun t auto =>
      .loop t auto n.toInt.toNat 0 0)
  refine (hrun.fillLoop hloop).next 0 ?_
  simp only [Shell.advance, hcommit, Option.map_some, Option.some.inj hs]

/-- The commands that are cut into stages. -/
def isStaged : Command → Bool
  | .put _ _ _ | .update _ _ _ | .del _ | .fill _ _ => true
  | _ => false

/-- **The stages are the commands.** -/
theorem step_command (hready : m.stage = .ready) {c : Command} (hc : isStaged c = true)
    (h : m.shell.step c = some s) : Undisturbed m { m with shell := s } := by
  have hgo : m.goTo (s, .ready) = { m with shell := s } := by
    rw [goTo, ← hready]
  rw [← hgo]
  cases c with
  | put key value grow => exact .put hready h
  | update key value grow => exact .update hready h
  | del key => exact .del hready h
  | fill n grow => exact .fill hready h
  | _ => cases hc

end Machine

end PersistX
