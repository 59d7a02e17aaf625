import PersistX.Aries.Pool

/-!
# PersistX — the protocol and the invariant of the storage system

`Protocol` is what the clients of the managers keep to, `UndoRoom` and
`CkptSafe` are the two conditions under which the code's own steps do no harm:

* `UndoRoom` — what an undo step forces back into its slot has room on the
  page (`redo_insert` does not check);
* `CkptSafe` — when `enforce_wal` inside a checkpoint writes out the log, and
  CHECKPOINT_END with it, the dirty pages miss no update older than the
  `rec_lsn` that CHECKPOINT_END carries for them.

`Inv` is the invariant of every run that meets them.
-/

namespace PersistX

open PageOps LawfulPageOps

variable {P : Type}

-- ---------------------------------------------------------------------------
-- Rules for runs
-- ---------------------------------------------------------------------------

section Rules

variable [PageOps P]

/-- Another open transaction still has to undo something on this slot. -/
def HeldByOther (log : List Record) (t p slot : Nat) : Prop :=
  ∃ t' v u o, t' ≠ t ∧ active log t' = some v ∧ u ∈ v.pend ∧ UpdateAt log u p slot o

/-- The protocol of the clients: operations are done on initialised pages and
stay off the slots of other open transactions, a new page's id is not in use, a
checkpoint is not taken inside `commit`, and after a crash each page is an
image written earlier or zeros. -/
def Protocol (s : Sys P) : Event P → Prop
  | .update t p op _ =>
    inited (s.bm.page p) = true ∧ ∀ x slot old new,
      op.run (s.bm.page p) = some (x, slot, old, new) → ¬ HeldByOther s.log t p slot
  | .newPage p _ => (∀ r ∈ s.log, r.body.page? ≠ some p) ∧ p ∉ s.bm.frames
  | .ckptBegin => ∀ t prev c, s.tm.att.lookup t ≠ some ⟨prev, .committing c⟩ ∧
      s.tm.att.lookup t ≠ some ⟨prev, .committed c⟩
  | .crash choice => ∀ p, choice p ∈ s.bm.images p ∨ choice p = zero
  | _ => True

/-- The record at `u` is not an UPDATE, or its before-image has room on the page. -/
def RoomAt (s : Sys P) (u : Nat) : Prop :=
  ∀ r p slot old new k, s.log[u]? = some r → r.body = .update p slot old new k →
    undoFits (s.bm.page p) slot old new = true

/-- What an undo step forces into its slot has room on the page. -/
def UndoRoom (s : Sys P) : Event P → Prop
  | .abortStep t => ∀ last u, s.tm.att.lookup t = some ⟨last, .aborting (some u)⟩ → RoomAt s u
  | .recoverStep => ∀ toUndo att u, s.mode = .undo toUndo att → toUndo.max = some u → RoomAt s u
  | _ => True

/-- `enforce_wal` writes the log buffer out for this frame. -/
def WalForces (lm : LogManager) (f : Frame P) : Prop :=
  lm.buffer ≠ [] ∧ ∀ g, lm.flushedLsn = some g → g < pageLsn f.page

/-- No logged update of a dirty page that is missing from its disk image is
older than the page's LSN. -/
def DirtyPagesMissOnlyLast (s : Sys P) : Prop :=
  ∀ q f, s.bm.frames.lookup q = some f → f.dirty = true → ∀ (j : Nat) (r : Record),
    s.log[j]? = some r → r.body.page? = some q → pageLsn (s.bm.readPage q) < j →
    pageLsn f.page ≤ j

/-- The forced log flushes of a checkpoint come at a moment when CHECKPOINT_END tells the truth. -/
def CkptSafe (s : Sys P) : Event P → Prop
  | .ckptForce p => ∀ f, s.bm.frames.lookup p = some f → WalForces s.lm f → DirtyPagesMissOnlyLast s
  | _ => True

/-- The event is part of a checkpoint. -/
def Event.isCkpt : Event P → Bool
  | .ckptBegin => true
  | .ckptSnapshot => true
  | .ckptEnd => true
  | .ckptForce _ => true
  | .ckptWrite => true
  | .ckptFinish => true
  | _ => false

/-- After the crash every page is what was written last: `write_page` is durable at once. -/
def DurableWrites (s : Sys P) : Event P → Prop
  | .crash choice => choice = s.bm.readPage
  | _ => True

/-- The runs the invariant is about. Before the first checkpoint a crash may
leave any earlier image of a page, afterwards only the last one. With `strict`
a crash may come in the middle of a checkpoint; then its forced log flushes
have to be safe. -/
structure Ok (strict : Prop) (s : Sys P) (e : Event P) : Prop where
  protocol : Protocol s e
  room : UndoRoom s e
  durable : lastCheckpoint s.lm.file = none ∨ DurableWrites s e
  whole : ∀ choice, e = .crash choice → strict ∨ s.ckpt = .idle
  safe : strict → CkptSafe s e

end Rules

-- ---------------------------------------------------------------------------
-- The parts of the invariant
-- ---------------------------------------------------------------------------

/-- A transaction's entry agrees with the log. -/
def TxnOk (log : List Record) (t : Nat) : Option Txn → Prop
  | none => active log t = none
  | some ⟨prev, .growing⟩ => ∃ v, active log t = some v ∧ v.last = prev ∧ v.rolling = false
  | some ⟨_, .committing _⟩ => active log t = none
  | some ⟨_, .committed _⟩ => active log t = none
  | some ⟨prev, .aborting undoLsn⟩ => ∃ v u, active log t = some v ∧ v.last = prev ∧
      undoLsn = some u ∧ UndoChain log t u v.pend
  | some ⟨prev, .aborted⟩ => ∃ v, active log t = some v ∧ v.last = prev ∧ v.pend = []

/-- The ATT of the transaction manager agrees with the log. -/
structure TmInv (log : List Record) (tm : TransactionManager) : Prop where
  txns : ∀ t, TxnOk log t (tm.att.lookup t)
  fresh : ∀ t, tm.nextTxnId ≤ t → tm.att.lookup t = none

/-- `to_undo` holds, for each loser, one record of its undo chain, and nothing else. -/
structure UndoInv (log : List Record) (toUndo : Finset Nat) : Prop where
  all : ∀ t v, active log t = some v → ∃ x ∈ toUndo, UndoChain log t x v.pend
  only : ∀ x ∈ toUndo, ∃ t v, active log t = some v ∧ UndoChain log t x v.pend
  unique : ∀ x ∈ toUndo, ∀ y ∈ toUndo, ∀ r r', log[x]? = some r → log[y]? = some r' →
    r.txnId = r'.txnId → x = y

/-- No CHECKPOINT_END among these records. -/
def NoEnd (l : List Record) : Prop := ∀ r ∈ l, r.body.isCheckpointEnd = false

section Invariant

variable [LawfulPageOps P]

/-- Whatever prefix of the log file the DPT is computed from, a record that it
filters out is reflected in the page's image on disk. -/
def RedoOk (file : List Record) (bm : BufferManager P) : Prop :=
  ∀ i ≤ file.length, ∀ p,
    Covers (analyze (file.take i)).2 (file.take i) p (pageLsn (bm.readPage p) + 1)

/-- In `redo()`, with the first `m` records of the file behind it. -/
structure RedoInv (file : List Record) (bm : BufferManager P) (dpt : Table) (m : Nat) :
    Prop where
  prefixes : ∀ p, ∃ k, Eqv (bm.page p) (stateAt (file.take k) p)
  reflects : ∀ p (j : Nat) (r : Record), file[j]? = some r → r.body.page? = some p →
    j < m ∨ Filtered dpt p j → j ≤ pageLsn (bm.page p)

/-- What holds where the system is. -/
def ModeInv (s : Sys P) : Prop :=
  match s.mode with
  | .normal => Current s.log s.bm ∧ TmInv s.log s.tm
  | .down => s.bm.frames = ∅ ∧ s.lm.buffer = []
  | .redo rest dpt att => s.lm.buffer = [] ∧ AttExact att s.log ∧
      ∃ m, rest = s.lm.file.drop m ∧ RedoInv s.lm.file s.bm dpt m
  | .undo toUndo att => Current s.log s.bm ∧ AttExact att s.log ∧ UndoInv s.log toUndo
  | .flushing => Current s.log s.bm ∧ s.lm.buffer = [] ∧ ∀ t, active s.log t = none

/-- The DPT snapshot of a checkpoint: the dirty pages with their LSNs. -/
structure DptSnap (s : Sys P) (d : List (Nat × Nat)) : Prop where
  dirty : ∀ p f, s.bm.frames.lookup p = some f → f.dirty = true →
    (toTable d).lookup p = some (pageLsn f.page)
  bound : ∀ p l, (toTable d).lookup p = some l → l ≤ s.log.length

/-- What holds while a checkpoint is under way. -/
def CkptInv (s : Sys P) : Prop :=
  match s.ckpt with
  | .idle => NoEnd s.lm.buffer
  | .begun => s.mode = .normal ∧ NoEnd s.lm.buffer ∧
      ∀ t prev c, s.tm.att.lookup t ≠ some ⟨prev, .committing c⟩ ∧
        s.tm.att.lookup t ≠ some ⟨prev, .committed c⟩
  | .snapped a d => s.mode = .normal ∧ NoEnd s.lm.buffer ∧ AttExact (toTable a) s.log ∧ DptSnap s d
  | .writing e forced => s.mode = .normal ∧
      (∃ l r a d, s.log = l ++ [r] ∧ r.body = .checkpointEnd a d ∧ e = l.length ∧
        (s.lm.buffer = [] ∨ ∃ b, s.lm.buffer = b ++ [r] ∧ NoEnd b) ∧ DptSnap s d) ∧
      ∀ p, forced = some p → ∃ f, s.bm.frames.lookup p = some f ∧
        (pageLsn f.page < s.lm.file.length ∨ ∀ r ∈ s.log, r.body.page? ≠ some p)

/-- **The invariant.** -/
structure Inv (strict : Prop) (s : Sys P) : Prop where
  hist : History (SysRule P) s.log
  disk : DiskInv s.log s.lm.file.length s.bm
  redo : strict ∨ s.ckpt = .idle → RedoOk s.lm.file s.bm
  live : s.mode ≠ .down → s.lm.Ok
  mode : ModeInv s
  ckpt : CkptInv s

end Invariant

end PersistX
