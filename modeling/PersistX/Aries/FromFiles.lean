import PersistX.Aries.Mirror

/-!
# PersistX — recovery from the two files

`recover()` where the pages need not be, byte for byte, what redo of the log makes of
them: a crash leaves `Files`, and as long as no CHECKPOINT_END is in the log the
passes need no more. `FilesInv` is what they keep of log, pool and file, `Reopening`
adds what holds in each of them. Pages may be written and leave the pool in between.

Main results: `Reopening.start`, `Reopening.recoverStep`, `Reopening.flushPage`,
`Reopening.evict` — every turn keeps the invariant; `Reopening.files` — a crash
in the middle; `Reopening.recovered` — the end.
-/

namespace PersistX

open PageOps LawfulPageOps

/-- What a crash leaves: a log file, and page images that redo of it brings up to date. -/
structure Files (file : List Record) (disk : Nat → Page) (n : Nat) : Prop where
  hist : History PlainRule file
  pages : ∀ p, Intact file p (disk p)
  beyond : ∀ p, n ≤ p → disk p = Page.zero

/-- Log, pool and page file while `recover()` is under way; the log file had `records`. -/
structure FilesInv (records : List Record) (n : Nat) (lm : LogManager) (bm : BufferManager Page) :
    Prop where
  hist : History PlainRule lm.log
  ok : lm.Ok
  pages : ∀ p, Intact lm.file p (bm.readPage p)
  clean : ∀ p f, bm.frames.lookup p = some f → f.dirty = false → f.page = bm.readPage p
  frames : ∀ p f, bm.frames.lookup p = some f → Named records p
  kept : records <+: lm.file
  grown : ∃ b, lm.log = records ++ b ∧ UndoOnly b
  named : ∀ p, Named lm.log p → Named records p
  beyond : ∀ p, n ≤ p → bm.readPage p = Page.zero

/-- Every page of the pool is what the log describes. -/
def Mirrored (log : List Record) (bm : BufferManager Page) : Prop :=
  ∀ p, Mirror log p (bm.readPage p) (bm.page p)

/-- What holds in each pass. -/
def PassInv (s : Sys Page) : Prop :=
  match s.mode with
  | .normal => Mirrored s.log s.bm ∧ s.lm.buffer = [] ∧ ∀ t, active s.log t = none
  | .down => False
  | .redo rest dpt att => s.lm.buffer = [] ∧ AttExact att s.log ∧
      (∀ r ∈ rest, ∀ p, r.body.page? = some p → ¬ Filtered dpt p r.lsn) ∧
      ∃ m, rest = s.lm.file.drop m ∧ ∀ p, Redoing s.lm.file m p (s.bm.readPage p) (s.bm.page p)
  | .undo toUndo att => Mirrored s.log s.bm ∧ AttExact att s.log ∧ UndoInv s.log toUndo
  | .flushing => Mirrored s.log s.bm ∧ s.lm.buffer = [] ∧ ∀ t, active s.log t = none

/-- **The invariant of `recover()`.** -/
structure Reopening (records : List Record) (n : Nat) (s : Sys Page) : Prop extends
    FilesInv records n s.lm s.bm where
  pass : PassInv s

/-- The files as `recover()` finds them. -/
def reopened (file : List Record) (disk : Nat → Page) : Sys Page where
  lm := .ofFile file
  bm := ⟨∅, fun p => [disk p]⟩
  tm := .new
  mode := .down
  ckpt := .idle

variable {records file : List Record} {disk : Nat → Page} {n p q : Nat} {lm : LogManager}
  {bm : BufferManager Page} {s : Sys Page} {x : Page} {f : Frame Page} {d : Bool}

-- ---------------------------------------------------------------------------
-- The pool
-- ---------------------------------------------------------------------------

/-- A page is changed in the pool. -/
theorem FilesInv.modify (h : FilesInv records n lm bm) (hp : Named records p)
    (hx : d = false → x = bm.page p) : FilesInv records n lm ((bm.fetchPage p).1.unpinPage p x d) where
  hist := h.hist
  ok := h.ok
  pages := by
    rw [readPage_modify]
    exact h.pages
  clean q f hf hdirty := by
    rw [readPage_modify]
    rw [BufferManager.modify_eq] at hf
    by_cases hq : q = p
    · subst hq
      rw [AList.lookup_insert] at hf
      obtain rfl := Option.some.inj hf
      simp only [Bool.or_eq_false_iff] at hdirty
      obtain rfl := hx hdirty.2
      cases hl : bm.frames.lookup q with
      | none => exact BufferManager.page_of_none hl
      | some g =>
        rw [hl] at hdirty
        exact (BufferManager.page_of_lookup hl).trans (h.clean q g hl hdirty.1)
    · rw [AList.lookup_insert_ne hq] at hf
      exact h.clean q f hf hdirty
  frames q f hf := by
    rw [BufferManager.modify_eq] at hf
    by_cases hq : q = p
    · rw [hq]
      exact hp
    · rw [AList.lookup_insert_ne hq] at hf
      exact h.frames q f hf
  kept := h.kept
  grown := h.grown
  named := h.named
  beyond := by
    rw [readPage_modify]
    exact h.beyond

/-- A frame is written. -/
theorem FilesInv.writeFrame (h : FilesInv records n lm bm) (hf : bm.frames.lookup p = some f)
    (hi : Intact lm.file p f.page) : FilesInv records (max n (p + 1)) lm (bm.writeFrame p f) where
  hist := h.hist
  ok := h.ok
  pages q := by
    rw [BufferManager.readPage_writeFrame]
    split
    · rename_i hq
      rw [hq]
      exact hi
    · exact h.pages q
  clean q g hg hdirty := by
    rw [BufferManager.readPage_writeFrame]
    by_cases hq : q = p
    · subst hq
      rw [show (bm.writeFrame q f).frames.lookup q = some ⟨f.page, false⟩ from AList.lookup_insert _] at hg
      rw [if_pos rfl, ← Option.some.inj hg]
    · rw [show (bm.writeFrame p f).frames.lookup q = bm.frames.lookup q from AList.lookup_insert_ne hq] at hg
      rw [if_neg hq]
      exact h.clean q g hg hdirty
  frames q g hg := by
    by_cases hq : q = p
    · rw [hq]
      exact h.frames p f hf
    · rw [show (bm.writeFrame p f).frames.lookup q = bm.frames.lookup q from AList.lookup_insert_ne hq] at hg
      exact h.frames q g hg
  kept := h.kept
  grown := h.grown
  named := h.named
  beyond q hq := by
    rw [BufferManager.readPage_writeFrame, if_neg (by omega)]
    exact h.beyond q (by omega)

/-- A clean frame leaves the pool. -/
theorem FilesInv.erase (h : FilesInv records n lm bm) (p : Nat) :
    FilesInv records n lm { bm with frames := bm.frames.erase p } where
  hist := h.hist
  ok := h.ok
  pages := h.pages
  clean q g hg := by
    have hne : q ≠ p := by
      rintro rfl
      rw [AList.lookup_erase] at hg
      cases hg
    rw [AList.lookup_erase_ne hne] at hg
    exact h.clean q g hg
  frames q g hg := by
    have hne : q ≠ p := by
      rintro rfl
      rw [AList.lookup_erase] at hg
      cases hg
    rw [AList.lookup_erase_ne hne] at hg
    exact h.frames q g hg
  kept := h.kept
  grown := h.grown
  named := h.named
  beyond := h.beyond

/-- What a reader sees then is what was there. -/
theorem FilesInv.page_erase (h : FilesInv records n lm bm) (hf : bm.frames.lookup p = some f)
    (hclean : f.dirty = false) (q : Nat) :
    ({ bm with frames := bm.frames.erase p } : BufferManager Page).page q = bm.page q := by
  by_cases hq : q = p
  · subst hq
    rw [BufferManager.page_of_lookup hf, h.clean q f hf hclean]
    exact BufferManager.page_of_none (AList.lookup_erase _ _)
  · have hl : (bm.frames.erase p).lookup q = bm.frames.lookup q := AList.lookup_erase_ne hq
    rw [BufferManager.page, BufferManager.page, hl]
    rfl

theorem Mirrored.writeFrame {log : List Record} (h : Mirrored log bm) (hf : bm.frames.lookup p = some f) :
    Mirrored log (bm.writeFrame p f) := by
  intro q
  rw [BufferManager.page_writeFrame hf, BufferManager.readPage_writeFrame]
  split
  · rename_i hq
    rw [hq, ← BufferManager.page_of_lookup hf]
    exact (h p).written
  · exact h q

-- ---------------------------------------------------------------------------
-- The log
-- ---------------------------------------------------------------------------

theorem FilesInv.lsn (h : FilesInv records n lm bm) :
    ∀ (i : Nat) (r : Record), lm.log[i]? = some r → r.lsn = i := h.hist.logLsn

/-- The log may be flushed at any time. -/
theorem FilesInv.flush (h : FilesInv records n lm bm) (hm : Mirrored lm.log bm) (l : Nat) :
    FilesInv records n (lm.flush l) bm where
  hist := by
    rw [LogManager.flush_log]
    exact h.hist
  ok := h.ok.flush l
  pages p := (h.pages p).flush (hm p) l
  clean := h.clean
  frames := h.frames
  kept := by
    rcases lm.flush_eq l with hl | hl
    · rw [hl]
      exact h.kept
    · rw [hl, LogManager.flushAll_file]
      exact h.kept.trans (List.prefix_append _ _)
  grown := by
    rw [LogManager.flush_log]
    exact h.grown
  named := by
    rw [LogManager.flush_log]
    exact h.named
  beyond := h.beyond

theorem FilesInv.flushAll (h : FilesInv records n lm bm) (hm : Mirrored lm.log bm) :
    FilesInv records n lm.flushAll bm where
  hist := by
    rw [LogManager.flushAll_log]
    exact h.hist
  ok := h.ok.flushAll
  pages p := by
    rw [LogManager.flushAll_file]
    exact (hm p).intact
  clean := h.clean
  frames := h.frames
  kept := by
    rw [LogManager.flushAll_file]
    exact h.kept.trans (List.prefix_append _ _)
  grown := by
    rw [LogManager.flushAll_log]
    exact h.grown
  named := by
    rw [LogManager.flushAll_log]
    exact h.named
  beyond := h.beyond

/-- A CLR or a TXN_END. -/
theorem FilesInv.append (h : FilesInv records n lm bm) {t : Nat} {pr : Option Nat} {b : RecordBody}
    (hr : PlainRule lm.log ⟨lm.nextLsn, t, pr, b⟩) (hb : b.isUndo = true)
    (hp : ∀ p, b.page? = some p → Named records p) : FilesInv records n (lm.append t pr b).1 bm where
  hist := by
    rw [LogManager.append_log]
    exact .snoc h.hist hr
  ok := h.ok.append t pr b
  pages := h.pages
  clean := h.clean
  frames := h.frames
  kept := h.kept
  grown := by
    obtain ⟨l, hl, hundo⟩ := h.grown
    refine ⟨l ++ [⟨lm.nextLsn, t, pr, b⟩], by rw [LogManager.append_log, hl, List.append_assoc], ?_⟩
    intro r hr
    rcases List.mem_append.mp hr with hr | hr
    · exact hundo r hr
    · rw [List.mem_singleton.mp hr]
      exact hb
  named p hn := by
    rw [LogManager.append_log] at hn
    rcases named_append_one.mp hn with hn | hn
    · exact h.named p hn
    · exact hp p hn
  beyond := h.beyond

theorem Mirrored.append_quiet {log : List Record} {r : Record} (h : Mirrored log bm)
    (hr : r.body.page? = none) : Mirrored (log ++ [r]) bm :=
  fun p => (h p).append_other (by rw [hr]; exact (Option.some_ne_none p).symm)

-- ---------------------------------------------------------------------------
-- Analysis
-- ---------------------------------------------------------------------------

/-- Without a checkpoint the DPT lets every record through. -/
theorem analyze_not_filtered (h : History PlainRule file) :
    ∀ r ∈ file, ∀ p, r.body.page? = some p → ¬ Filtered (analyze file).2 p r.lsn := by
  intro r hr p hp hfil
  obtain ⟨i, hi⟩ := List.mem_iff_getElem?.mp hr
  have hnone : lastCheckpoint file = none := by
    rw [lastCheckpoint_eq_none]
    intro x hx
    obtain ⟨j, hj⟩ := List.mem_iff_getElem?.mp hx
    exact (h.rule_at hj).2.1
  rw [analyze_of_no_checkpoint hnone, h.logLsn i r hi] at hfil
  exact absurd ((scan_covers PlainRule.lifecycle h p 0).1 i r hi hp hfil) (Nat.not_lt_zero i)

/-- **Analysis**, on the files of a crash. -/
theorem Reopening.start (h : Files file disk n) :
    Reopening file n (reopened file disk).recoverStep := by
  have hlog : (LogManager.ofFile file).readLog.1.log = file := List.append_nil _
  have hatt : AttExact (analyze file).1 file :=
    analyze_attExact PlainRule.lifecycle (fun l r a d hr hb => by
      have hend := hr.2.1
      rw [hb] at hend
      cases hend) h.hist
  have hpage : ∀ p, (reopened file disk).bm.page p = disk p := fun p =>
    BufferManager.page_of_none rfl
  have hredo : ∀ p, Redoing file 0 p (disk p) (disk p) := fun p => (h.pages p).redoing
  have hinv : FilesInv file n (LogManager.ofFile file).readLog.1 (reopened file disk).bm :=
    { hist := by
        rw [hlog]
        exact h.hist
      ok := LogManager.readLog_ok h.hist.logLsn
      pages := h.pages
      clean := fun p f hf => (by cases hf)
      frames := fun p f hf => (by cases hf)
      kept := List.prefix_rfl
      grown := ⟨[], by rw [List.append_nil]; exact hlog, fun r hr => (by cases hr)⟩
      named := by
        rw [hlog]
        exact fun p hn => hn
      beyond := h.beyond }
  refine ⟨hinv, ?_⟩
  show [] = [] ∧ AttExact (analyze file).1 (LogManager.ofFile file).readLog.1.log ∧
    (∀ r ∈ (if (Sys.startLsn (analyze file).2).isNone = true then [] else file), ∀ p,
      r.body.page? = some p → ¬ Filtered (analyze file).2 p r.lsn) ∧
    ∃ m, (if (Sys.startLsn (analyze file).2).isNone = true then [] else file) = file.drop m ∧
      ∀ p, Redoing file m p (disk p) ((reopened file disk).bm.page p)
  rw [hlog]
  refine ⟨rfl, hatt, fun r hr p hp => ?_, ?_⟩
  · split at hr
    · cases hr
    · exact analyze_not_filtered h.hist r hr p hp
  · by_cases hstart : (Sys.startLsn (analyze file).2).isNone = true
    · -- an empty DPT: the log has no record of a page
      rw [if_pos hstart]
      refine ⟨file.length, List.drop_length.symm, fun p => ?_⟩
      rw [hpage]
      refine { hredo p with seen := fun r hr hp => ?_ }
      have hr' : r ∈ file := List.mem_of_mem_take hr
      refine absurd (fun l hl => ?_) (analyze_not_filtered h.hist r hr' p hp)
      obtain ⟨m, -, hm⟩ := startLsn_le hl
      rw [hm] at hstart
      cases hstart
    · rw [if_neg hstart]
      refine ⟨0, rfl, fun p => ?_⟩
      rw [hpage]
      exact hredo p

-- ---------------------------------------------------------------------------
-- Redo
-- ---------------------------------------------------------------------------

theorem log_of_buffer (h : lm.buffer = []) : lm.log = lm.file := by
  rw [LogManager.log, h, List.append_nil]

theorem FilesInv.redoOne (h : FilesInv records n lm bm) {dpt : Table} {r : Record}
    (hp : ∀ p, r.body.page? = some p → Named records p) :
    FilesInv records n lm (Sys.redoOne dpt bm r) := by
  rw [Sys.redoOne]
  split
  · exact h
  · split
    · exact h
    · rename_i p hpage
      split
      · exact h
      · split
        · exact h
        · simp only [BufferManager.fetchPage_snd]
          split
          · exact h.modify (hp p hpage) fun _ => rfl
          · exact h.modify (hp p hpage) fun hd => by cases hd

theorem Reopening.redoStep {r : Record} {rest : List Record} {dpt att : Table}
    (h : Reopening records n s) (hmode : s.mode = .redo (r :: rest) dpt att) :
    Reopening records n { s with bm := Sys.redoOne dpt s.bm r, mode := .redo rest dpt att } := by
  have hm := h.pass
  rw [PassInv, hmode] at hm
  obtain ⟨hbuf, hatt, hdpt, m, hrest, hredo⟩ := hm
  have hlog : s.lm.log = s.lm.file := log_of_buffer hbuf
  have hr : s.lm.file[m]? = some r := by
    have := congrArg List.head? hrest
    rw [List.head?_cons, List.head?_drop] at this
    exact this.symm
  have hrest' : rest = s.lm.file.drop (m + 1) := by
    rw [← List.drop_drop, ← hrest]
    rfl
  have hr' : s.lm.log[m]? = some r := hlog ▸ hr
  have hnamed : ∀ p, r.body.page? = some p → Named records p := fun p hp =>
    h.named p ⟨r, List.mem_of_getElem? hr', hp⟩
  refine ⟨h.toFilesInv.redoOne hnamed, hbuf, hatt,
    fun r' hr'' => hdpt r' (List.mem_cons_of_mem _ hr''), m + 1, hrest', fun p => ?_⟩
  show Redoing s.lm.file (m + 1) p ((Sys.redoOne dpt s.bm r).readPage p) ((Sys.redoOne dpt s.bm r).page p)
  rw [readPage_redoOne, page_redoOne (hdpt r List.mem_cons_self)]
  exact (hredo p).step hr (h.lsn m r hr') (h.hist.changes r (List.mem_of_getElem? hr'))

theorem Reopening.redoEnd {dpt att : Table} (h : Reopening records n s)
    (hmode : s.mode = .redo [] dpt att) :
    Reopening records n { s with mode := .undo (att.entries.map (·.2)).toFinset att } := by
  have hm := h.pass
  rw [PassInv, hmode] at hm
  obtain ⟨hbuf, hatt, -, m, hrest, hredo⟩ := hm
  have hlog : s.lm.log = s.lm.file := log_of_buffer hbuf
  have hend : s.lm.file.length ≤ m := List.drop_eq_nil_iff.mp hrest.symm
  refine ⟨h.toFilesInv, fun p => ?_, hatt,
    hatt.undoInv (h.hist.logLegit.lifecycle fun _ _ hr => hr.1).2⟩
  show Mirror s.lm.log p _ _
  rw [hlog]
  exact (hredo p).mirror hend (h.pages p)

-- ---------------------------------------------------------------------------
-- Undo
-- ---------------------------------------------------------------------------

/-- A TXN_END of a transaction with nothing left to undo. -/
theorem PlainRule.txnEnd {log : List Record} {t lsn : Nat} {pr : Option Nat} (hlsn : lsn = log.length)
    (h : ∀ v, active log t = some v → v.pend = []) : PlainRule log ⟨lsn, t, pr, .txnEnd⟩ :=
  ⟨⟨⟨hlsn, h⟩, fun _ _ _ _ _ hb => by cases hb⟩, rfl, fun _ _ _ hb => by cases hb⟩

/-- **A CLR** is legitimate, and where undo has room, redo of the CLR does the same. -/
theorem History.clr {log : List Record} (hist : History PlainRule log) {t u lsn : Nat} {us : List Nat}
    {v : TxnView} {ru : Record} {slot : Nat} {old new : Bytes} {k : Int} (hv : active log t = some v)
    (hpend : v.pend = u :: us) (hru : log[u]? = some ru) (hb : ru.body = .update p slot old new k)
    (hlsn : lsn = log.length) (hwf : Page.Wf x) (hread : ∀ s, x.readRecord s = contents log p s)
    (hroom : undoFits x slot old new = true) :
    PlainRule log ⟨lsn, t, some v.last, .clr p slot old ru.prevLsn⟩ ∧
      redoFits x (.clr p slot old ru.prevLsn) = true ∧
      undoRecord x slot old new lsn = redoRecord x (.clr p slot old ru.prevLsn) lsn ∧
      (old = [] → x.readRecord slot ≠ none) := by
  have hnew : x.readRecord slot = image new := by
    have hundo := hist.logLegit.undoes t v hv
    rw [hpend] at hundo
    cases hundo with
    | cons hx hxb hc _ =>
      rw [hru] at hx
      obtain rfl := Option.some.inj hx
      rw [hb] at hxb
      injection hxb with hp hs ho hn
      subst hp hs ho hn
      rw [hread, hc]
  refine ⟨⟨⟨⟨hlsn, v, u, us, ru, hv, hpend, rfl, hru, ⟨new, k, hb⟩, rfl⟩, fun _ _ _ _ _ hb => by cases hb⟩,
    rfl, fun _ _ _ hb => by cases hb⟩, redoFits_of_undoFits hwf hnew hroom,
    undoRecord_eq_redoRecord p ru.prevLsn hwf hnew lsn, fun ho => ?_⟩
  rw [hnew]
  have hne : new ≠ [] := fun hn =>
    hist.changes ru (List.mem_of_getElem? hru) p slot k (by rw [hb, ho, hn])
  rw [image_of_ne hne]
  exact Option.some_ne_none new

/-- The page with the UPDATE taken back is what redo of the CLR gives. -/
theorem Mirrored.undo {log : List Record} (h : Mirrored log bm) (hist : History PlainRule log)
    {t u lsn : Nat} {us : List Nat} {v : TxnView} {ru : Record} {slot : Nat} {old new : Bytes} {k : Int}
    (hv : active log t = some v) (hpend : v.pend = u :: us) (hru : log[u]? = some ru)
    (hb : ru.body = .update p slot old new k) (hlsn : lsn = log.length)
    (hroom : undoFits (bm.page p) slot old new = true) :
    PlainRule log ⟨lsn, t, some v.last, .clr p slot old ru.prevLsn⟩ ∧
    Mirrored (log ++ [⟨lsn, t, some v.last, .clr p slot old ru.prevLsn⟩])
      ((bm.fetchPage p).1.unpinPage p (undoRecord (bm.page p) slot old new lsn) true) := by
  have hmir := h p
  have hwf : Page.Wf (bm.page p) := hmir.tighter.right
  obtain ⟨hrule, hfits, hundo, hlive⟩ := hist.clr hv hpend hru hb hlsn hwf hmir.read hroom
  refine ⟨hrule, fun q => ?_⟩
  rw [readPage_modify, BufferManager.page_modify]
  split
  · rename_i hq
    subst hq
    obtain ⟨hfits', ht⟩ := hmir.tighter.redoRecord hfits lsn
    rw [hundo]
    have hw : RecordBody.write? (.clr q slot old ru.prevLsn) = some (q, slot, old) := rfl
    refine hmir.append_self hlsn ?_ hw (fun _ _ _ _ hc => by cases hc) hlive hfits' ht
      (lsn_redoRecord (P := Page) _ _ _) ?_
    · have := (List.getElem?_eq_some_iff.mp hru).1
      omega
    · exact Page.inited_redoRecord hwf hw (fun _ _ _ _ hc => by cases hc) hfits hlive lsn
  · rename_i hq
    refine (h q).append_other fun hc => hq ?_
    exact (Option.some.inj hc).symm

/-- **One iteration of undo.** -/
theorem Reopening.undoStep {toUndo : Finset Nat} {att : Table} {u : Nat} (h : Reopening records n s)
    (hmode : s.mode = .undo toUndo att) (hmax : toUndo.max = some u) (hroom : RoomAt s u) :
    Reopening records n (s.undoOne toUndo att u) := by
  have hm := h.pass
  rw [PassInv, hmode] at hm
  obtain ⟨hmir, hatt, hundo⟩ := hm
  have hbase := h.toFilesInv.flushAll hmir
  have hlog : s.lm.flushAll.log = s.lm.log := LogManager.flushAll_log
  have hnext : s.lm.flushAll.nextLsn = s.lm.log.length := by rw [hbase.ok.next, hlog]
  have hu : u ∈ toUndo := Finset.mem_of_max hmax
  obtain ⟨t, v, hv, hchain⟩ := hundo.only u hu
  have hlast : (att.lookup t).getD 0 = v.last := by
    rw [hatt t, hv]
    rfl
  -- only the place on the chain changes
  have hmove : ∀ {r : Record} {l : Nat}, s.lm.log[u]? = some r → r.txnId = t →
      UndoChain s.lm.log t l v.pend →
      Reopening records n { s with lm := s.lm.flushAll, mode := .undo (insert l (toUndo.erase u)) att } := by
    intro r l hr ht hl
    refine ⟨hbase, ?_⟩
    show Mirrored s.lm.flushAll.log s.bm ∧ AttExact att s.lm.flushAll.log ∧ UndoInv s.lm.flushAll.log _
    rw [hlog]
    exact ⟨hmir, hatt, hundo.advance hu hr ht (fun _ _ => rfl) (fun _ _ => rfl) (fun _ _ _ hc => hc) hv hl⟩
  generalize hpend : v.pend = us at hchain
  cases hchain with
  | @begin _ r hr ht hb =>
    subst ht
    have hrule : PlainRule s.lm.flushAll.log ⟨s.lm.flushAll.nextLsn, r.txnId, some v.last, .txnEnd⟩ := by
      refine .txnEnd (by rw [hlog, hnext]) fun w hw => ?_
      rw [hlog, show active _ _ = some v from hv] at hw
      rw [← Option.some.inj hw]
      exact hpend
    have hlife := hrule.1.1
    rw [hlog] at hlife
    simp only [Sys.undoOne, LogManager.readRecordAtLsn_eq h.lsn hr, hb, hlast]
    refine ⟨hbase.append hrule rfl fun p hp => (by cases hp), ?_⟩
    simp only [PassInv, Sys.log, LogManager.readRecordAtLsn, LogManager.append_log, hlog]
    exact ⟨hmir.append_quiet rfl, AttExact.append_one (x := (att, ∅)) hatt hlife,
      hundo.finish hu hr rfl active_append_one_self⟩
  | @update _ l r us hr ht hb hp hlt hrest =>
    obtain ⟨p, slot, old, new, k, hb⟩ := hb
    subst ht
    obtain ⟨hrule, hmir'⟩ := hmir.undo h.hist hv hpend hr hb hnext (hroom r p slot old new k hr hb)
    rw [hp] at hrule hmir'
    have hnamed : Named records p := h.named p ⟨r, List.mem_of_getElem? hr, by
      rw [hb, RecordBody.page?, RecordBody.write?, Option.map_some]⟩
    have hlife := hrule.1.1
    rw [show s.log = s.lm.flushAll.log from hlog.symm] at hrule
    simp only [Sys.undoOne, LogManager.readRecordAtLsn_eq h.lsn hr, hb, hp, hlast, Sys.undoUpdate,
      BufferManager.fetchPage_snd]
    refine ⟨(hbase.append hrule rfl fun q hq => ?_).modify hnamed fun hd => (by cases hd), ?_⟩
    · obtain rfl : p = q := Option.some.inj hq
      exact hnamed
    · simp only [PassInv, Sys.log, LogManager.readRecordAtLsn, LogManager.append_log, hlog]
      refine ⟨hmir', AttExact.append_one (x := (att, ∅)) hatt hlife, ?_⟩
      refine hundo.advance hu hr rfl (fun i hi => List.getElem?_append_left hi)
        (fun t' ht' => active_append_one_ne (Ne.symm ht')) (fun _ _ _ hc => hc.append _)
        (active_append_clr hv) ?_
      simp only [hpend, List.tail_cons]
      exact hrest
  | @clr _ l r us hr ht hb hlt hrest =>
    obtain ⟨p, slot, new, hb⟩ := hb
    simp only [Sys.undoOne, LogManager.readRecordAtLsn_eq h.lsn hr, hb]
    exact hmove hr ht (by rw [hpend]; exact hrest)
  | @abort _ l r us hr ht hb hp hlt hrest =>
    simp only [Sys.undoOne, LogManager.readRecordAtLsn_eq h.lsn hr, hb, hp]
    exact hmove hr ht (by rw [hpend]; exact hrest)

theorem Reopening.finishUndo {toUndo : Finset Nat} {att : Table} (h : Reopening records n s)
    (hmode : s.mode = .undo toUndo att) (hmax : toUndo.max = none) :
    Reopening records n s.finishUndo := by
  have hm := h.pass
  rw [PassInv, hmode] at hm
  obtain ⟨hmir, -, hundo⟩ := hm
  refine ⟨h.toFilesInv.flushAll hmir, ?_⟩
  show Mirrored s.lm.flushAll.log s.bm ∧ s.lm.flushAll.buffer = [] ∧ ∀ t, active s.lm.flushAll.log t = none
  rw [LogManager.flushAll_log]
  refine ⟨hmir, LogManager.flushAll_buffer, fun t => ?_⟩
  cases hv : active s.lm.log t with
  | none => rfl
  | some v =>
    obtain ⟨x, hx, -⟩ := hundo.all t v hv
    rw [Finset.max_eq_bot.mp hmax] at hx
    cases hx

-- ---------------------------------------------------------------------------
-- Pages are written and leave the pool
-- ---------------------------------------------------------------------------

/-- In every pass but redo the pool is up to date. -/
theorem Reopening.mirrored (h : Reopening records n s) (hredo : ∀ rest dpt att, s.mode ≠ .redo rest dpt att) :
    Mirrored s.lm.log s.bm := by
  have hm := h.pass
  rw [PassInv] at hm
  cases hmode : s.mode with
  | normal => rw [hmode] at hm; exact hm.1
  | down => rw [hmode] at hm; exact hm.elim
  | redo rest dpt att => exact absurd hmode (hredo rest dpt att)
  | undo toUndo att => rw [hmode] at hm; exact hm.1
  | flushing => rw [hmode] at hm; exact hm.1

theorem PassInv.congr {s' : Sys Page} (h : PassInv s) (hmode : s'.mode = s.mode)
    (hlog : s'.lm.log = s.lm.log) (hbuf : s.lm.buffer = [] → s'.lm = s.lm)
    (hmir : Mirrored s.lm.log s.bm → Mirrored s.lm.log s'.bm)
    (hredo : ∀ m, (∀ p, Redoing s.lm.file m p (s.bm.readPage p) (s.bm.page p)) →
      ∀ p, Redoing s.lm.file m p (s'.bm.readPage p) (s'.bm.page p)) : PassInv s' := by
  rw [PassInv] at h ⊢
  rw [hmode]
  cases hm : s.mode with
  | normal =>
    simp only [hm, Sys.log, hlog] at h ⊢
    exact ⟨hmir h.1, by rw [hbuf h.2.1]; exact h.2.1, h.2.2⟩
  | down => rw [hm] at h; exact h
  | redo rest dpt att =>
    simp only [hm, Sys.log, hlog] at h ⊢
    obtain ⟨hb, hatt, hdpt, m, hrest, hr⟩ := h
    rw [hbuf hb]
    exact ⟨hb, hatt, hdpt, m, hrest, hredo m hr⟩
  | undo toUndo att =>
    simp only [hm, Sys.log, hlog] at h ⊢
    exact ⟨hmir h.1, h.2⟩
  | flushing =>
    simp only [hm, Sys.log, hlog] at h ⊢
    exact ⟨hmir h.1, by rw [hbuf h.2.1]; exact h.2.1, h.2.2⟩

theorem flush_of_buffer (h : lm.buffer = []) (l : Nat) : lm.flush l = lm := by
  rcases lm.flush_eq l with hl | hl
  · exact hl
  · rw [hl, LogManager.flushAll, if_pos h]

/-- **A page is written**, whatever the pass. -/
theorem Reopening.flushPage (h : Reopening records n s) (hf : s.bm.frames.lookup p = some f) :
    Reopening records (max n (p + 1)) (s.flushPage p) := by
  have hpage := BufferManager.page_of_lookup hf
  have hbase : FilesInv records n (s.lm.flush (pageLsn f.page)) s.bm ∧
      Intact (s.lm.flush (pageLsn f.page)).file p f.page := by
    by_cases hmode : ∃ rest dpt att, s.mode = .redo rest dpt att
    · obtain ⟨rest, dpt, att, hmode⟩ := hmode
      have hm := h.pass
      rw [PassInv, hmode] at hm
      obtain ⟨hbuf, -, -, m, -, hredo⟩ := hm
      rw [flush_of_buffer hbuf, ← hpage]
      exact ⟨h.toFilesInv, (hredo p).intact (h.pages p)⟩
    · have hmir := h.mirrored fun rest dpt att hc => hmode ⟨rest, dpt, att, hc⟩
      refine ⟨h.toFilesInv.flush hmir _, ?_⟩
      rw [← hpage]
      exact (hmir p).intact_written h.ok h.lsn
  rw [Sys.flushPage, hf]
  refine ⟨hbase.1.writeFrame hf hbase.2, h.pass.congr rfl (LogManager.flush_log _)
    (fun hb => flush_of_buffer hb _) (fun hmir => hmir.writeFrame hf) fun m hredo q => ?_⟩
  show Redoing s.lm.file m q ((s.bm.writeFrame p f).readPage q) ((s.bm.writeFrame p f).page q)
  rw [BufferManager.page_writeFrame hf, BufferManager.readPage_writeFrame]
  split
  · rename_i hq
    rw [hq, ← hpage]
    exact (hredo p).written
  · exact hredo q

/-- A clean page leaves the pool. -/
theorem Reopening.drop (h : Reopening records n s) (hf : s.bm.frames.lookup p = some f)
    (hclean : f.dirty = false) :
    Reopening records n { s with bm := { s.bm with frames := s.bm.frames.erase p } } := by
  have hpage := h.toFilesInv.page_erase hf hclean
  refine ⟨h.toFilesInv.erase p, h.pass.congr rfl rfl (fun _ => rfl) (fun hmir q => ?_) fun m hredo q => ?_⟩
  · rw [hpage]
    exact hmir q
  · show Redoing _ m q _ (BufferManager.page _ q)
    rw [hpage]
    exact hredo q

/-- A page that a later fetch pushes out. -/
theorem Reopening.evict (h : Reopening records n s) (hf : s.bm.frames.lookup p = some f) :
    Reopening records (if f.dirty then max n (p + 1) else n) (s.evict p) := by
  cases hdirty : f.dirty with
  | true =>
    simp only [Sys.evict, hf, hdirty, if_true]
    refine (h.flushPage hf).drop (f := ⟨f.page, false⟩) ?_ rfl
    rw [Sys.flushPage, hf]
    exact AList.lookup_insert _
  | false =>
    simp only [Sys.evict, hf, hdirty, Bool.false_eq_true, if_false]
    exact h.drop hf hdirty

-- ---------------------------------------------------------------------------
-- All steps
-- ---------------------------------------------------------------------------

/-- The page that the next step of `recover()` writes. -/
def Sys.flushedNext (s : Sys Page) : Option Nat :=
  match s.mode with
  | .flushing => (s.bm.frames.entries.find? (·.2.dirty)).map (·.1)
  | _ => none

theorem Sys.lookup_of_flushedNext (h : s.flushedNext = some p) : ∃ f, s.bm.frames.lookup p = some f := by
  rw [flushedNext] at h
  split at h
  · obtain ⟨e, he, rfl⟩ := Option.map_eq_some_iff.mp h
    exact ⟨e.2, AList.mem_lookup_iff.mpr (List.mem_of_find?_eq_some he)⟩
  · cases h

/-- **A step of `recover()`.** The page that it writes may be one past the end of the file. -/
theorem Reopening.recoverStep (h : Reopening records n s) (hroom : UndoRoom s .recoverStep) :
    Reopening records (s.flushedNext.elim n fun p => max n (p + 1)) s.recoverStep := by
  rw [Sys.recoverStep, Sys.flushedNext]
  cases hmode : s.mode with
  | normal => exact h
  | down =>
    have hm := h.pass
    rw [PassInv, hmode] at hm
    exact hm.elim
  | redo rest dpt att =>
    cases rest with
    | nil => exact h.redoEnd hmode
    | cons r rest => exact h.redoStep hmode
  | undo toUndo att =>
    simp only
    split
    · rename_i hmax
      exact h.finishUndo hmode hmax
    · rename_i u hmax
      exact h.undoStep hmode hmax (hroom toUndo att u hmode hmax)
  | flushing =>
    simp only
    split
    · rename_i e he
      rw [he]
      exact h.flushPage (AList.mem_lookup_iff.mpr (List.mem_of_find?_eq_some he))
    · rename_i he
      rw [he]
      have hm := h.pass
      rw [PassInv, hmode] at hm
      exact ⟨h.toFilesInv, hm⟩

/-- **A crash in the middle** of `recover()` leaves files of the same kind, and the same transactions
are committed. -/
theorem Reopening.files (h : Reopening records n s) :
    Files s.lm.file s.bm.readPage n ∧ committedContents s.lm.file = committedContents records := by
  refine ⟨⟨h.hist.of_append, h.pages, h.beyond⟩, ?_⟩
  obtain ⟨a, ha⟩ := h.kept
  obtain ⟨b, hb, hundo⟩ := h.grown
  have hsplit : records ++ b = records ++ (a ++ s.lm.buffer) := by
    rw [← hb, LogManager.log, ← ha, List.append_assoc]
  have hfree : CommitFree a := fun r hr => hundo.commitFree r (by
    rw [List.append_cancel_left hsplit]
    exact List.mem_append_left _ hr)
  rw [← ha, committedContents_append hfree]

/-- **The end of `recover()`.** Every page is what the log describes, and the log describes
what the committed transactions wrote. -/
theorem Reopening.recovered (h : Reopening records n s) (hmode : s.mode = .normal) :
    Mirrored s.lm.log s.bm ∧ s.lm.buffer = [] ∧ (∀ t, active s.lm.log t = none) ∧
      contents s.lm.log = committedContents records := by
  have hm := h.pass
  rw [PassInv, hmode] at hm
  obtain ⟨hmir, hbuf, hnone⟩ := hm
  refine ⟨hmir, hbuf, hnone, ?_⟩
  rw [contents_eq_committed h.hist.logLegit hnone, log_of_buffer hbuf, h.files.2]

end PersistX
