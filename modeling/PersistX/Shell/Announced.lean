import PersistX.Shell.Stages

/-!
# PersistX — the write-ahead rule as the shell drives it

`BufferManager` writes no page before the log is flushed up to the page's LSN. That
covers a slot change from the moment its UPDATE is logged and the page stamped; it
says nothing about a change that is not logged yet, or never. The shell makes the
heap change first, calls the index, and logs then; it logs nothing for the record
of a refused `put`, and for an `update` that moves its record only the new slot.

`Covered` is the invariant of a slot: it reads as in the file, or as the after-image
of a record that was logged since the file got the page and that is not above the
page's LSN. Every stage keeps it for all slots but the one that it is working on.

Main result: `announced_of_steps` — in every run that takes none of these turns,
whatever pages are written between the stages, every changed slot of every page
that is written has its record in the log file.
-/

namespace PersistX

open PageOps LawfulPageOps DataPageOps Transition

-- ---------------------------------------------------------------------------
-- The LSN of a page
-- ---------------------------------------------------------------------------

namespace Page

/-- `insert_record` without an LSN leaves the page's. -/
theorem pageLsn_insertRecord {x y : Page} {record : Bytes} {slot : Nat} (hw : Wf x)
    (hi : PageOps.inited x = true) (h : x.insertRecord record 0 = some (y, slot)) :
    y.pageLsn = x.pageLsn := by
  have hlen : (keptBytes record).length < 2 ^ 16 := by
    rw [length_keptBytes]
    exact Nat.mod_lt _ (by decide)
  rw [← x.insertRecord_keptBytes record 0] at h
  obtain ⟨hf, -, rfl⟩ := insertRecord_eq hw (of_decide_eq_true hi) hlen h
  rw [redoInsert_eq, pageLsn_stamp, pageLsn_placed hf, Nat.zero_max]

theorem pageLsn_deleteRecord {x : Page} (hw : Wf x) (slot : Nat) :
    (x.deleteRecord slot 0).1.pageLsn = x.pageLsn := by
  rw [deleteRecord_eq]
  split
  · rename_i hs
    rw [pageLsn_stamp, pageLsn_deleted (hw.header_room hs.1), Nat.zero_max]
  · rfl

end Page

/-- `flush(lsn)` puts every record up to that LSN into the file. -/
theorem LogManager.Ok.getElem?_flush {lm : LogManager} (h : lm.Ok) {i l : Nat} {r : Record}
    (hi : i ≤ l) (hr : lm.log[i]? = some r) : (lm.flush l).file[i]? = some r := by
  have hlt := (List.getElem?_eq_some_iff.mp hr).1
  have hfile : i < (lm.flush l).file.length := by
    rw [LogManager.flush]
    split
    · rename_i f hf
      split
      · have := h.flushed f hf
        omega
      · rwa [flushAll_file]
    · rwa [flushAll_file]
  rw [← LogManager.flush_log l, LogManager.log, List.getElem?_append_left hfile] at hr
  exact hr

namespace Shell

variable {s s' : Shell Page}

theorem pageLsn_storeValue (h : Base s) {record : Bytes} {rid : Rid}
    (hstore : s.storeValue record = (s', rid)) {p : Nat} (hp : p < s.nextPageId) :
    pageLsn (s'.db.heap p) = pageLsn (s.db.heap p) := by
  rw [storeValue] at hstore
  split at hstore
  · rename_i x slot hins
    obtain ⟨rfl, -⟩ := Prod.mk.injEq .. ▸ hstore
    show pageLsn (if p = s.dataPage then x else s.db.heap p) = _
    split
    · rename_i heq
      rw [heq]
      exact Page.pageLsn_insertRecord (h.wf _) h.inited hins
    · rfl
  · obtain ⟨rfl, -⟩ := Prod.mk.injEq .. ▸ hstore
    show pageLsn (if p = s.nextPageId then _ else s.db.heap p) = _
    rw [if_neg (Nat.ne_of_lt hp)]

/-- `insert_record` on the data page gives the slot that the deleted record had there. -/
def goesBack (s : Shell Page) (rid : Rid) (record : Bytes) : Bool :=
  rid.pageId == s.dataPage &&
    (insertRecord (s.db.heap s.dataPage) record 0).any (·.2 == rid.slotId)

/-- Where `insert_record` gives a slot, that is where the record goes. -/
theorem storeValue_of_goesBack (h : Base s) {record : Bytes} {rid rid' : Rid}
    (hback : s.goesBack rid record = true) (hstore : s.storeValue record = (s', rid')) :
    rid' = rid ∧ rid.slotId ≠ invalidSlotId := by
  simp only [goesBack, Bool.and_eq_true, beq_iff_eq, Option.any_eq_true] at hback
  obtain ⟨hpage, ⟨x, slot⟩, hins, rfl⟩ := hback
  obtain ⟨-, -, -, hslot, -⟩ := SizedPageOps.insertRecord_any (h.wf _) h.inited hins
  refine ⟨?_, hslot⟩
  simp only [storeValue, hins, Prod.mk.injEq] at hstore
  rw [← hstore.2, ← hpage]

/-- A transaction that has logged nothing but BEGIN aborts without a look at the heap. -/
theorem heap_abortTxn {t prev : Nat} {r : Record} (h : Base s) (hl : s.db.att.lookup t = some prev)
    (hr : s.db.lm.log[prev]? = some r) (hb : r.body = .begin) (hs : s.abortTxn t = some s') :
    s'.db.heap = s.db.heap ∧ s.db.lm.log <+: s'.db.lm.log ∧ s'.db.lm.Sound ∧
      s' = { s with db := s'.db } := by
  have hlen := (List.getElem?_eq_some_iff.mp hr).1
  obtain ⟨fuel, hfuel⟩ : ∃ n, s.db.lm.log.length = n + 1 := ⟨s.db.lm.log.length - 1, by omega⟩
  have hsound := h.sound.append t (some prev) .abort
  have hpre : s.db.lm.log <+: (s.db.lm.append t (some prev) .abort).1.log := by
    rw [LogManager.append_log]
    exact List.prefix_append _ _
  have hget := LogManager.readRecordAtLsn_eq hsound.lsn (getElem?_of_isPrefix hpre hr)
  have hone : Database.undoLoop (fuel + 1) { s.db with lm := (s.db.lm.append t (some prev) .abort).1 } t
      s.db.lm.nextLsn (some prev) = some ({ s.db with
        lm := ((s.db.lm.append t (some prev) .abort).1.readRecordAtLsn prev).1 }, s.db.lm.nextLsn) := by
    simp only [Database.undoLoop, Database.undoOne, hget, hb]
  have hflush : ((s.db.lm.append t (some prev) .abort).1.readRecordAtLsn prev).1 =
      (s.db.lm.append t (some prev) .abort).1.flushAll := rfl
  have hs' : s' = { s with db := { s.db with
      lm := ((s.db.lm.append t (some prev) .abort).1.flushAll.append t (some s.db.lm.nextLsn) .txnEnd).1
      att := s.db.att.erase t } } := by
    rw [abortTxn, Database.abort, hl, hfuel, Option.bind_some] at hs
    simp only [LogManager.append_lsn, hone, Option.map_some, Option.some.injEq] at hs
    rw [← hs, hflush]
  subst hs'
  refine ⟨rfl, ?_, hsound.flushAll.append _ _ _, rfl⟩
  rw [LogManager.append_log, LogManager.flushAll_log]
  exact hpre.trans (List.prefix_append _ _)

end Shell

-- ---------------------------------------------------------------------------
-- The rule, and the turns that break it
-- ---------------------------------------------------------------------------

/-- An UPDATE or CLR that leaves slot `u` of page `p` with these contents. -/
def Record.Announces (r : Record) (p u : Nat) (contents : Option Bytes) : Prop :=
  ∃ new, r.body.write? = some (p, u, new) ∧ contents = (image new).map keptBytes

/-- Each slot that the image has otherwise than the one before has its record in the log
file, logged since that one was written. -/
def PageWrite.Announced (w : PageWrite) : Prop :=
  ∀ u, readRecord w.image u ≠ readRecord w.previous u →
    ∃ i r, w.since ≤ i ∧ w.file[i]? = some r ∧ r.Announces w.pageId u (readRecord w.image u)

namespace Machine

/-- The slot reads as in the file. -/
def asWritten (m : Machine) (rid : Rid) : Bool :=
  m.shell.db.read rid.pageId rid.slotId == readRecord (m.disk rid.pageId) rid.slotId

/-- The steps that leave no change behind which is not logged, and write no page on which
there is one that is not logged yet. -/
def allowed (m : Machine) : Event → Bool
  | .next _ =>
    match m.stage with
    | .stored key rid _ _ => (m.shell.db.index key.toInt).isNone || m.asWritten rid
    | .erased _ rid _ record _ _ => m.shell.goesBack rid record || m.asWritten rid
    | _ => true
  | .write p => m.stage.pending.all fun rid => rid.pageId != p || m.asWritten rid
  | _ => true

-- ---------------------------------------------------------------------------
-- The invariant
-- ---------------------------------------------------------------------------

/-- The slot reads as in the file, or as a record left it that was logged since, up to `l`. -/
def Covered (m : Machine) (l p u : Nat) : Prop :=
  m.shell.db.read p u = readRecord (m.disk p) u ∨
    ∃ i r, m.since p ≤ i ∧ i ≤ l ∧ m.shell.db.lm.log[i]? = some r ∧
      r.Announces p u (m.shell.db.read p u)

/-- All slots are covered up to the LSN of their page, apart from one. -/
def CoveredBut (m : Machine) (except : Option Rid) : Prop :=
  ∀ p u, except ≠ some ⟨p, u⟩ → m.Covered (pageLsn (m.shell.db.heap p)) p u

/-- The transaction of a `put` has logged nothing but its BEGIN. -/
def BeginOnly (m : Machine) : Sequel → Prop
  | .finish t _ _ => ∀ prev, m.shell.db.att.lookup t = some prev →
    ∃ r, m.shell.db.lm.log[prev]? = some r ∧ r.body = .begin
  | .loop _ _ _ _ _ => True

/-- What a stage knows of the slot that it is working on. -/
def StageOk (m : Machine) : CommandStage → Prop
  | .store _ record sequel => record ≠ [] ∧ m.BeginOnly sequel
  | .stored _ rid record sequel => record ≠ [] ∧ m.BeginOnly sequel ∧
    (m.Covered (pageLsn (m.shell.db.heap rid.pageId)) rid.pageId rid.slotId ∨
      m.shell.db.read rid.pageId rid.slotId = some (keptBytes record))
  | .erase _ _ record _ _ => record ≠ some []
  | .erased _ _ _ record _ _ => record ≠ []
  | .changed rid _ new _ _ =>
    m.Covered (pageLsn (m.shell.db.heap rid.pageId)) rid.pageId rid.slotId ∨
      m.shell.db.read rid.pageId rid.slotId = (image new).map keptBytes
  | .logged rid lsn _ => m.shell.db.lm.log.length = lsn + 1 ∧ m.Covered lsn rid.pageId rid.slotId
  | _ => True

/-- What holds in all stages alike. -/
structure Kept (m : Machine) : Prop where
  base : Shell.Base m.shell
  active : m.shell.activeTxn = none
  since_le : ∀ p, m.since p ≤ m.shell.db.lm.log.length
  unwritten : ∀ p u, m.shell.nextPageId ≤ p → readRecord (m.disk p) u = none
  writes : ∀ w ∈ m.writes, w.Announced

structure Inv (m : Machine) : Prop extends Kept m where
  covered : m.CoveredBut m.stage.slot
  stageOk : m.StageOk m.stage

theorem Inv.initStorage : Inv initStorage where
  base := .initStorage
  active := rfl
  since_le _ := Nat.zero_le _
  unwritten _ u _ := read_zero u
  writes _ hw := absurd hw List.not_mem_nil
  covered p u _ := by
    refine .inl ?_
    show readRecord (if p = 1 then init 1 else zero : Page) u = readRecord (zero : Page) u
    rw [read_zero]
    split
    · exact read_init 1 u
    · exact read_zero u
  stageOk := trivial

variable {m m' : Machine} {s' : Shell Page} {l l' p u : Nat} {rid : Rid}

-- ---------------------------------------------------------------------------
-- Steps that leave the heap alone
-- ---------------------------------------------------------------------------

theorem Covered.mono (h : m.Covered l p u) (hread : m'.shell.db.read p u = m.shell.db.read p u)
    (hdisk : m'.disk p = m.disk p) (hsince : m'.since p = m.since p)
    (hlog : m.shell.db.lm.log <+: m'.shell.db.lm.log) (hl : l ≤ l') : m'.Covered l' p u := by
  rw [Covered, hread, hdisk, hsince]
  refine h.imp_right ?_
  rintro ⟨i, r, hi, hil, hr, hann⟩
  exact ⟨i, r, hi, Nat.le_trans hil hl, getElem?_of_isPrefix hlog hr, hann⟩

/-- The heap is as it was; the log may be longer, and pages may be taken. -/
structure Still (m : Machine) (s' : Shell Page) : Prop where
  heap : s'.db.heap = m.shell.db.heap
  dataPage : s'.dataPage = m.shell.dataPage
  grown : m.shell.nextPageId ≤ s'.nextPageId
  active : s'.activeTxn = m.shell.activeTxn
  log : m.shell.db.lm.log <+: s'.db.lm.log
  sound : s'.db.lm.Sound

theorem Still.read (h : Still m s') : s'.db.read = m.shell.db.read := by
  funext p u
  rw [Database.read, h.heap]
  rfl

theorem Kept.still (h : Kept m) (hs : Still m s') (stage : CommandStage) : Kept (m.goTo (s', stage)) where
  base := by
    refine ⟨hs.sound, fun p => ?_, ?_, fun p u hp => ?_, ?_⟩
    · show Wf (s'.db.heap p)
      rw [hs.heap]
      exact h.base.wf p
    · show PageOps.inited (s'.db.heap s'.dataPage) = true
      rw [hs.heap, hs.dataPage]
      exact h.base.inited
    · show s'.db.read p u = none
      rw [hs.read]
      exact h.base.fresh p u (Nat.le_trans hs.grown hp)
    · show s'.dataPage < s'.nextPageId
      rw [hs.dataPage]
      exact Nat.lt_of_lt_of_le h.base.dataPage hs.grown
  active := hs.active.trans h.active
  since_le p := Nat.le_trans (h.since_le p) hs.log.length_le
  unwritten p u hp := h.unwritten p u (Nat.le_trans hs.grown hp)
  writes := h.writes

theorem Covered.still (h : m.Covered l p u) (hs : Still m s') (stage : CommandStage) :
    (m.goTo (s', stage)).Covered l p u :=
  h.mono (congrFun (congrFun hs.read p) u) rfl rfl hs.log (Nat.le_refl l)

theorem CoveredBut.still {except : Option Rid} (h : m.CoveredBut except) (hs : Still m s')
    (stage : CommandStage) : (m.goTo (s', stage)).CoveredBut except := by
  intro p u hne
  show Covered _ (pageLsn (s'.db.heap p)) p u
  rw [hs.heap]
  exact (h p u hne).still hs stage

theorem CoveredBut.none {except : Option Rid} (h : m.CoveredBut except)
    (hslot : ∀ rid, except = some rid →
      m.Covered (pageLsn (m.shell.db.heap rid.pageId)) rid.pageId rid.slotId) :
    m.CoveredBut none := by
  intro p u _
  by_cases hc : except = some ⟨p, u⟩
  · exact hslot ⟨p, u⟩ hc
  · exact h p u hc

/-- A step from one stage to the next that changes no page. -/
theorem Kept.move (h : Kept m) {stage : CommandStage} (hcov : m.CoveredBut stage.slot) (hs : Still m s')
    (hok : (m.goTo (s', stage)).StageOk stage) : Inv (m.goTo (s', stage)) :=
  ⟨h.still hs stage, hcov.still hs stage, hok⟩

theorem Inv.move (h : Inv m) {stage : CommandStage} (hslot : stage.slot = m.stage.slot) (hs : Still m s')
    (hok : (m.goTo (s', stage)).StageOk stage) : Inv (m.goTo (s', stage)) :=
  h.toKept.move (hslot ▸ h.covered) hs hok

-- ---------------------------------------------------------------------------
-- Steps that change a page
-- ---------------------------------------------------------------------------

/-- `store_value`: the new record's slot is the only one that is not covered any more. -/
theorem Kept.store (h : Kept m) {record : Bytes} (hstore : m.shell.storeValue record = (s', rid))
    (hcov : m.CoveredBut (some rid))
    (hrid : rid.slotId = invalidSlotId →
      m.Covered (pageLsn (m.shell.db.heap rid.pageId)) rid.pageId rid.slotId) (stage : CommandStage) :
    Kept (m.goTo (s', stage)) ∧ (m.goTo (s', stage)).CoveredBut (some rid) ∧
      ((m.goTo (s', stage)).Covered (pageLsn (s'.db.heap rid.pageId)) rid.pageId rid.slotId ∨
        s'.db.read rid.pageId rid.slotId = some (keptBytes record)) ∧
      s'.db.lm = m.shell.db.lm ∧ s'.db.att = m.shell.db.att := by
  obtain ⟨s₁, rid₁, hstore₁, hpl⟩ := Shell.storeValue_any h.base record
  obtain ⟨rfl, rfl⟩ := Prod.mk.injEq .. ▸ hstore₁.symm.trans hstore
  have hkeep : ∀ p u, s₁.db.read p u = m.shell.db.read p u →
      m.Covered (pageLsn (m.shell.db.heap p)) p u →
      (m.goTo (s₁, stage)).Covered (pageLsn (s₁.db.heap p)) p u := by
    intro p u hread hc
    rcases Nat.lt_or_ge p m.shell.nextPageId with hp | hp
    · rw [Shell.pageLsn_storeValue h.base hstore hp]
      exact hc.mono hread rfl rfl (by rw [show (m.goTo (s₁, stage)).shell.db.lm = s₁.db.lm from rfl,
        hpl.rest.lm]) (Nat.le_refl _)
    · -- a page that nobody has written
      refine .inl (hread.trans ?_)
      rw [h.base.fresh p u hp]
      exact (h.unwritten p u hp).symm
  refine ⟨⟨hpl.base, hpl.rest.activeTxn.trans h.active, fun p => ?_, fun p u hp => ?_, h.writes⟩, ?_,
    ?_, hpl.rest.lm, hpl.rest.att⟩
  · show m.since p ≤ s₁.db.lm.log.length
    rw [hpl.rest.lm]
    exact h.since_le p
  · exact h.unwritten p u (Nat.le_trans hpl.rest.grown hp)
  · intro p u hne
    refine hkeep p u ?_ (hcov p u hne)
    rcases hpl.outcome with ⟨-, hread, -⟩ | ⟨-, -, -, hread⟩
    · rw [hread]
    · rw [hread]
      exact Contents.set_of_ne (q := ⟨p, u⟩) _ (fun hc => hne (congrArg some hc.symm)) _
  · rcases hpl.outcome with ⟨hinv, hread, -⟩ | ⟨-, -, -, hread⟩
    · exact .inl (hkeep _ _ (by rw [hread]) (hrid hinv))
    · refine .inr ?_
      rw [hread, Contents.set_self]

/-- `delete_record`: the same for the slot of the old record. -/
theorem Kept.erase (h : Kept m) (hcov : m.CoveredBut none) (rid : Rid) (index : IndexMap)
    (hs : s' = { m.shell with db := { m.shell.db.setPage rid.pageId
      (deleteRecord (m.shell.db.heap rid.pageId) rid.slotId 0).1 with index } }) (stage : CommandStage) :
    Kept (m.goTo (s', stage)) ∧ (m.goTo (s', stage)).CoveredBut (some rid) ∧
      s'.db.read rid.pageId rid.slotId = none := by
  obtain ⟨hbase, hread⟩ := h.base.delete rid
  have hread' : s'.db.read = Contents.set m.shell.db.read rid.pageId rid.slotId none := by
    rw [hs]
    exact hread
  have hlsn : ∀ p, pageLsn (s'.db.heap p) = pageLsn (m.shell.db.heap p) := by
    intro p
    rw [hs]
    show pageLsn (if p = rid.pageId then _ else m.shell.db.heap p) = _
    split
    · rename_i hp
      rw [hp]
      exact Page.pageLsn_deleteRecord (h.base.wf _) _
    · rfl
  refine ⟨⟨?_, ?_, ?_, ?_, h.writes⟩, fun p u hne => ?_, ?_⟩
  · rw [hs]
    exact hbase.congr rfl rfl rfl (Nat.le_refl _)
  · rw [hs]
    exact h.active
  · rw [hs]
    exact h.since_le
  · rw [hs]
    exact h.unwritten
  · show Covered _ (pageLsn (s'.db.heap p)) p u
    rw [hlsn]
    refine (hcov p u (Option.some_ne_none _).symm).mono ?_ rfl rfl (by rw [hs]; exact List.prefix_rfl)
      (Nat.le_refl _)
    show s'.db.read p u = _
    rw [hread']
    exact Contents.set_of_ne (q := ⟨p, u⟩) _ (fun hc => hne (congrArg some hc.symm)) _
  · rw [hread', Contents.set_self]

/-- No record is above the last one. -/
theorem Covered.le_last {lsn : Nat} (h : m.Covered l p u) (hlen : m.shell.db.lm.log.length = lsn + 1) :
    m.Covered lsn p u := by
  refine h.imp_right ?_
  rintro ⟨i, r, hi, -, hr, hann⟩
  have := (List.getElem?_eq_some_iff.mp hr).1
  exact ⟨i, r, hi, by omega, hr, hann⟩

/-- `set_page_lsn` with the LSN of the last record. -/
theorem Kept.stamp (h : Kept m) {lsn : Nat} (hcov : m.CoveredBut (some rid))
    (hlen : m.shell.db.lm.log.length = lsn + 1) (hrid : m.Covered lsn rid.pageId rid.slotId)
    (hs : s' = { m.shell with db := m.shell.db.stampPage rid.pageId lsn }) (stage : CommandStage) :
    Kept (m.goTo (s', stage)) ∧ (m.goTo (s', stage)).CoveredBut none := by
  have hheap : ∀ p, s'.db.heap p =
      if p = rid.pageId then setPageLsn (m.shell.db.heap rid.pageId) lsn else m.shell.db.heap p := by
    intro p
    rw [hs]
    rfl
  have hread : ∀ p u, s'.db.read p u = m.shell.db.read p u := by
    intro p u
    rw [Database.read, hheap]
    split
    · rename_i hp
      rw [hp, read_setPageLsn _ _ (h.base.wf _)]
      rfl
    · rfl
  have hlog : m.shell.db.lm.log <+: (m.goTo (s', stage)).shell.db.lm.log := by
    rw [hs]
    exact List.prefix_rfl
  refine ⟨⟨⟨?_, fun p => ?_, ?_, fun p u hp => ?_, ?_⟩, ?_, ?_, ?_, h.writes⟩, fun p u _ => ?_⟩
  · rw [hs]
    exact h.base.sound
  · show Wf (s'.db.heap p)
    rw [hheap]
    split
    · exact wf_setPageLsn _ (h.base.wf _)
    · exact h.base.wf p
  · show PageOps.inited (s'.db.heap s'.dataPage) = true
    rw [hheap, show s'.dataPage = m.shell.dataPage by rw [hs]]
    split
    · rename_i hp
      rw [inited_setPageLsn, ← hp]
      exact h.base.inited
    · exact h.base.inited
  · show s'.db.read p u = none
    rw [hread]
    refine h.base.fresh p u ?_
    rw [hs] at hp
    exact hp
  · rw [hs]
    exact h.base.dataPage
  · rw [hs]
    exact h.active
  · rw [hs]
    exact h.since_le
  · rw [hs]
    exact h.unwritten
  · show Covered _ (pageLsn (s'.db.heap p)) p u
    have hold : m.Covered (if p = rid.pageId then lsn else pageLsn (m.shell.db.heap p)) p u := by
      by_cases hpu : rid = ⟨p, u⟩
      · rw [hpu] at hrid ⊢
        rw [if_pos rfl]
        exact hrid
      · have hc := hcov p u (fun hc => hpu (Option.some.inj hc))
        split
        · exact hc.le_last hlen
        · exact hc
    refine hold.mono (hread p u) rfl rfl hlog ?_
    rw [hheap]
    split
    · rw [lsn_setPageLsn]
    · exact Nat.le_refl _

-- ---------------------------------------------------------------------------
-- Page writes
-- ---------------------------------------------------------------------------

theorem StageOk.congr {stage : CommandStage} (h : m.StageOk stage)
    (hcov : ∀ l q u, m.Covered l q u → m'.Covered l q u) (hheap : m'.shell.db.heap = m.shell.db.heap)
    (hatt : m'.shell.db.att = m.shell.db.att) (hlog : m'.shell.db.lm.log = m.shell.db.lm.log) :
    m'.StageOk stage := by
  have hread : m'.shell.db.read = m.shell.db.read := by
    funext q u
    rw [Database.read, hheap]
    rfl
  have hbegin : ∀ sequel, m.BeginOnly sequel → m'.BeginOnly sequel := by
    intro sequel hb
    cases sequel with
    | finish t auto counted => rwa [BeginOnly, hatt, hlog]
    | loop t auto k i inserted => trivial
  cases stage with
  | ready => trivial
  | loop t auto k i inserted => trivial
  | store key record sequel => exact ⟨h.1, hbegin _ h.2⟩
  | stored key rid record sequel =>
    refine ⟨h.1, hbegin _ h.2.1, ?_⟩
    rw [hheap, hread]
    exact h.2.2.imp_left (hcov _ _ _)
  | erase key rid record t auto => exact h
  | erased key rid old record t auto => exact h
  | changed rid old new key sequel =>
    rw [StageOk, hheap, hread]
    exact Or.imp_left (hcov _ _ _) h
  | logged rid lsn sequel =>
    rw [StageOk, hlog]
    exact ⟨h.1, hcov _ _ _ h.2⟩

/-- **A page write.** The slot in work is on another page or reads as in the file; any
other one that has changed has a record at or below the LSN that `enforce_wal` flushes to. -/
theorem Inv.write (h : Inv m) (hcan : m.canWrite p = true) (hok : m.allowed (.write p) = true) :
    Inv (m.writePage p) := by
  rw [canWrite, Bool.and_eq_true, decide_eq_true_eq] at hcan
  obtain ⟨hlt, hpin⟩ := hcan
  have hslot : ∀ u, m.stage.slot = some ⟨p, u⟩ →
      m.shell.db.read p u = readRecord (m.disk p) u := by
    intro u hu
    simp only [allowed, Option.all_eq_true, Bool.or_eq_true, bne_iff_ne, ne_eq] at hok
    cases hst : m.stage with
    | logged rid lsn sequel =>
      rw [hst] at hu hpin
      obtain rfl : rid = ⟨p, u⟩ := Option.some.inj hu
      simp at hpin
    | stored key rid record sequel =>
      rw [hst] at hu hok
      exact eq_of_beq ((hok _ hu).resolve_left (fun hne => hne rfl))
    | erased key rid old record t auto =>
      rw [hst] at hu hok
      exact eq_of_beq ((hok _ hu).resolve_left (fun hne => hne rfl))
    | changed rid old new key sequel =>
      rw [hst] at hu hok
      exact eq_of_beq ((hok _ hu).resolve_left (fun hne => hne rfl))
    | _ =>
      rw [hst] at hu
      cases hu
  have hlog : (m.writePage p).shell.db.lm.log = m.shell.db.lm.log := LogManager.flush_log _
  have hcov : ∀ l q u, m.Covered l q u → (m.writePage p).Covered l q u := by
    intro l q u hc
    by_cases hq : q = p
    · refine .inl ?_
      subst hq
      show readRecord (m.shell.db.heap q) u = readRecord (if q = q then _ else _) u
      rw [if_pos rfl]
    · exact hc.mono rfl (if_neg hq) (if_neg hq) (by rw [hlog]) (Nat.le_refl l)
  refine ⟨⟨⟨h.base.sound.flush _, h.base.wf, h.base.inited, h.base.fresh, h.base.dataPage⟩, h.active,
    fun q => ?_, fun q u hq => ?_, fun w hw => ?_⟩, fun q u hne => hcov _ q u (h.covered q u hne),
    h.stageOk.congr hcov rfl rfl hlog⟩
  · show (if q = p then _ else m.since q) ≤ (m.writePage p).shell.db.lm.log.length
    split
    · exact Nat.le_refl _
    · rw [hlog]
      exact h.since_le q
  · have hne : q ≠ p := by
      have hq' : m.shell.nextPageId ≤ q := hq
      omega
    show readRecord (if q = p then _ else m.disk q) u = none
    rw [if_neg hne]
    exact h.unwritten q u hq
  · rcases List.mem_cons.mp hw with rfl | hw
    · intro u hne
      have hc : m.Covered (pageLsn (m.shell.db.heap p)) p u := by
        by_cases hu : m.stage.slot = some ⟨p, u⟩
        · exact .inl (hslot u hu)
        · exact h.covered p u hu
      obtain ⟨i, r, hi, hil, hr, hann⟩ := hc.resolve_left hne
      exact ⟨i, r, hi, h.base.sound.ok.getElem?_flush hil hr, hann⟩
    · exact h.writes w hw

/-- A node of the index is written: the log may be flushed. -/
theorem Inv.writeNode (h : Inv m) (upTo : Nat) :
    Inv { m with shell := { m.shell with db := { m.shell.db with lm := m.shell.db.lm.flush upTo } } } := by
  have hs : Still m { m.shell with db := { m.shell.db with lm := m.shell.db.lm.flush upTo } } :=
    ⟨rfl, rfl, Nat.le_refl _, rfl, by rw [LogManager.flush_log], h.base.sound.flush _⟩
  exact h.move rfl hs (h.stageOk.congr (fun _ _ _ hc => hc.still hs _) rfl rfl (LogManager.flush_log _))

-- ---------------------------------------------------------------------------
-- One event
-- ---------------------------------------------------------------------------

variable {t : Nat} {auto : Bool}

/-- A command begins, in a transaction of its own. -/
theorem Inv.start (h : Inv m) {stage : Nat → Bool → CommandStage} (hstart : m.start stage = some m')
    (hslot : ∀ t auto, (stage t auto).slot = none)
    (hok : ∀ (a : Machine) t, (∀ counted, a.BeginOnly (.finish t true counted)) →
      a.StageOk (stage t true)) : Inv m' := by
  rw [Machine.start] at hstart
  split at hstart
  · rename_i hready
    have hbegin : m.shell.autoBegin =
        ({ m.shell with db := m.shell.db.begin }, m.shell.db.nextTxnId, true) := by
      unfold Shell.autoBegin
      split
      · rename_i t ht
        rw [h.active] at ht
        cases ht
      · rfl
    rw [hbegin] at hstart
    obtain rfl := Option.some.inj hstart
    have hs : Still m { m.shell with db := m.shell.db.begin } := by
      refine ⟨rfl, rfl, Nat.le_refl _, rfl, ?_, h.base.sound.append _ _ _⟩
      show _ <+: (m.shell.db.lm.append _ none .begin).1.log
      rw [LogManager.append_log]
      exact List.prefix_append _ _
    refine h.move (by rw [hslot, hready]; rfl) hs (hok _ _ fun _ prev hl => ?_)
    rw [show (m.goTo _).shell.db.att.lookup m.shell.db.nextTxnId = some m.shell.db.lm.nextLsn from
      AList.lookup_insert _] at hl
    exact ⟨_, Option.some.inj hl ▸ h.base.sound.getElem?_append _ _ _, rfl⟩
  · cases hstart

theorem Inv.startAt (h : Inv m) {key : Int64} {record : Option Bytes} (hne : record ≠ some [])
    (hstart : m.startAt key record = some m') : Inv m' := by
  rw [Machine.startAt] at hstart
  split at hstart
  · split at hstart
    · exact Option.some.inj hstart ▸ h
    · cases hstart
  · exact h.start hstart (fun _ _ => rfl) fun _ _ _ => hne

/-- The commit of a command logs and flushes. -/
theorem Kept.autoCommit (h : Kept m) (hc : m.shell.autoCommit t auto = some s') : Still m s' := by
  rw [Shell.autoCommit] at hc
  split at hc
  · rw [Shell.commitTxn, Database.commit] at hc
    simp only [Option.map_eq_some_iff] at hc
    obtain ⟨db, ⟨prev, -, rfl⟩, rfl⟩ := hc
    refine ⟨rfl, rfl, Nat.le_refl _, rfl, ?_,
      ((h.base.sound.append t (some prev) .commit).flush _).append _ _ _⟩
    show _ <+: (LogManager.append _ t _ .txnEnd).1.log
    rw [LogManager.append_log, LogManager.flush_log, LogManager.append_log, List.append_assoc]
    exact List.prefix_append _ _
  · obtain rfl := Option.some.inj hc
    exact ⟨rfl, rfl, Nat.le_refl _, rfl, List.prefix_rfl, h.base.sound⟩

/-- The counters are not part of it. -/
theorem Still.counters (h : Still m s') (totalPuts : UInt64) (nextFillKey : Int64) :
    Still m { s' with totalPuts, nextFillKey } :=
  ⟨h.heap, h.dataPage, h.grown, h.active, h.log, h.sound⟩

theorem Still.refl (h : Kept m) : Still m m.shell :=
  ⟨rfl, rfl, Nat.le_refl _, rfl, List.prefix_rfl, h.base.sound⟩

/-- Behind the stamp every slot is covered. -/
theorem Kept.goOn (h : Kept m) (hcov : m.CoveredBut none) {sequel : Sequel} {x : Shell Page × CommandStage}
    (hx : m.shell.goOn sequel = some x) : Inv (m.goTo x) := by
  cases sequel with
  | finish t auto counted =>
    rw [Shell.goOn, Option.map_eq_some_iff] at hx
    obtain ⟨s₁, hcommit, rfl⟩ := hx
    refine h.move hcov ?_ trivial
    split
    · exact (h.autoCommit hcommit).counters _ _
    · exact h.autoCommit hcommit
  | loop t auto k i inserted =>
    obtain rfl := Option.some.inj hx
    exact h.move hcov (.refl h) trivial

/-- A refused insert, where nothing has been left behind. -/
theorem Kept.refuse (h : Kept m) (hcov : m.CoveredBut none) {sequel : Sequel}
    {x : Shell Page × CommandStage} (hbegin : m.BeginOnly sequel) (hx : m.shell.refuse sequel = some x) :
    Inv (m.goTo x) := by
  cases sequel with
  | finish t auto counted =>
    rw [Shell.refuse, Option.map_eq_some_iff] at hx
    obtain ⟨s₁, habort, rfl⟩ := hx
    refine h.move hcov ?_ trivial
    split at habort
    · obtain ⟨prev, hl⟩ : ∃ prev, m.shell.db.att.lookup t = some prev := by
        cases hl : m.shell.db.att.lookup t with
        | none => simp [Shell.abortTxn, Database.abort, hl] at habort
        | some prev => exact ⟨prev, rfl⟩
      obtain ⟨r, hr, hb⟩ := hbegin prev hl
      obtain ⟨hheap, hlog, hsound, hrest⟩ := Shell.heap_abortTxn h.base hl hr hb habort
      rw [hrest]
      exact ⟨hheap, rfl, Nat.le_refl _, rfl, hlog, hsound⟩
    · obtain rfl := Option.some.inj habort
      exact .refl h
  | loop t auto k i inserted =>
    obtain rfl := Option.some.inj hx
    exact h.move hcov (.refl h) trivial

/-- **The next stage of a command.** -/
theorem Inv.next (h : Inv m) {grow : Nat} (hok : m.allowed (.next grow) = true)
    {x : Shell Page × CommandStage} (hx : m.shell.advance grow m.stage = some x) : Inv (m.goTo x) := by
  have hcov := h.covered
  have hst := h.stageOk
  rw [allowed] at hok
  cases hstage : m.stage with
  | ready =>
    rw [hstage] at hx
    cases hx
  | loop t auto k i inserted =>
    rw [hstage] at hx hcov
    cases k with
    | zero =>
      rw [Shell.advance, Option.map_eq_some_iff] at hx
      obtain ⟨s₁, hcommit, rfl⟩ := hx
      exact h.toKept.move hcov ((h.autoCommit hcommit).counters _ _) trivial
    | succ k =>
      obtain rfl := Option.some.inj hx
      exact h.toKept.move hcov ((Still.refl h.toKept).counters _ _) ⟨makeRecord_ne_nil _ _, trivial⟩
  | store key record sequel =>
    rw [hstage] at hx hcov hst
    obtain ⟨⟨s₁, rid⟩, hstore⟩ : ∃ x, m.shell.storeValue record = x := ⟨_, rfl⟩
    rw [Shell.advance, hstore] at hx
    obtain rfl := Option.some.inj hx
    obtain ⟨hk, hcov₁, hrid, hlm, hatt⟩ := h.toKept.store hstore
      (fun p u _ => hcov p u (Option.some_ne_none _).symm)
      (fun _ => hcov _ _ (Option.some_ne_none _).symm) (.stored key rid record sequel)
    refine ⟨hk, hcov₁, hst.1, ?_, hrid⟩
    have hbegin := hst.2
    cases sequel with
    | finish t auto counted =>
      rw [BeginOnly] at hbegin ⊢
      show ∀ prev, s₁.db.att.lookup t = _ → ∃ r, s₁.db.lm.log[prev]? = _ ∧ _
      rwa [hlm, hatt]
    | loop t auto k i inserted => trivial
  | stored key rid record sequel =>
    rw [hstage] at hx hcov hst hok
    obtain ⟨hne, hbegin, hrid⟩ := hst
    rw [Shell.advance] at hx
    split at hx
    · rename_i hkey
      -- refused: the slot reads as in the file
      have hwritten : m.asWritten rid = true := by
        simp only [Bool.or_eq_true] at hok
        refine hok.resolve_left fun hnone => ?_
        rw [Option.isNone_iff_eq_none] at hnone
        rw [Shell.search_of_none hnone] at hkey
        cases hkey
      refine h.toKept.refuse (hcov.none fun r hr => ?_) hbegin hx
      obtain rfl := Option.some.inj hr
      exact .inl (eq_of_beq hwritten)
    · obtain rfl := Option.some.inj hx
      have hs : Still m (m.shell.indexInsert key rid grow) :=
        ⟨rfl, rfl, Nat.le_add_right _ _, rfl, List.prefix_rfl, h.base.sound⟩
      refine h.toKept.move hcov hs ?_
      rw [StageOk, image_of_ne hne]
      exact hrid.imp_left fun hc => hc.still hs _
  | erase key rid record t auto =>
    rw [hstage] at hx hcov hst
    cases record with
    | none =>
      obtain rfl := Option.some.inj hx
      obtain ⟨hk, hcov₁, hread⟩ := h.toKept.erase hcov rid _ rfl (.changed rid
        ((m.shell.db.read rid.pageId rid.slotId).getD []) [] key.toInt (.finish t auto false))
      exact ⟨hk, hcov₁, .inr hread⟩
    | some record =>
      obtain rfl := Option.some.inj hx
      obtain ⟨hk, hcov₁, -⟩ := h.toKept.erase hcov rid m.shell.db.index rfl (.erased key rid
        ((m.shell.db.read rid.pageId rid.slotId).getD []) record t auto)
      exact ⟨hk, hcov₁, fun hnil => hst (congrArg some hnil)⟩
  | erased key rid old record t auto =>
    rw [hstage] at hx hcov hst hok
    obtain ⟨⟨s₁, newRid⟩, hstore⟩ : ∃ x, m.shell.storeValue record = x := ⟨_, rfl⟩
    rw [Shell.advance, hstore] at hx
    obtain rfl := Option.some.inj hx
    -- the new record is in the old one's slot, or the old one's is covered
    have hcov' : m.CoveredBut (some newRid) ∧ (newRid.slotId = invalidSlotId →
        m.Covered (pageLsn (m.shell.db.heap newRid.pageId)) newRid.pageId newRid.slotId) := by
      rw [Bool.or_eq_true] at hok
      rcases hok with hback | hwritten
      · obtain ⟨rfl, hslot⟩ := Shell.storeValue_of_goesBack h.base hback hstore
        exact ⟨hcov, fun hinv => absurd hinv hslot⟩
      · have hall : m.CoveredBut none := by
          refine hcov.none fun r hr => ?_
          obtain rfl := Option.some.inj hr
          exact .inl (eq_of_beq hwritten)
        exact ⟨fun p u _ => hall p u (Option.some_ne_none _).symm,
          fun _ => hall _ _ (Option.some_ne_none _).symm⟩
    obtain ⟨hk, hcov₁, hrid, -, -⟩ := h.toKept.store hstore hcov'.1 hcov'.2
      (.changed newRid old record 0 (.finish t auto false))
    have hinv : Inv (m.goTo (s₁, .changed newRid old record 0 (.finish t auto false))) := by
      refine ⟨hk, hcov₁, ?_⟩
      show StageOk _ (.changed newRid old record 0 (.finish t auto false))
      rw [StageOk, image_of_ne hst]
      exact hrid
    split
    · exact hinv
    · have hs : Still (m.goTo (s₁, .changed newRid old record 0 (.finish t auto false)))
          (Shell.indexInsert { s₁ with db := { s₁.db with index := s₁.db.index.remove key.toInt } } key
            newRid grow) :=
        ⟨rfl, rfl, Nat.le_add_right _ _, rfl, List.prefix_rfl, hk.base.sound⟩
      exact hinv.move rfl hs (hinv.stageOk.congr (fun _ _ _ hc => hc.still hs _) rfl rfl rfl)
  | changed rid old new key sequel =>
    rw [hstage] at hx hcov hst
    rw [Shell.advance, Database.logUpdate, Option.map_map, Option.map_eq_some_iff] at hx
    obtain ⟨prev, -, rfl⟩ := hx
    have hsound := h.base.sound.append sequel.txn (some prev)
      (.update rid.pageId rid.slotId old new key)
    have hnext := h.base.sound.ok.next
    have hinv : ∀ lm : LogManager, lm.Sound → lm.log = m.shell.db.lm.log ++ [⟨m.shell.db.lm.nextLsn,
        sequel.txn, some prev, .update rid.pageId rid.slotId old new key⟩] →
        Inv (m.goTo ({ m.shell with db := { m.shell.db with
          lm, att := m.shell.db.att.insert sequel.txn m.shell.db.lm.nextLsn } },
          .logged rid m.shell.db.lm.nextLsn sequel)) := by
      intro lm hlm hlog
      have hlen : lm.log.length = m.shell.db.lm.nextLsn + 1 := by
        rw [hlog, List.length_append, hnext]
        rfl
      have hs : Still m { m.shell with db := { m.shell.db with
          lm, att := m.shell.db.att.insert sequel.txn m.shell.db.lm.nextLsn } } :=
        ⟨rfl, rfl, Nat.le_refl _, rfl, hlog ▸ List.prefix_append _ _, hlm⟩
      refine h.toKept.move hcov hs ⟨hlen, ?_⟩
      rcases hst with hc | hread
      · exact (hc.still hs _).le_last hlen
      · refine .inr ⟨m.shell.db.lm.nextLsn, ⟨m.shell.db.lm.nextLsn, sequel.txn, some prev,
          .update rid.pageId rid.slotId old new key⟩, ?_, Nat.le_refl _, ?_, new, rfl, hread⟩
        · rw [hnext]
          exact h.since_le rid.pageId
        · show lm.log[m.shell.db.lm.nextLsn]? = _
          rw [hlog, List.getElem?_append_right (Nat.le_of_eq hnext.symm), hnext, Nat.sub_self]
          rfl
    refine hinv _ ?_ ?_
    · show LogManager.Sound (if _ then _ else _)
      split
      · exact hsound.flush _
      · exact hsound
    · show LogManager.log (if _ then _ else _) = _
      split
      · rw [LogManager.flush_log]
        exact LogManager.append_log _ _ _
      · exact LogManager.append_log _ _ _
  | logged rid lsn sequel =>
    rw [hstage] at hx hcov hst
    obtain ⟨hk, hcov₁⟩ := h.toKept.stamp hcov hst.1 hst.2 rfl .ready
    exact hk.goOn hcov₁ hx

theorem Inv.step (h : Inv m) {e : Event} (hok : m.allowed e = true) (hs : m.step e = some m') :
    Inv m' := by
  cases e with
  | put key value =>
    have hstart : m.start (fun t auto => .store key (makeRecord key value) (.finish t auto true)) =
        some m' := hs
    exact h.start hstart (fun _ _ => rfl) fun _ _ hb => ⟨makeRecord_ne_nil key value, hb true⟩
  | update key value =>
    exact h.startAt (fun hc => makeRecord_ne_nil key value (Option.some.inj hc)) hs
  | del key => exact h.startAt (Option.some_ne_none _).symm hs
  | fill n =>
    have hstart : m.start (fun t auto => .loop t auto n.toInt.toNat 0 0) = some m' := hs
    exact h.start hstart (fun _ _ => rfl) fun _ _ _ => trivial
  | next grow =>
    simp only [Machine.step, Option.map_eq_some_iff] at hs
    obtain ⟨x, hx, rfl⟩ := hs
    exact h.next hok hx
  | write p =>
    simp only [Machine.step] at hs
    split at hs
    · rename_i hcan
      exact Option.some.inj hs ▸ h.write hcan hok
    · cases hs
  | writeNode upTo => exact Option.some.inj hs ▸ h.writeNode upTo

theorem Inv.of_steps
    (hrun : Steps Machine.step (fun m e => m.allowed e = true) Machine.initStorage m) : Inv m :=
  hrun.invariant (fun _ _ _ h hok hs => h.step hok hs) .initStorage

-- ---------------------------------------------------------------------------
-- The write-ahead rule
-- ---------------------------------------------------------------------------

/-- **Write-ahead.** In every run in which no insert is refused behind its back, no update
moves a record and no page is written on which a change is not logged yet (unless the slot
reads as in the file anyway), each slot that a written page has otherwise than its previous
image has its record in the log file at that moment. -/
theorem announced_of_steps (hrun : Steps step (fun m e => m.allowed e = true) initStorage m) :
    ∀ w ∈ m.writes, w.Announced :=
  (Inv.of_steps hrun).writes

/-- `put` of a new key, with page 1 written before and between. -/
def putAndWrite : List Event :=
  [.put 1 [97], .next 0, .write 0, .next 0, .next 0, .next 0, .write 1]

/-- The page is written with the new record, and the record is in the log. -/
theorem announced_after_put : ∃ m, Steps step (fun m e => m.allowed e = true) initStorage m ∧
    (∃ w ∈ m.writes, readRecord w.image 0 ≠ readRecord w.previous 0) ∧ ∀ w ∈ m.writes, w.Announced := by
  have hrun : Steps step (fun m e => m.allowed e = true) initStorage
      (run step allowed initStorage putAndWrite).1 :=
    Steps.of_run (fun _ _ h => h) (by decide +kernel)
  exact ⟨_, hrun, by decide +kernel, announced_of_steps hrun⟩

/-- A second `put` of the key is refused; then page 1 is written by `flush`. -/
def refusedAndWrite : List Event :=
  [.put 1 [97], .next 0, .next 0, .next 0, .next 0, .put 1 [98], .next 0, .next 0, .write 1]

/-- The record of the refused `put` reaches the file without a log record of its slot. -/
theorem refused_put_unannounced : ∃ m, Steps step (fun _ _ => True) initStorage m ∧
    ∃ w ∈ m.writes, ¬ w.Announced := by
  have hrun : Steps step (fun _ _ => True) initStorage
      (run step (fun _ _ => true) initStorage refusedAndWrite).1 :=
    Steps.of_run (fun _ _ _ => trivial) (by decide +kernel)
  have hchecks : ∃ w ∈ (run step (fun _ _ => true) initStorage refusedAndWrite).1.writes,
      readRecord w.image 1 ≠ readRecord w.previous 1 ∧
        ∀ r ∈ w.file, ∀ x ∈ r.body.write?, (x.1, x.2.1) ≠ (w.pageId, 1) := by
    decide +kernel
  obtain ⟨w, hw, hne, hnone⟩ := hchecks
  refine ⟨_, hrun, w, hw, fun hann => ?_⟩
  obtain ⟨i, r, -, hr, new, hwrite, -⟩ := hann 1 hne
  exact hnone r (List.mem_of_getElem? hr) _ hwrite rfl

end Machine

end PersistX
