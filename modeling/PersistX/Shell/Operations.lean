import PersistX.Shell.Commands
import PersistX.Txn.Rollback

/-!
# PersistX — what the shell's helpers do

One specification for each step that the commands are made of: `storeValue_spec`,
`logWrite_spec`, `autoBegin_spec`, `commitTxn_spec`, `abortTxn_spec`. They hold in
every state that satisfies `Shell.Base`, which a fresh database does and every
command keeps.
-/

namespace PersistX

open PageOps LawfulPageOps DataPageOps

variable {P : Type} [DataPageOps P]

/-- A page fresh from `init` is well formed and holds no record. -/
theorem wf_init (p : Nat) : Wf (init p : P) := eqv_wf (eqv_symm (eqv_init p)) wf_zero

theorem read_init (p slot : Nat) : readRecord (init p : P) slot = none := by
  rw [eqv_read slot (wf_init p) (eqv_init p), read_zero]

namespace Shell

variable {s : Shell P}

/-- What every command relies on: LSNs are positions, the pages are well formed,
the data page can take records, and pages not yet allocated hold none. -/
structure Base (s : Shell P) : Prop where
  sound : s.db.lm.Sound
  wf : ∀ p, Wf (s.db.heap p)
  inited : inited (s.db.heap s.dataPage) = true
  fresh : ∀ p slot, s.nextPageId ≤ p → s.db.read p slot = none
  dataPage : s.dataPage < s.nextPageId

theorem Base.initStorage : Base (initStorage : Shell P) where
  sound := .new
  wf p := by
    show Wf (if p = 1 then init 1 else zero : P)
    split
    · exact wf_init 1
    · exact wf_zero
  inited := inited_init 1
  fresh p slot hp := by
    have hne : p ≠ 1 := by
      have : 2 ≤ p := hp
      omega
    show readRecord (if p = 1 then init 1 else zero : P) slot = none
    rw [if_neg hne, read_zero]
  dataPage := Nat.lt_succ_self 1

-- ---------------------------------------------------------------------------
-- Storing a record
-- ---------------------------------------------------------------------------

/-- Heap, index and page allocation apart, nothing has changed. -/
structure Rest (s s' : Shell P) : Prop where
  lm : s'.db.lm = s.db.lm
  att : s'.db.att = s.db.att
  nextTxnId : s'.db.nextTxnId = s.db.nextTxnId
  activeTxn : s'.activeTxn = s.activeTxn
  totalPuts : s'.totalPuts = s.totalPuts
  nextFillKey : s'.nextFillKey = s.nextFillKey
  grown : s.nextPageId ≤ s'.nextPageId

omit [DataPageOps P] in
theorem Rest.trans {s₁ s₂ : Shell P} (h : Rest s s₁) (h' : Rest s₁ s₂) : Rest s s₂ :=
  ⟨h'.lm.trans h.lm, h'.att.trans h.att, h'.nextTxnId.trans h.nextTxnId,
    h'.activeTxn.trans h.activeTxn, h'.totalPuts.trans h.totalPuts,
    h'.nextFillKey.trans h.nextFillKey, Nat.le_trans h.grown h'.grown⟩

/-- `store_value` has put the record into a free slot, on the data page of `s'`. -/
structure Stored (s s' : Shell P) (record : Bytes) (rid : Rid) : Prop where
  rest : Rest s s'
  index : s'.db.index = s.db.index
  base : Base s'
  page : rid.pageId = s'.dataPage
  free : s.db.read rid.pageId rid.slotId = none
  read : s'.db.read = Contents.set s.db.read rid.pageId rid.slotId (some record)

/-- `insert_record` on a page that can take records. -/
theorem insertRecord_stored {x y : P} {record : Bytes} {slot : Nat} (hw : Wf x)
    (hi : PageOps.inited x = true) (hne : record ≠ []) (hlen : record.length ≤ maxRecordLen)
    (h : insertRecord x record 0 = some (y, slot)) :
    readRecord x slot = none ∧ Wf y ∧ PageOps.inited y = true ∧
      ∀ u, readRecord y u = if u = slot then some record else readRecord x u := by
  obtain ⟨hfits, hfree, rfl⟩ := insertRecord_spec hw hi hne (sizeOk_of_le hlen) h
  obtain ⟨hwf, hread⟩ := redoInsert_spec 0 hw hne hfits
  exact ⟨hfree, hwf, inited_redoInsert 0 hw hfits, hread⟩

/-- **`store_value` finds room** for a record that an empty page has room for. -/
theorem storeValue_spec (h : Base s) {record : Bytes} (hne : record ≠ [])
    (hlen : record.length ≤ maxRecordLen) :
    ∃ s' rid, s.storeValue record = (s', rid) ∧ Stored s s' record rid := by
  rw [storeValue]
  split
  · rename_i x slot hins
    obtain ⟨hfree, hwf, hinit, hread⟩ := insertRecord_stored (h.wf _) h.inited hne hlen hins
    have hr : (s.db.setPage s.dataPage x).read =
        Contents.set s.db.read s.dataPage slot (some record) := Database.read_setPage hread
    refine ⟨_, _, rfl, ⟨rfl, rfl, rfl, rfl, rfl, rfl, Nat.le_refl _⟩, rfl,
      ⟨h.sound, Database.wf_setPage h.wf hwf, ?_, ?_, h.dataPage⟩, rfl, hfree, hr⟩
    · show PageOps.inited (if s.dataPage = s.dataPage then x else _) = true
      rw [if_pos rfl, hinit]
    · intro p u hp
      have hne' : p ≠ s.dataPage := by
        have := h.dataPage
        have hp' : s.nextPageId ≤ p := hp
        omega
      show (s.db.setPage s.dataPage x).read p u = none
      rw [hr, Contents.set, if_neg (fun hc => hne' hc.1), h.fresh p u hp]
  · -- the record goes to the fresh page
    obtain ⟨x, slot, hins⟩ := insertRecord_init (P := P) s.nextPageId hlen
    obtain ⟨-, hwf, hinit, hread⟩ :=
      insertRecord_stored (wf_init _) (inited_init s.nextPageId) hne hlen hins
    simp only [hins, Option.getD_some]
    have hfree : ∀ u, s.db.read s.nextPageId u = none := fun u => h.fresh _ u (Nat.le_refl _)
    have hr : (s.db.setPage s.nextPageId x).read =
        Contents.set s.db.read s.nextPageId slot (some record) := by
      refine Database.read_setPage fun u => ?_
      rw [hread, read_init]
      exact congrArg _ (hfree u).symm
    refine ⟨_, _, rfl, ⟨rfl, rfl, rfl, rfl, rfl, rfl, Nat.le_succ _⟩, rfl,
      ⟨h.sound, Database.wf_setPage h.wf hwf, ?_, ?_, Nat.lt_succ_self _⟩, rfl, hfree slot, hr⟩
    · show PageOps.inited (if s.nextPageId = s.nextPageId then x else _) = true
      rw [if_pos rfl, hinit]
    · intro p u hp
      have hp' : s.nextPageId + 1 ≤ p := hp
      have hne' : p ≠ s.nextPageId := by omega
      show (s.db.setPage s.nextPageId x).read p u = none
      rw [hr, Contents.set, if_neg (fun hc => hne' hc.1), h.fresh p u (by omega)]

/-- `delete_record` on a page of the heap. -/
theorem Base.delete (h : Base s) (rid : Rid) :
    Base { s with db :=
      s.db.setPage rid.pageId (deleteRecord (s.db.heap rid.pageId) rid.slotId 0).1 } ∧
    (s.db.setPage rid.pageId (deleteRecord (s.db.heap rid.pageId) rid.slotId 0).1).read =
      Contents.set s.db.read rid.pageId rid.slotId none := by
  obtain ⟨hwf, hread⟩ := deleteRecord_spec rid.slotId 0 (h.wf rid.pageId)
  have hr : (s.db.setPage rid.pageId (deleteRecord (s.db.heap rid.pageId) rid.slotId 0).1).read =
      Contents.set s.db.read rid.pageId rid.slotId none := Database.read_setPage hread
  refine ⟨⟨h.sound, Database.wf_setPage h.wf hwf, ?_, fun p u hp => ?_, h.dataPage⟩, hr⟩
  · show PageOps.inited (if s.dataPage = rid.pageId then _ else _) = true
    split
    · rename_i heq
      rw [inited_deleteRecord _ _ (h.wf _), ← heq, h.inited]
    · exact h.inited
  · show (s.db.setPage rid.pageId _).read p u = none
    rw [hr, Contents.set]
    split
    · rfl
    · exact h.fresh p u hp

/-- `Base` is about log, heap and page allocation only, and pages may be taken. -/
theorem Base.congr {s' : Shell P} (h : Base s) (hlm : s'.db.lm = s.db.lm)
    (hheap : s'.db.heap = s.db.heap) (hpage : s'.dataPage = s.dataPage)
    (hgrown : s.nextPageId ≤ s'.nextPageId) : Base s' where
  sound := by
    rw [hlm]
    exact h.sound
  wf p := by
    rw [hheap]
    exact h.wf p
  inited := by
    rw [hheap, hpage]
    exact h.inited
  fresh p slot hp := by
    rw [Database.read, hheap]
    exact h.fresh p slot (Nat.le_trans hgrown hp)
  dataPage := by
    rw [hpage]
    exact Nat.lt_of_lt_of_le h.dataPage hgrown

-- ---------------------------------------------------------------------------
-- The log
-- ---------------------------------------------------------------------------

/-- Transaction `t`, whose last record is at `prev`, has logged `body`; nothing
that a client sees has changed. -/
structure Logged (s s' : Shell P) (t prev : Nat) (body : RecordBody) : Prop where
  rest : s' = { s with db := s'.db }
  base : Base s'
  visible : s'.db.visible = s.db.visible
  log : s'.db.lm.log = s.db.lm.log ++ [⟨s.db.lm.nextLsn, t, some prev, body⟩]
  att : s'.db.att = s.db.att.insert t s.db.lm.nextLsn
  nextTxnId : s'.db.nextTxnId = s.db.nextTxnId

theorem Logged.log_isPrefix {s' : Shell P} {t prev : Nat} {body : RecordBody}
    (h : Logged s s' t prev body) : s.db.lm.log <+: s'.db.lm.log := by
  rw [h.log]
  exact List.prefix_append _ _

/-- `log_update`, the flush and the stamp. -/
theorem logWrite_spec (h : Base s) {t prev : Nat} (hl : s.db.att.lookup t = some prev) (rid : Rid)
    (old new : Bytes) (key : Int) (flush : Bool) :
    ∃ s', s.logWrite t rid old new key flush = some s' ∧
      Logged s s' t prev (.update rid.pageId rid.slotId old new key) := by
  have hsound := h.sound.append t (some prev) (.update rid.pageId rid.slotId old new key)
  generalize hlm : (if flush then (s.db.lm.append t (some prev)
      (.update rid.pageId rid.slotId old new key)).1.flush s.db.lm.nextLsn
    else (s.db.lm.append t (some prev) (.update rid.pageId rid.slotId old new key)).1) = lm
  have hlm' : lm.Sound ∧ lm.log = s.db.lm.log ++
      [⟨s.db.lm.nextLsn, t, some prev, .update rid.pageId rid.slotId old new key⟩] := by
    rw [← hlm]
    split
    · exact ⟨hsound.flush _, by rw [LogManager.flush_log, LogManager.append_log]⟩
    · exact ⟨hsound, LogManager.append_log _ _ _⟩
  have hread : ∀ q u, readRecord (if q = rid.pageId then
      setPageLsn (s.db.heap rid.pageId) s.db.lm.nextLsn else s.db.heap q) u =
      s.db.read q u := by
    intro q u
    split
    · rename_i hq
      rw [read_setPageLsn _ _ (h.wf _), hq]
      rfl
    · rfl
  refine ⟨{ s with db := ({ s.db with lm, att := s.db.att.insert t s.db.lm.nextLsn } :
    Database P).stampPage rid.pageId s.db.lm.nextLsn }, ?_, rfl, ⟨hlm'.1, ?_, ?_, ?_, h.dataPage⟩, ?_,
    hlm'.2, rfl, rfl⟩
  · rw [logWrite, Database.logUpdate, hl, ← hlm]
    rfl
  · exact Database.wf_setPage h.wf (wf_setPageLsn _ (h.wf _))
  · show PageOps.inited (if s.dataPage = rid.pageId then _ else _) = true
    split
    · rename_i heq
      rw [inited_setPageLsn, ← heq, h.inited]
    · exact h.inited
  · intro p u hp
    exact (hread p u).trans (h.fresh p u hp)
  · simp only [Database.visible]
    congr 1
    funext q u
    exact hread q u

/-- Only the log and the ATT have changed. -/
structure Quiet (s s' : Shell P) : Prop where
  rest : s' = { s with db := s'.db }
  base : Base s'
  visible : s'.db.visible = s.db.visible
  log : s.db.lm.log <+: s'.db.lm.log

/-- A transaction of the ATT commits. -/
theorem commitTxn_spec (h : Base s) {t prev : Nat} (hl : s.db.att.lookup t = some prev) :
    ∃ s', s.commitTxn t = some s' ∧ Quiet s s' ∧ s'.db.att = s.db.att.erase t ∧
      s'.db.nextTxnId = s.db.nextTxnId := by
  have hsound := ((h.sound.append t (some prev) .commit).flush s.db.lm.nextLsn).append t
    (some s.db.lm.nextLsn) .txnEnd
  refine ⟨{ s with db := { s.db with
    lm := (((s.db.lm.append t (some prev) .commit).1.flush s.db.lm.nextLsn).append t
      (some s.db.lm.nextLsn) .txnEnd).1
    att := s.db.att.erase t } }, ?_,
    ⟨rfl, ⟨hsound, h.wf, h.inited, h.fresh, h.dataPage⟩, rfl, ?_⟩, rfl, rfl⟩
  · rw [commitTxn, Database.commit, hl]
    rfl
  · show _ <+: (LogManager.append _ t _ .txnEnd).1.log
    rw [LogManager.append_log, LogManager.flush_log, LogManager.append_log, List.append_assoc]
    exact List.prefix_append _ _

/-- **A transaction goes back** to what its undo chain leads to, if that has room
on the pages. -/
theorem abortTxn_spec (h : Base s) {t prev : Nat} {w : Visible}
    (hl : s.db.att.lookup t = some prev) (hroll : Rollback s.db.lm.log prev s.db.visible w)
    (hfresh : ∀ p slot, s.nextPageId ≤ p → w.slots p slot = none)
    (hroom : s.db.abortRoom s.db.lm.log.length t = true) :
    ∃ s', s.abortTxn t = some s' ∧ s' = { s with db := s'.db } ∧ Base s' ∧ s'.db.visible = w ∧
      s'.db.att = s.db.att.erase t ∧ s'.db.nextTxnId = s.db.nextTxnId := by
  obtain ⟨d, hd, hvis, hwf, hinit, hsound, hatt, hnext⟩ :=
    hroll.abort hl h.sound h.wf (Nat.le_refl _) hroom
  refine ⟨{ s with db := d }, ?_, rfl, ⟨hsound, hwf, hinit _ h.inited, ?_, h.dataPage⟩, hvis, hatt,
    hnext⟩
  · rw [abortTxn, hd]
    rfl
  · intro p slot hp
    show d.visible.slots p slot = none
    rw [hvis]
    exact hfresh p slot hp

end Shell

end PersistX
