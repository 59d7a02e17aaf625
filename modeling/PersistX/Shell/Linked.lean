import PersistX.Shell.Changes

/-!
# PersistX — undo chains in every run of the shell

`Linked` is what holds in every state that commands lead to, also after a `put` that
was refused, an `update` that has moved its record and an `abort` that has put back
too much: the pages are well formed, the index leads to pages that exist, and the
undo chain of the open transaction is the list of the changes it has logged. Only an
`abort` without room on a page can break it (`Shell.roomy`).

Main result: `Linked.of_steps`.
-/

namespace PersistX

open PageOps LawfulPageOps DataPageOps Transition

variable {P : Type}

-- ---------------------------------------------------------------------------
-- Whose records commit and abort log
-- ---------------------------------------------------------------------------

namespace Database

theorem commit_grew {db d : Database P} {t : Nat} (h : db.commit t = some d) :
    GrewBy t db.lm.log d.lm.log := by
  obtain ⟨prev, -, rfl⟩ := Option.map_eq_some_iff.mp h
  have hfirst := GrewBy.append db.lm t (some prev) .commit
  have hlast := GrewBy.append ((db.lm.append t (some prev) .commit).1.flush db.lm.nextLsn) t
    (some db.lm.nextLsn) .txnEnd
  rw [LogManager.flush_log] at hlast
  exact hfirst.trans hlast

variable [PageOps P]

theorem undoOne_grew (db : Database P) (t last u : Nat) :
    GrewBy t db.lm.log (db.undoOne t last u).1.lm.log := by
  have hread : (db.lm.readRecordAtLsn u).1.log = db.lm.log := LogManager.flushAll_log
  have hsame : GrewBy t db.lm.log (db.lm.readRecordAtLsn u).1.log := by
    rw [hread]
    exact .refl t _
  rw [undoOne]
  generalize db.lm.readRecordAtLsn u = res at hsame
  obtain ⟨lm, rec⟩ := res
  cases rec with
  | none => exact hsame
  | some r =>
    simp only
    split
    · exact hsame
    · -- the CLR
      rename_i p slot old new key _
      exact hsame.trans (GrewBy.append lm t (some last) (.clr p slot old r.prevLsn))
    · exact hsame
    · exact hsame

theorem undoLoop_grew (t fuel : Nat) : ∀ {db d : Database P} {last last' : Nat} {u : Option Nat},
    undoLoop fuel db t last u = some (d, last') → GrewBy t db.lm.log d.lm.log := by
  induction fuel with
  | zero =>
    intro db d last last' u h
    cases u with
    | none =>
      obtain ⟨rfl, -⟩ := Prod.mk.inj (Option.some.inj h)
      exact .refl t _
    | some u => cases h
  | succ fuel ih =>
    intro db d last last' u h
    cases u with
    | none =>
      obtain ⟨rfl, -⟩ := Prod.mk.inj (Option.some.inj h)
      exact .refl t _
    | some u =>
      rw [undoLoop] at h
      exact (db.undoOne_grew t last u).trans (ih h)

theorem abort_grew {db d : Database P} {t fuel : Nat} (h : db.abort fuel t = some d) :
    GrewBy t db.lm.log d.lm.log := by
  obtain ⟨prev, -, h⟩ := Option.bind_eq_some_iff.mp h
  obtain ⟨⟨db', last⟩, hloop, rfl⟩ := Option.map_eq_some_iff.mp h
  have hfirst := GrewBy.append db.lm t (some prev) .abort
  have hlast := GrewBy.append db'.lm t (some last) .txnEnd
  exact (hfirst.trans (undoLoop_grew t fuel hloop)).trans hlast

end Database

namespace Shell

-- ---------------------------------------------------------------------------
-- The invariant
-- ---------------------------------------------------------------------------

section

variable {s s' : Shell P} {t u : Nat}

/-- Transaction `t` is in the ATT, and its undo chain is the list of its changes. -/
structure Traced (s : Shell P) (t : Nat) : Prop where
  id : t < s.db.nextTxnId
  chain : ∃ prev, s.db.att.lookup t = some prev ∧ Chains s.db.lm.log t prev
  pages : ∀ c ∈ changesOf t s.db.lm.log, c.rid.pageId < s.nextPageId

/-- Heap and index may change, and pages may be taken. -/
theorem Traced.change (h : Traced s t) (hrest : Rest s s') : Traced s' t := by
  obtain ⟨prev, hl, hchain⟩ := h.chain
  refine ⟨hrest.nextTxnId ▸ h.id, ⟨prev, ?_, ?_⟩, fun c hc => ?_⟩
  · rw [hrest.att, hl]
  · rw [hrest.lm]
    exact hchain
  · rw [hrest.lm] at hc
    exact Nat.lt_of_lt_of_le (h.pages c hc) hrest.grown

/-- Another transaction may log. -/
theorem Traced.other (h : Traced s t) (hut : u ≠ t) (hgrew : GrewBy u s.db.lm.log s'.db.lm.log)
    (hatt : s'.db.att.lookup t = s.db.att.lookup t) (hid : s.db.nextTxnId ≤ s'.db.nextTxnId)
    (hpage : s.nextPageId ≤ s'.nextPageId) : Traced s' t := by
  obtain ⟨prev, hl, hchain⟩ := h.chain
  refine ⟨Nat.lt_of_lt_of_le h.id hid, ⟨prev, hatt.trans hl, hchain.other hgrew hut⟩, fun c hc => ?_⟩
  rw [hgrew.changesOf hut] at hc
  exact Nat.lt_of_lt_of_le (h.pages c hc) hpage

theorem Traced.congr (h : Traced s t) (hdb : s'.db = s.db) (hgrown : s.nextPageId ≤ s'.nextPageId) :
    Traced s' t where
  id := by
    rw [hdb]
    exact h.id
  chain := by
    rw [hdb]
    exact h.chain
  pages c hc := by
    rw [hdb] at hc
    exact Nat.lt_of_lt_of_le (h.pages c hc) hgrown

variable [DataPageOps P]

/-- What holds in every state, the open transaction apart. -/
structure Settled (s : Shell P) : Prop where
  base : Base s
  ids : ∀ r ∈ s.db.lm.log, r.txnId < s.db.nextTxnId
  pages : ∀ k rid, s.db.index k = some rid → rid.pageId < s.nextPageId

/-- What holds in every state. -/
structure Linked (s : Shell P) : Prop extends Settled s where
  opened : ∀ t, s.activeTxn = some t → Traced s t

/-- The same while transaction `t` is at work. -/
structure Working (s : Shell P) (t : Nat) : Prop extends Linked s where
  mine : Traced s t

theorem Linked.initStorage : Linked (initStorage : Shell P) where
  base := .initStorage
  ids _ hr := absurd hr List.not_mem_nil
  pages _ _ hk := absurd hk (Option.some_ne_none _).symm
  opened t ht := absurd ht (Option.some_ne_none t).symm

/-- Counters, the open transaction and pages taken are not part of it. -/
theorem Settled.congr (h : Settled s) (hdb : s'.db = s.db) (hpage : s'.dataPage = s.dataPage)
    (hgrown : s.nextPageId ≤ s'.nextPageId) : Settled s' where
  base := h.base.congr (by rw [hdb]) (by rw [hdb]) hpage hgrown
  ids := by
    rw [hdb]
    exact h.ids
  pages k rid hk := by
    rw [hdb] at hk
    exact Nat.lt_of_lt_of_le (h.pages k rid hk) hgrown

theorem Settled.linked (h : Settled s) (hnone : s.activeTxn = none) : Linked s :=
  ⟨h, fun t ht => by
    rw [hnone] at ht
    cases ht⟩

theorem Linked.counters (h : Linked s) (totalPuts : UInt64) (nextFillKey : Int64) :
    Linked { s with totalPuts, nextFillKey } :=
  ⟨h.toSettled.congr rfl rfl (Nat.le_refl _), fun u hu => (h.opened u hu).congr rfl (Nat.le_refl _)⟩

theorem Working.counters (h : Working s t) (totalPuts : UInt64) (nextFillKey : Int64) :
    Working { s with totalPuts, nextFillKey } t :=
  ⟨h.toLinked.counters totalPuts nextFillKey, h.mine.congr rfl (Nat.le_refl _)⟩

theorem Working.change (h : Working s t) (hrest : Rest s s') (hbase : Base s')
    (hpages : ∀ k rid, s'.db.index k = some rid → rid.pageId < s'.nextPageId) : Working s' t where
  base := hbase
  ids r hr := by
    rw [hrest.lm] at hr
    rw [hrest.nextTxnId]
    exact h.ids r hr
  pages := hpages
  opened u hu := (h.opened u (hrest.activeTxn ▸ hu)).change hrest
  mine := h.mine.change hrest

-- ---------------------------------------------------------------------------
-- The log
-- ---------------------------------------------------------------------------

/-- `log_update`, the flush and the stamp: one change more. -/
theorem Working.logWrite (h : Working s t) {rid : Rid} (hrid : rid.pageId < s.nextPageId)
    (old new : Bytes) (key : Int) (flush : Bool) :
    ∃ s', s.logWrite t rid old new key flush = some s' ∧ Working s' t ∧
      s'.db.visible = s.db.visible ∧ s' = { s with db := s'.db } ∧
      changesOf t s'.db.lm.log = changesOf t s.db.lm.log ++ [⟨rid, old, new, key⟩] := by
  obtain ⟨prev, hl, hchain⟩ := h.mine.chain
  obtain ⟨s', hs', hlog⟩ := logWrite_spec h.base hl rid old new key flush
  have hpage : s'.nextPageId = s.nextPageId := by rw [hlog.rest]
  have hactive : s'.activeTxn = s.activeTxn := by rw [hlog.rest]
  have hindex : s'.db.index = s.db.index := congrArg Visible.index hlog.visible
  have hgrew : GrewBy t s.db.lm.log s'.db.lm.log :=
    ⟨_, hlog.log, fun r hr => by rw [List.mem_singleton.mp hr]⟩
  have hchanges : changesOf t s'.db.lm.log = changesOf t s.db.lm.log ++ [⟨rid, old, new, key⟩] := by
    rw [hlog.log, changesOf_snoc]
  have hmine : Traced s' t := by
    refine ⟨hlog.nextTxnId ▸ h.mine.id, ⟨s.db.lm.nextLsn, ?_, ?_⟩, fun c hc => ?_⟩
    · rw [hlog.att]
      exact AList.lookup_insert _
    · rw [hlog.log]
      exact hchain.snoc h.base.sound.ok.next
    · rw [hpage]
      rw [hchanges] at hc
      rcases List.mem_append.mp hc with hc | hc
      · exact h.mine.pages c hc
      · rw [List.mem_singleton.mp hc]
        exact hrid
  refine ⟨s', hs', ⟨⟨⟨hlog.base, fun r hr => ?_, fun k q hk => ?_⟩, fun u hu => ?_⟩, hmine⟩, hlog.visible,
    hlog.rest, hchanges⟩
  · rw [hlog.nextTxnId]
    rcases hgrew.mem hr with hr | hr
    · exact h.ids r hr
    · exact hr ▸ h.mine.id
  · rw [hindex] at hk
    exact hpage ▸ h.pages k q hk
  · by_cases hut : u = t
    · exact hut ▸ hmine
    · refine (h.opened u (hactive ▸ hu)).other (Ne.symm hut) hgrew ?_ (Nat.le_of_eq hlog.nextTxnId.symm)
        (Nat.le_of_eq hpage.symm)
      rw [hlog.att, AList.lookup_insert_ne hut]

/-- `begin`, of the open transaction or of a command's own. -/
theorem Linked.begin (h : Linked s) : Working { s with db := s.db.begin } s.db.nextTxnId ∧
    changesOf s.db.nextTxnId s.db.begin.lm.log = [] := by
  have hgrew := GrewBy.append s.db.lm s.db.nextTxnId none .begin
  have hnone : changesOf s.db.nextTxnId s.db.begin.lm.log = [] := by
    have hold := @changesOf_eq_nil s.db.nextTxnId s.db.lm.log fun r hr =>
      Nat.ne_of_lt (h.ids r hr)
    show changesOf s.db.nextTxnId (s.db.lm.append s.db.nextTxnId none .begin).1.log = []
    rw [LogManager.append_log, changesOf, List.filterMap_append, ← changesOf, hold]
    simp [Record.changeOf]
  refine ⟨⟨⟨⟨⟨h.base.sound.append _ _ _, h.base.wf, h.base.inited, h.base.fresh, h.base.dataPage⟩,
    fun r hr => ?_, h.pages⟩, fun u hu => ?_⟩, Nat.lt_succ_self _, ⟨s.db.lm.nextLsn, AList.lookup_insert _,
      .begin (h.base.sound.getElem?_append _ _ _) rfl hnone⟩, fun c hc => ?_⟩, hnone⟩
  · rcases hgrew.mem hr with hr | hr
    · exact Nat.lt_succ_of_lt (h.ids r hr)
    · rw [hr]
      exact Nat.lt_succ_self _
  · have ho := h.opened u hu
    exact ho.other (Nat.ne_of_gt ho.id) hgrew (AList.lookup_insert_ne (Nat.ne_of_lt ho.id))
      (Nat.le_succ _) (Nat.le_refl _)
  · rw [hnone] at hc
    cases hc

/-- A command works in the open transaction or in one of its own. -/
theorem Linked.autoBegin (h : Linked s) :
    ∃ s' t auto, s.autoBegin = (s', t, auto) ∧ Working s' t ∧ s'.db.visible = s.db.visible ∧
      s' = { s with db := s'.db } ∧ (auto = true → s.activeTxn = none ∧ ∃ prev r,
        s'.db.att.lookup t = some prev ∧ s'.db.lm.log[prev]? = some r ∧ r.body = .begin) := by
  rw [Shell.autoBegin]
  split
  · rename_i t ht
    exact ⟨s, t, false, rfl, ⟨h, h.opened t ht⟩, rfl, rfl, fun ha => absurd ha Bool.false_ne_true⟩
  · rename_i ht
    exact ⟨_, _, true, rfl, h.begin.1, rfl, rfl, fun _ => ⟨ht, s.db.lm.nextLsn, _,
      AList.lookup_insert _, h.base.sound.getElem?_append _ _ _, rfl⟩⟩

/-- `commit`, of the open transaction or of a command's own. -/
theorem Working.commitTxn (h : Working s t) :
    ∃ s', s.commitTxn t = some s' ∧ Settled s' ∧ s' = { s with db := s'.db } ∧
      s'.db.visible = s.db.visible ∧ (s.activeTxn ≠ some t → Linked s') := by
  obtain ⟨prev, hl, -⟩ := h.mine.chain
  obtain ⟨s', hs', hq, hatt, hnext⟩ := commitTxn_spec h.base hl
  have hgrew : GrewBy t s.db.lm.log s'.db.lm.log := by
    obtain ⟨d, hd, rfl⟩ := Option.map_eq_some_iff.mp hs'
    exact Database.commit_grew hd
  have hpage : s'.nextPageId = s.nextPageId := by rw [hq.rest]
  have hindex : s'.db.index = s.db.index := congrArg Visible.index hq.visible
  have hsettled : Settled s' := by
    refine ⟨hq.base, fun r hr => ?_, fun k q hk => ?_⟩
    · rw [hnext]
      rcases hgrew.mem hr with hr | hr
      · exact h.ids r hr
      · exact hr ▸ h.mine.id
    · rw [hindex] at hk
      exact hpage ▸ h.pages k q hk
  refine ⟨s', hs', hsettled, hq.rest, hq.visible, fun hne => ⟨hsettled, fun u hu => ?_⟩⟩
  have hu' : s.activeTxn = some u := by
    rw [hq.rest] at hu
    exact hu
  have hut : u ≠ t := by
    rintro rfl
    exact hne hu'
  refine (h.opened u hu').other (Ne.symm hut) hgrew ?_ (Nat.le_of_eq hnext.symm)
    (Nat.le_of_eq hpage.symm)
  rw [hatt, AList.lookup_erase_ne hut]

/-- `abort` takes the changes back, if that has room on the pages. -/
theorem Working.abortTxn (h : Working s t)
    (hroom : s.db.abortRoom s.db.lm.log.length t = true) :
    ∃ s', s.abortTxn t = some s' ∧ Settled s' ∧ s' = { s with db := s'.db } ∧
      s'.db.visible = s.db.visible.undoAll (changesOf t s.db.lm.log) := by
  obtain ⟨prev, hl, hchain⟩ := h.mine.chain
  obtain ⟨s', hs', hrest, hbase, hvis, -, hnext⟩ := abortTxn_spec h.base hl (hchain s.db.visible)
    (fun p slot hp => undoAll_fresh h.mine.pages h.base.fresh hp) hroom
  have hgrew : GrewBy t s.db.lm.log s'.db.lm.log := by
    obtain ⟨d, hd, rfl⟩ := Option.map_eq_some_iff.mp hs'
    exact Database.abort_grew hd
  refine ⟨s', hs', ⟨hbase, fun r hr => ?_, ?_⟩, hrest, hvis⟩
  · rw [hnext]
    rcases hgrew.mem hr with hr | hr
    · exact h.ids r hr
    · exact hr ▸ h.mine.id
  · rw [show s'.db.index = _ from congrArg Visible.index hvis,
      show s'.nextPageId = s.nextPageId by rw [hrest]]
    exact undoAll_pages h.mine.pages h.pages

end

-- ---------------------------------------------------------------------------
-- The commands
-- ---------------------------------------------------------------------------

section Commands

variable [SizedPageOps P] {s s' : Shell P} {t : Nat} {key : Int64} {rid : Rid} {record : Bytes}

omit [SizedPageOps P] in
/-- A record goes to the data page, new or not. -/
theorem storeValue_page [PageOps P] (s : Shell P) (record : Bytes) :
    (s.storeValue record).2.pageId = (s.storeValue record).1.dataPage := by
  rw [storeValue]
  split
  · rfl
  · rfl

theorem Working.storeValue (h : Working s t) (record : Bytes) :
    ∃ s₁ rid, s.storeValue record = (s₁, rid) ∧ Placed s s₁ record rid ∧ Working s₁ t ∧
      rid.pageId < s₁.nextPageId := by
  obtain ⟨s₁, rid, hstore, hpl⟩ := storeValue_any h.base record
  have hpage : rid.pageId = s₁.dataPage := by
    have := s.storeValue_page record
    rwa [hstore] at this
  refine ⟨s₁, rid, hstore, hpl, h.change hpl.rest hpl.base fun k q hk => ?_, ?_⟩
  · rw [hpl.index] at hk
    exact Nat.lt_of_lt_of_le (h.pages k q hk) hpl.rest.grown
  · rw [hpage]
    exact hpl.base.dataPage

theorem Working.indexInsert (h : Working s t) (key : Int64) (hrid : rid.pageId < s.nextPageId)
    (grow : Nat) : Working (s.indexInsert key rid grow) t := by
  refine h.change ⟨rfl, rfl, rfl, rfl, rfl, rfl, Nat.le_add_right _ _⟩
    (h.base.congr rfl rfl rfl (Nat.le_add_right _ _)) fun k q hk => ?_
  refine Nat.lt_of_lt_of_le ?_ (Nat.le_add_right s.nextPageId grow)
  rcases IndexMap.eq_some_of_insert hk with rfl | hk
  · exact hrid
  · exact h.pages k q hk

/-- A record of the heap is deleted, and its key may be taken out. -/
theorem Working.delete (h : Working s t) (rid : Rid) (index : IndexMap)
    (hindex : ∀ k r, index k = some r → s.db.index k = some r) :
    Working { s with db := { s.db.setPage rid.pageId
      (deleteRecord (s.db.heap rid.pageId) rid.slotId 0).1 with index } } t :=
  h.change ⟨rfl, rfl, rfl, rfl, rfl, rfl, Nat.le_refl _⟩
    ((h.base.delete rid).1.congr rfl rfl rfl (Nat.le_refl _)) fun k q hk => h.pages k q (hindex k q hk)

theorem Working.autoCommit (h : Working s t) (auto : Bool) (hauto : auto = true → s.activeTxn = none) :
    ∃ s', s.autoCommit t auto = some s' ∧ Linked s' ∧ s'.db.visible = s.db.visible ∧
      (auto = false → s' = s) := by
  cases auto with
  | false => exact ⟨s, rfl, h.toLinked, rfl, fun _ => rfl⟩
  | true =>
    obtain ⟨s', hs', -, -, hvis, hlinked⟩ := h.commitTxn
    refine ⟨s', hs', hlinked ?_, hvis, fun ha => absurd ha.symm Bool.false_ne_true⟩
    rw [hauto rfl]
    exact (Option.some_ne_none t).symm

/-- Store, index and log, as `put`, `fill` and `bench` do. -/
theorem Working.insert (h : Working s t) (key : Int64) (record : Bytes) (grow : Nat) (flush : Bool) :
    ∃ s₁ rid s₂, s.storeValue record = (s₁, rid) ∧ Placed s s₁ record rid ∧
      (s₁.indexInsert key rid grow).logWrite t rid [] record key.toInt flush = some s₂ ∧
      Working s₂ t ∧ s₂.activeTxn = s.activeTxn ∧
      s₂.db.visible = ⟨s₁.db.read, s.db.index.insert key.toInt rid⟩ ∧
      changesOf t s₂.db.lm.log = changesOf t s.db.lm.log ++ [⟨rid, [], record, key.toInt⟩] := by
  obtain ⟨s₁, rid, hstore, hpl, hwork, hrid⟩ := h.storeValue record
  have hrid' : rid.pageId < (s₁.indexInsert key rid grow).nextPageId :=
    Nat.lt_of_lt_of_le hrid (Nat.le_add_right _ _)
  obtain ⟨s₂, hlog, hwork₂, hvis, hrest, hchanges⟩ :=
    (hwork.indexInsert key hrid grow).logWrite hrid' [] record key.toInt flush
  refine ⟨s₁, rid, s₂, hstore, hpl, hlog, hwork₂, ?_, ?_, ?_⟩
  · rw [hrest]
    exact hpl.rest.activeTxn
  · rw [hvis, ← hpl.index]
    rfl
  · rw [hchanges, ← hpl.rest.lm]
    rfl

theorem Linked.put (h : Linked s) (key : Int64) (value : Bytes) (grow : Nat) :
    ∃ s', s.put key value grow = some s' ∧ Linked s' := by
  obtain ⟨s₀, t, auto, hbegin, hwork, -, hrest, hauto⟩ := h.autoBegin
  have hactive : s₀.activeTxn = s.activeTxn := by rw [hrest]
  obtain ⟨s₁, rid, s₂, hstore, hpl, hlog, hwork₂, hactive₂, -⟩ :=
    hwork.insert key (makeRecord key value) grow true
  simp only [Shell.put, hbegin, hstore]
  split
  · -- the key is there: the record stays, and a transaction of its own goes back to BEGIN
    obtain ⟨s₁', rid', hstore', -, hwork₁, -⟩ := hwork.storeValue (makeRecord key value)
    obtain ⟨rfl, -⟩ := Prod.mk.inj (hstore'.symm.trans hstore)
    cases auto with
    | false => exact ⟨s₁', rfl, hwork₁.toLinked⟩
    | true =>
      obtain ⟨hnone, prev, r, hl, hr, hb⟩ := hauto rfl
      have hroom : s₁'.db.abortRoom s₁'.db.lm.log.length t = true :=
        abortRoom_of_begin hwork₁.base.sound (hpl.rest.att ▸ hl) (hpl.rest.lm ▸ hr) hb
      obtain ⟨s₃, hs₃, hsettled, hrest₃, -⟩ := hwork₁.abortTxn hroom
      refine ⟨s₃, hs₃, hsettled.linked ?_⟩
      rw [hrest₃]
      exact (hpl.rest.activeTxn.trans hactive).trans hnone
  · obtain ⟨s₃, hcommit, hlinked, -⟩ := hwork₂.autoCommit auto fun ha =>
      (hactive₂.trans hactive).trans (hauto ha).1
    refine ⟨{ s₃ with totalPuts := s₃.totalPuts + 1 }, ?_, hlinked.counters _ _⟩
    simp only [hlog, Option.bind_eq_bind, Option.bind_some, hcommit]

theorem Linked.del (h : Linked s) (key : Int64) : ∃ s', s.del key = some s' ∧ Linked s' := by
  rw [Shell.del]
  split
  · exact ⟨s, rfl, h⟩
  · rename_i rid hsearch
    obtain ⟨s₀, t, auto, hbegin, hwork, hvis, hrest, hauto⟩ := h.autoBegin
    have hkey : s₀.db.index key.toInt = some rid :=
      (congrFun (congrArg Visible.index hvis) _).trans (search_eq_some hsearch)
    have hdel := hwork.delete rid (s₀.db.index.remove key.toInt)
      fun _ _ => IndexMap.eq_some_of_remove
    generalize hs₁ : ({ s₀ with db :=
      { s₀.db.setPage rid.pageId (deleteRecord (s₀.db.heap rid.pageId) rid.slotId 0).1 with
        index := s₀.db.index.remove key.toInt } } : Shell P) = s₁ at hdel
    have hpage : rid.pageId < s₁.nextPageId := by
      rw [← hs₁]
      exact hwork.pages _ _ hkey
    obtain ⟨s₂, hlog, hwork₂, -, hrest₂, -⟩ := hdel.logWrite hpage
      ((s₀.db.read rid.pageId rid.slotId).getD []) [] key.toInt true
    obtain ⟨s₃, hcommit, hlinked, -⟩ := hwork₂.autoCommit auto fun ha => by
      rw [hrest₂, ← hs₁]
      show s₀.activeTxn = none
      rw [hrest]
      exact (hauto ha).1
    refine ⟨s₃, ?_, hlinked⟩
    simp only [hbegin, hs₁, hlog, Option.bind_eq_bind, Option.bind_some, hcommit]

/-- Delete, store, move the key, and log: what `update` does in transaction `t`. -/
theorem Working.replace (h : Working s t) (key : Int64) (rid : Rid) (record : Bytes) (grow : Nat) :
    ∃ s₁ newRid, Shell.storeValue { s with
        db := s.db.setPage rid.pageId (deleteRecord (s.db.heap rid.pageId) rid.slotId 0).1 } record
        = (s₁, newRid) ∧
      Placed { s with
        db := s.db.setPage rid.pageId (deleteRecord (s.db.heap rid.pageId) rid.slotId 0).1 } s₁ record
        newRid ∧
      ∀ (old : Bytes), ∃ s₂, (if newRid = rid then s₁ else Shell.indexInsert { s₁ with
          db := { s₁.db with index := s₁.db.index.remove key.toInt } } key newRid grow).logWrite t
          newRid old record 0 true = some s₂ ∧
        Working s₂ t ∧ s₂.activeTxn = s.activeTxn ∧
        s₂.db.visible = ⟨s₁.db.read,
          if newRid = rid then s.db.index else (s.db.index.remove key.toInt).insert key.toInt newRid⟩ ∧
        changesOf t s₂.db.lm.log = changesOf t s.db.lm.log ++ [⟨newRid, old, record, 0⟩] := by
  have hdel := h.delete rid s.db.index fun _ _ hk => hk
  obtain ⟨s₁, newRid, hstore, hpl, hwork₁, hpage⟩ := hdel.storeValue record
  refine ⟨s₁, newRid, hstore, hpl, fun old => ?_⟩
  generalize hs₂ : (if newRid = rid then s₁ else Shell.indexInsert { s₁ with
    db := { s₁.db with index := s₁.db.index.remove key.toInt } } key newRid grow) = s₂
  have hindex₁ : s₁.db.index = s.db.index := hpl.index
  have hactive₁ : s₁.activeTxn = s.activeTxn := hpl.rest.activeTxn
  have hlm₁ : s₁.db.lm = s.db.lm := hpl.rest.lm
  have hmoved : Working s₂ t ∧ newRid.pageId < s₂.nextPageId ∧ s₂.activeTxn = s.activeTxn ∧
      s₂.db.lm = s.db.lm ∧ s₂.db.visible = ⟨s₁.db.read,
        if newRid = rid then s.db.index else (s.db.index.remove key.toInt).insert key.toInt newRid⟩ := by
    rw [← hs₂]
    by_cases heq : newRid = rid
    · rw [if_pos heq, if_pos heq, ← hindex₁]
      exact ⟨hwork₁, hpage, hactive₁, hlm₁, rfl⟩
    · rw [if_neg heq, if_neg heq, ← hindex₁]
      have hremoved : Working { s₁ with
          db := { s₁.db with index := s₁.db.index.remove key.toInt } } t :=
        hwork₁.change ⟨rfl, rfl, rfl, rfl, rfl, rfl, Nat.le_refl _⟩
          (hwork₁.base.congr rfl rfl rfl (Nat.le_refl _))
          fun k q hk => hwork₁.pages k q (IndexMap.eq_some_of_remove hk)
      exact ⟨hremoved.indexInsert key hpage grow, Nat.lt_of_lt_of_le hpage (Nat.le_add_right _ _),
        hactive₁, hlm₁, rfl⟩
  obtain ⟨hwork₂, hpage₂, hactive₂, hlm₂, hvis₂⟩ := hmoved
  obtain ⟨s₃, hlog, hwork₃, hvis₃, hrest₃, hchanges⟩ := hwork₂.logWrite hpage₂ old record 0 true
  refine ⟨s₃, hlog, hwork₃, ?_, hvis₃.trans hvis₂, ?_⟩
  · rw [hrest₃]
    exact hactive₂
  · rw [hchanges, hlm₂]

theorem Linked.update (h : Linked s) (key : Int64) (value : Bytes) (grow : Nat) :
    ∃ s', s.update key value grow = some s' ∧ Linked s' := by
  rw [Shell.update]
  split
  · exact ⟨s, rfl, h⟩
  · rename_i rid hsearch
    obtain ⟨s₀, t, auto, hbegin, hwork, -, hrest, hauto⟩ := h.autoBegin
    obtain ⟨s₁, newRid, hstore, -, hmove⟩ := hwork.replace key rid (makeRecord key value) grow
    obtain ⟨s₂, hlog, hwork₂, hactive₂, -⟩ := hmove ((s₀.db.read rid.pageId rid.slotId).getD [])
    obtain ⟨s₃, hcommit, hlinked, -⟩ := hwork₂.autoCommit auto fun ha => by
      rw [hactive₂, hrest]
      exact (hauto ha).1
    refine ⟨s₃, ?_, hlinked⟩
    simp only [hbegin, hstore, hlog, Option.bind_eq_bind, Option.bind_some, hcommit]

-- ---------------------------------------------------------------------------
-- Batches, transactions and runs
-- ---------------------------------------------------------------------------

theorem Working.fillOne (h : Working s t) (i grow : Nat) :
    ∃ s' new, s.fillOne t i grow = some (s', new) ∧ Working s' t ∧ s'.activeTxn = s.activeTxn := by
  have h' := h.counters s.totalPuts (s.nextFillKey + 1)
  obtain ⟨s₁, rid, s₂, hstore, hpl, hlog, hwork₂, hactive₂, -⟩ :=
    h'.insert s.nextFillKey (makeRecord s.nextFillKey (numbered "val_" i)) grow false
  obtain ⟨s₁', rid', hstore', -, hwork₁, -⟩ :=
    h'.storeValue (makeRecord s.nextFillKey (numbered "val_" i))
  obtain ⟨rfl, -⟩ := Prod.mk.inj (hstore'.symm.trans hstore)
  simp only [Shell.fillOne, hstore]
  split
  · exact ⟨s₁', false, rfl, hwork₁, hpl.rest.activeTxn⟩
  · rw [hlog]
    exact ⟨s₂, true, rfl, hwork₂, hactive₂⟩

theorem Working.fillLoop (grow : Nat → Nat) : ∀ (k i : Nat) {s : Shell P} (m : Nat), Working s t →
    ∃ s' m', Shell.fillLoop t grow k i s m = some (s', m') ∧ Working s' t ∧
      s'.activeTxn = s.activeTxn := by
  intro k
  induction k with
  | zero => exact fun i s m h => ⟨s, m, rfl, h, rfl⟩
  | succ k ih =>
    intro i s m h
    obtain ⟨s₁, new, hone, hwork, hactive⟩ := h.fillOne i (grow i)
    obtain ⟨s₂, m', hloop, hwork₂, hactive₂⟩ := ih (i + 1) (if new then m + 1 else m) hwork
    refine ⟨s₂, m', ?_, hwork₂, hactive₂.trans hactive⟩
    rw [Shell.fillLoop, hone]
    exact hloop

theorem Linked.fill (h : Linked s) (n : Int32) (grow : Nat → Nat) :
    ∃ s', s.fill n grow = some s' ∧ Linked s' := by
  obtain ⟨s₀, t, auto, hbegin, hwork, -, hrest, hauto⟩ := h.autoBegin
  obtain ⟨s₁, m, hloop, hwork₁, hactive⟩ := Working.fillLoop grow n.toInt.toNat 0 0 hwork
  obtain ⟨s₂, hcommit, hlinked, -⟩ := hwork₁.autoCommit auto fun ha => by
    rw [hactive, hrest]
    exact (hauto ha).1
  refine ⟨_, ?_, hlinked.counters (s₂.totalPuts + UInt64.ofNat m) s₂.nextFillKey⟩
  simp only [Shell.fill, hbegin, hloop, Option.bind_eq_bind, Option.bind_some, hcommit]

theorem Working.benchLoop (grow : Nat → Nat) : ∀ (k i : Nat) {s : Shell P}, Working s t →
    ∃ s', Shell.benchLoop t grow k i s = some s' ∧ Working s' t ∧ s'.activeTxn = s.activeTxn := by
  intro k
  induction k with
  | zero => exact fun i s h => ⟨s, rfl, h, rfl⟩
  | succ k ih =>
    intro i s h
    obtain ⟨s₁, rid, s₂, hstore, -, hlog, hwork₂, hactive₂, -⟩ := h.insert (benchKey s.totalPuts i)
      (makeRecord (benchKey s.totalPuts i) (numbered "bench_" i)) (grow i) false
    have hone : s.benchOne t i (grow i) = some s₂ := by
      simp only [benchOne, hstore]
      exact hlog
    obtain ⟨s₃, hloop, hwork₃, hactive₃⟩ := ih (i + 1) hwork₂
    refine ⟨s₃, ?_, hwork₃, hactive₃.trans hactive₂⟩
    rw [Shell.benchLoop, hone]
    exact hloop

theorem Linked.bench (h : Linked s) (n : Int32) (grow : Nat → Nat) :
    ∃ s', s.bench n grow = some s' ∧ Linked s' := by
  obtain ⟨s₁, hloop, hwork₁, hactive⟩ := Working.benchLoop grow n.toInt.toNat 0 h.begin.1
  obtain ⟨s₂, hcommit, -, -, -, hlinked⟩ := hwork₁.commitTxn
  have hne : s₁.activeTxn ≠ some s.db.nextTxnId := by
    rw [hactive]
    exact fun hc => Nat.lt_irrefl _ (h.opened _ hc).id
  refine ⟨_, ?_, (hlinked hne).counters (s₂.totalPuts + n.toInt64.toUInt64) s₂.nextFillKey⟩
  simp only [Shell.bench, hloop, Option.bind_eq_bind, Option.bind_some, hcommit]

theorem Linked.beginCmd (h : Linked s) : Linked s.begin := by
  rw [Shell.begin]
  split
  · exact h
  · refine ⟨h.begin.1.toSettled.congr rfl rfl (Nat.le_refl _), fun t ht => ?_⟩
    obtain rfl : s.db.nextTxnId = t := Option.some.inj ht
    exact h.begin.1.mine.congr rfl (Nat.le_refl _)

theorem Linked.commitCmd (h : Linked s) : ∃ s', s.commit = some s' ∧ Linked s' := by
  rw [Shell.commit]
  split
  · exact ⟨s, rfl, h⟩
  · rename_i t ht
    obtain ⟨s', hs', hsettled, -⟩ := Working.commitTxn ⟨h, h.opened t ht⟩
    refine ⟨{ s' with activeTxn := none }, by rw [hs']; rfl, Settled.linked ?_ rfl⟩
    exact hsettled.congr rfl rfl (Nat.le_refl _)

/-- An `abort` has room on the pages for what it puts back. -/
def roomy (s : Shell P) : Command → Bool
  | .abort _ => s.activeTxn.all fun t => s.db.abortRoom s.db.lm.log.length t
  | _ => true

/-- `abort` takes back the changes of the open transaction. -/
theorem Linked.abort_open (h : Linked s) (ht : s.activeTxn = some t) {grow : Nat}
    (hroom : s.roomy (.abort grow) = true) : ∃ s', s.abort grow = some s' ∧ Linked s' ∧
      s'.activeTxn = none ∧ s'.db.visible = s.db.visible.undoAll (changesOf t s.db.lm.log) := by
  rw [roomy, ht, Option.all_some] at hroom
  obtain ⟨s', hs', hsettled, -, hvis⟩ := Working.abortTxn ⟨h, h.opened t ht⟩ hroom
  refine ⟨{ s' with activeTxn := none, nextPageId := s'.nextPageId + grow }, ?_, Settled.linked ?_ rfl,
    rfl, hvis⟩
  · rw [Shell.abort, ht]
    simp only [hs', Option.map_some]
  · exact hsettled.congr rfl rfl (Nat.le_add_right _ _)

/-- **Every command runs to its end and keeps the invariant**, as far as `abort` has room. -/
theorem Linked.step (h : Linked s) {c : Command} (hroom : s.roomy c = true) :
    ∃ s', s.step c = some s' ∧ Linked s' := by
  cases c with
  | put key value grow => exact h.put key value grow
  | update key value grow => exact h.update key value grow
  | del key => exact h.del key
  | begin => exact ⟨_, rfl, h.beginCmd⟩
  | commit => exact h.commitCmd
  | abort grow =>
    cases ht : s.activeTxn with
    | none => exact ⟨s, by rw [Shell.step, Shell.abort, ht], h⟩
    | some t =>
      obtain ⟨s', hs', hlinked, -⟩ := h.abort_open ht hroom
      exact ⟨s', hs', hlinked⟩
  | fill n grow => exact h.fill n grow
  | bench n grow => exact h.bench n grow

theorem Linked.of_steps (hrun : Steps Shell.step (fun s c => s.roomy c = true) Shell.initStorage s) :
    Linked s := by
  refine hrun.invariant (fun s₁ c s₂ h hok hs => ?_) .initStorage
  obtain ⟨s₃, hs₃, hlinked⟩ := h.step hok
  rw [hs] at hs₃
  rw [Option.some.inj hs₃]
  exact hlinked

end Commands

end Shell

end PersistX
