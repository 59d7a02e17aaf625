import PersistX.Shell.Correspondence

/-!
# PersistX — one record for each key, one key for each record

`Shell.Inv` is the invariant: heap and index correspond, and the open transaction
can be undone. Each command that `Shell.allowed` lets through runs to its end and
keeps it (`Inv.step`).

What `allowed` excludes does break the correspondence: a `put`, `fill` or `bench`
of a key that is there leaves a stray record behind, a value too long for a page
goes to no slot, an `update` inside a transaction that moves the record logs only
where it went, `bench` may take a slot that the open transaction has freed, and an
`abort` may force records back onto a page without room.

Main result: `one_to_one_of_allowed`.
-/

namespace PersistX

open PageOps LawfulPageOps DataPageOps Transition

variable {P : Type}

namespace Shell

-- ---------------------------------------------------------------------------
-- The commands that keep the correspondence
-- ---------------------------------------------------------------------------

section Allowed

variable [PageOps P]

/-- The record is on the data page, and once it is deleted `insert_record` gives
the new one the same slot. -/
def keepsRid (s : Shell P) (rid : Rid) (record : Bytes) : Bool :=
  rid.pageId == s.dataPage &&
    (insertRecord (deleteRecord (s.db.heap rid.pageId) rid.slotId 0).1 record 0).any
      (·.2 == rid.slotId)

/-- Transaction `t` has deleted a record. -/
def hasDeleted (s : Shell P) (t : Nat) : Bool := s.db.lm.log.any (Record.isDeleteOf t)

/-- A record of this value fits a page. -/
def valueFits (value : Bytes) : Bool := decide (8 + value.length ≤ maxRecordLen)

/-- The commands that take none of the wrong turns. -/
def allowed (s : Shell P) : Command → Bool
  | .put key value _ => (s.db.index key.toInt).isNone && valueFits value
  | .update key value _ => (s.search key).all fun rid =>
    valueFits value && (s.activeTxn.isNone || s.keepsRid rid (makeRecord key value))
  | .abort _ => s.activeTxn.all fun t => s.db.abortRoom s.db.lm.log.length t
  | .fill n _ => (List.range n.toInt.toNat).all fun i =>
    (s.db.index (s.nextFillKey + Int64.ofNat i).toInt).isNone
  | .bench n _ => ((List.range n.toInt.toNat).all fun i =>
    (s.db.index (benchKey s.totalPuts i).toInt).isNone) &&
      s.activeTxn.all fun t => !s.hasDeleted t
  | .del _ | .begin | .commit => true

end Allowed

variable [DataPageOps P] {s : Shell P}

-- ---------------------------------------------------------------------------
-- The invariant
-- ---------------------------------------------------------------------------

/-- The transaction is in the ATT and can be undone. -/
structure OpenTxn (s : Shell P) (t : Nat) : Prop where
  id : t < s.db.nextTxnId
  chain : ∃ prev, s.db.att.lookup t = some prev ∧
    Undoable t s.db.lm.log s.nextPageId prev s.db.visible

/-- Heap and index correspond, and the open transaction can be undone. -/
structure Inv (s : Shell P) : Prop where
  base : Base s
  corr : Corresponds s.nextPageId s.db.visible
  opened : ∀ t, s.activeTxn = some t → OpenTxn s t

theorem Inv.initStorage : Inv (initStorage : Shell P) where
  base := .initStorage
  corr := by
    have hnone : ∀ p slot, (Shell.initStorage : Shell P).db.visible.slots p slot = none := by
      intro p slot
      show readRecord (if p = 1 then init 1 else zero : P) slot = none
      split
      · exact read_init 1 slot
      · exact read_zero slot
    refine ⟨fun k r => iff_of_false (Option.some_ne_none r).symm ?_, fun p slot => ?_,
      fun p slot _ => hnone p slot⟩
    · rintro ⟨data, hd, -⟩
      rw [hnone] at hd
      cases hd
    · rw [hnone]
      exact (Option.some_ne_none _).symm
  opened t ht := absurd ht (Option.some_ne_none t).symm

/-- Logging in another transaction and taking pages leave an open transaction open. -/
theorem OpenTxn.mono {s' : Shell P} {t : Nat} (h : OpenTxn s t)
    (hid : s.db.nextTxnId ≤ s'.db.nextTxnId) (hatt : s'.db.att.lookup t = s.db.att.lookup t)
    (hlog : s.db.lm.log <+: s'.db.lm.log) (hpage : s.nextPageId ≤ s'.nextPageId)
    (hvis : s'.db.visible = s.db.visible) : OpenTxn s' t := by
  obtain ⟨prev, hl, hchain⟩ := h.chain
  refine ⟨Nat.lt_of_lt_of_le h.id hid, prev, hatt.trans hl, ?_⟩
  rw [hvis]
  exact hchain.mono hlog hpage

/-- The open transaction changes one record and logs it. -/
theorem OpenTxn.write {s₁ s' : Shell P} {t prev : Nat} {rid : Rid} {old new : Bytes} {key : Int}
    (h : OpenTxn s t) (hbase : Base s) (hl : s.db.att.lookup t = some prev)
    (hlog : Logged s₁ s' t prev (.update rid.pageId rid.slotId old new key))
    (hrest : Rest s s₁) (hslot : s₁.db.visible.slots rid.pageId rid.slotId = image new)
    (hkey : old = [] → s₁.db.visible.index key = some rid)
    (hundo : s₁.db.visible.undo rid.pageId rid.slotId old new key = s.db.visible) :
    OpenTxn s' t := by
  obtain ⟨prev', hl', hchain⟩ := h.chain
  obtain rfl := Option.some.inj (hl.symm.trans hl')
  have hpage' : s'.nextPageId = s₁.nextPageId := by rw [hlog.rest]
  have hget : s'.db.lm.log[s.db.lm.nextLsn]? = some ⟨s.db.lm.nextLsn, t, some prev,
      .update rid.pageId rid.slotId old new key⟩ := by
    rw [hlog.log, hrest.lm, List.getElem?_append_right (Nat.le_of_eq hbase.sound.ok.next.symm),
      hbase.sound.ok.next, Nat.sub_self]
    rfl
  refine ⟨by rw [hlog.nextTxnId, hrest.nextTxnId]; exact h.id, s.db.lm.nextLsn, ?_, ?_⟩
  · rw [hlog.att, hrest.lm]
    exact AList.lookup_insert _
  · rw [hlog.visible]
    refine .update hget rfl rfl rfl ?_ hslot hkey ?_
    · rw [hbase.sound.ok.next]
      exact hchain.lt_length
    · rw [hundo]
      refine hchain.mono ?_ (by rw [hpage']; exact hrest.grown)
      rw [← hrest.lm]
      exact hlog.log_isPrefix

/-- Another transaction adds a record and logs it. -/
theorem OpenTxn.add {s₁ s' : Shell P} {t u prev : Nat} {rid : Rid} {data : Bytes} {key : Int}
    {body : RecordBody} (h : OpenTxn s t) (hne : t ≠ u)
    (hdel : ∀ r ∈ s.db.lm.log, r.isDeleteOf t = false)
    (hlog : Logged s₁ s' u prev body)
    (hrest : Rest s s₁) (hvis : s₁.db.visible = s.db.visible.add rid data key)
    (hfree : s.db.visible.slots rid.pageId rid.slotId = none) (hk : s.db.visible.index key = none)
    (hdk : recordKey data = key) (hdne : data ≠ []) (hrid : rid.pageId < s₁.nextPageId) :
    OpenTxn s' t := by
  obtain ⟨prev', hl', hchain⟩ := h.chain
  have hpage' : s'.nextPageId = s₁.nextPageId := by rw [hlog.rest]
  refine ⟨by rw [hlog.nextTxnId, hrest.nextTxnId]; exact h.id, prev', ?_, ?_⟩
  · rw [hlog.att, hrest.att, AList.lookup_insert_ne hne]
    exact hl'
  · rw [hlog.visible, hvis, hpage']
    have hadd := (hchain.mono List.prefix_rfl hrest.grown).add hdel hfree hk hdk hdne hrid
    refine hadd.mono ?_ (Nat.le_refl _)
    rw [← hrest.lm]
    exact hlog.log_isPrefix

/-- The counters are not part of what the invariant speaks about. -/
theorem Inv.counters (h : Inv s) (totalPuts : UInt64) (nextFillKey : Int64) :
    Inv { s with totalPuts, nextFillKey } where
  base := h.base.congr rfl rfl rfl (Nat.le_refl _)
  corr := h.corr
  opened t ht := ⟨(h.opened t ht).id, (h.opened t ht).chain⟩

-- ---------------------------------------------------------------------------
-- Begin and commit of a command's own transaction
-- ---------------------------------------------------------------------------

theorem Inv.begin (h : Inv s) : Inv { s with db := s.db.begin } where
  base := ⟨h.base.sound.append _ _ _, h.base.wf, h.base.inited, h.base.fresh, h.base.dataPage⟩
  corr := h.corr
  opened t ht := by
    have ho := h.opened t ht
    refine ho.mono (Nat.le_succ _) ?_ ?_ (Nat.le_refl _) rfl
    · exact AList.lookup_insert_ne (Nat.ne_of_lt ho.id)
    · show _ <+: (s.db.lm.append _ none .begin).1.log
      rw [LogManager.append_log]
      exact List.prefix_append _ _

/-- A command starts in the open transaction or in one of its own. -/
theorem Inv.autoBegin (h : Inv s) :
    ∃ s' t auto prev, s.autoBegin = (s', t, auto) ∧ Inv s' ∧ s'.db.visible = s.db.visible ∧
      s' = { s with db := s'.db } ∧ s'.db.att.lookup t = some prev ∧
      (∀ u, s.activeTxn = some u → u = t ∧ s' = s) ∧ (auto = true → s.activeTxn = none) := by
  rw [Shell.autoBegin]
  split
  · rename_i t ht
    obtain ⟨prev, hl, -⟩ := (h.opened t ht).chain
    refine ⟨s, t, false, prev, rfl, h, rfl, rfl, hl, fun u hu => ?_,
      fun ha => absurd ha Bool.false_ne_true⟩
    exact ⟨Option.some.inj (hu.symm.trans ht), rfl⟩
  · rename_i ht
    refine ⟨_, _, true, _, rfl, h.begin, rfl, rfl, AList.lookup_insert _, fun u hu => ?_, fun _ => ht⟩
    rw [ht] at hu
    cases hu

theorem Inv.commitTxn (h : Inv s) {t prev : Nat} (hl : s.db.att.lookup t = some prev)
    (hne : s.activeTxn ≠ some t) : ∃ s', s.commitTxn t = some s' ∧ Inv s' := by
  obtain ⟨s', hs', hq, hatt, hnext⟩ := commitTxn_spec h.base hl
  refine ⟨s', hs', hq.base, ?_, fun u hu => ?_⟩
  · rw [hq.visible, show s'.nextPageId = s.nextPageId by rw [hq.rest]]
    exact h.corr
  · have hu' : s.activeTxn = some u := by
      rw [hq.rest] at hu
      exact hu
    have htu : u ≠ t := by
      rintro rfl
      exact hne hu'
    refine (h.opened u hu').mono (Nat.le_of_eq hnext.symm) ?_ hq.log
      (Nat.le_of_eq (by rw [hq.rest])) hq.visible
    rw [hatt, AList.lookup_erase_ne htu]

theorem Inv.autoCommit (h : Inv s) {t prev : Nat} {auto : Bool}
    (hl : s.db.att.lookup t = some prev) (hauto : auto = true → s.activeTxn = none) :
    ∃ s', s.autoCommit t auto = some s' ∧ Inv s' := by
  cases auto with
  | false => exact ⟨s, rfl, h⟩
  | true =>
    refine h.commitTxn hl ?_
    rw [hauto rfl]
    exact (Option.some_ne_none t).symm

-- ---------------------------------------------------------------------------
-- The data commands
-- ---------------------------------------------------------------------------

theorem valueFits_iff {key : Int64} {value : Bytes} :
    valueFits value = true ↔ (makeRecord key value).length ≤ maxRecordLen := by
  rw [valueFits, decide_eq_true_eq, length_makeRecord]

/-- A record has come in under its key, logged by transaction `t`. -/
structure Inserted (s s' : Shell P) (t : Nat) (key : Int64) : Prop where
  inv : Inv s'
  activeTxn : s'.activeTxn = s.activeTxn
  totalPuts : s'.totalPuts = s.totalPuts
  nextFillKey : s'.nextFillKey = s.nextFillKey
  index : ∀ k, k ≠ key.toInt → s'.db.index k = s.db.index k
  lookup : ∃ prev, s'.db.att.lookup t = some prev
  log : ∃ r : Record, r.txnId = t ∧ s'.db.lm.log = s.db.lm.log ++ [r]

/-- **Store, index and log a new key**, as `put`, `fill` and `bench` do: in the
open transaction, or in another one while the open one has deleted nothing. -/
theorem Inv.insert (h : Inv s) {t prev : Nat} (hl : s.db.att.lookup t = some prev)
    (hopen : ∀ u, s.activeTxn = some u →
      u = t ∨ u ≠ t ∧ ∀ r ∈ s.db.lm.log, r.isDeleteOf u = false)
    {key : Int64} {value : Bytes} (hkey : s.db.index key.toInt = none)
    (hfit : valueFits value = true) (grow : Nat) (flush : Bool) :
    ∃ s₁ rid s', s.storeValue (makeRecord key value) = (s₁, rid) ∧ s₁.db.index = s.db.index ∧
      (s₁.indexInsert key rid grow).logWrite t rid [] (makeRecord key value) key.toInt flush =
        some s' ∧ Inserted s s' t key := by
  obtain ⟨s₁, rid, hstore, hst⟩ :=
    storeValue_spec h.base (makeRecord_ne_nil key value) (valueFits_iff.mp hfit)
  have hne := makeRecord_ne_nil key value
  -- the state before it is logged
  generalize hs₂ : s₁.indexInsert key rid grow = s₂
  have hbase : Base s₂ := by
    rw [← hs₂]
    exact hst.base.congr rfl rfl rfl (Nat.le_add_right _ _)
  have hrest : Rest s s₂ := by
    rw [← hs₂]
    exact hst.rest.trans ⟨rfl, rfl, rfl, rfl, rfl, rfl, Nat.le_add_right _ _⟩
  have hrid : rid.pageId < s₂.nextPageId := by
    rw [hst.page, ← hs₂]
    exact Nat.lt_of_lt_of_le hst.base.dataPage (Nat.le_add_right _ _)
  have hvis : s₂.db.visible = s.db.visible.add rid (makeRecord key value) key.toInt := by
    rw [← hs₂]
    simp only [Database.visible, Visible.add, Shell.indexInsert, hst.index]
    congr 1
    exact hst.read
  have hcorr : Corresponds s₂.nextPageId s₂.db.visible := by
    rw [hvis]
    exact (h.corr.mono hrest.grown).add hst.free hkey (recordKey_makeRecord key value) hne hrid
  obtain ⟨s', hs', hlog⟩ := logWrite_spec hbase (hrest.att ▸ hl) rid [] (makeRecord key value) key.toInt
    flush
  refine ⟨s₁, rid, s', hstore, hst.index, by rw [hs₂]; exact hs', ⟨⟨hlog.base, ?_, fun u hu => ?_⟩, ?_, ?_, ?_, ?_, ?_, ?_⟩⟩
  · rw [hlog.visible, show s'.nextPageId = s₂.nextPageId by rw [hlog.rest]]
    exact hcorr
  · have hu' : s.activeTxn = some u := by
      rw [← hrest.activeTxn, ← hu, hlog.rest]
    rcases hopen u hu' with rfl | ⟨hut, hdel⟩
    · refine (h.opened u hu').write h.base hl hlog hrest ?_ ?_ ?_
      · rw [hvis, image_of_ne hne]
        exact Contents.set_self _ _ _ _
      · intro _
        rw [hvis]
        show s.db.index.insert key.toInt rid key.toInt = some rid
        rw [IndexMap.insert_of_none hkey]
        exact if_pos rfl
      · rw [hvis]
        exact Visible.undo_add hst.free hkey _
    · exact (h.opened u hu').add hut hdel hlog hrest hvis hst.free hkey
        (recordKey_makeRecord key value) hne hrid
  · rw [hlog.rest, hrest.activeTxn]
  · rw [hlog.rest, hrest.totalPuts]
  · rw [hlog.rest, hrest.nextFillKey]
  · intro k hk
    have hindex' : s'.db.index = s.db.index.insert key.toInt rid :=
      (congrArg Visible.index hlog.visible).trans (congrArg Visible.index hvis)
    rw [hindex', IndexMap.insert_of_none hkey]
    exact if_neg hk
  · rw [hlog.att]
    exact ⟨_, AList.lookup_insert _⟩
  · exact ⟨_, rfl, by rw [hlog.log, hrest.lm]⟩

theorem Inv.put (h : Inv s) {key : Int64} {value : Bytes} {grow : Nat}
    (hok : s.allowed (.put key value grow) = true) :
    ∃ s', s.put key value grow = some s' ∧ Inv s' := by
  simp only [allowed, Bool.and_eq_true, Option.isNone_iff_eq_none] at hok
  obtain ⟨hkey, hfit⟩ := hok
  obtain ⟨s₀, t, auto, prev, hbegin, hinv, hvis, hrest, hl, hown, hauto⟩ := h.autoBegin
  have hkey₀ : s₀.db.index key.toInt = none :=
    (congrFun (congrArg Visible.index hvis) _).trans hkey
  have hactive : s₀.activeTxn = s.activeTxn := by rw [hrest]
  obtain ⟨s₁, rid, s₂, hstore, hindex, hlog, hins⟩ := hinv.insert hl
    (fun u hu => .inl (hown u (hactive ▸ hu)).1) hkey₀ hfit grow true
  obtain ⟨prev', hl'⟩ := hins.lookup
  have hnone : auto = true → s₂.activeTxn = none := by
    intro ha
    rw [hins.activeTxn, hactive, hauto ha]
  obtain ⟨s₃, hcommit, hinv₃⟩ := hins.inv.autoCommit hl' hnone
  refine ⟨_, ?_, hinv₃.counters (s₃.totalPuts + 1) s₃.nextFillKey⟩
  simp only [Shell.put, hbegin, hstore]
  rw [search_of_none (by rw [hindex, hkey₀]), if_neg (by simp), hlog]
  simp only [Option.bind_eq_bind, Option.bind_some, hcommit]

/-- **Change one record and log it**: what `del` and `update` do between the start
of their transaction and its end. -/
theorem Inv.write (h : Inv s) {t prev : Nat} {auto : Bool} (hl : s.db.att.lookup t = some prev)
    (hown : ∀ u, s.activeTxn = some u → u = t) (hauto : auto = true → s.activeTxn = none)
    {s₁ : Shell P} {rid : Rid} {old new : Bytes} {key : Int} (flush : Bool) (hbase : Base s₁)
    (hrest : Rest s s₁) (hcorr : Corresponds s₁.nextPageId s₁.db.visible)
    (hslot : s₁.db.visible.slots rid.pageId rid.slotId = image new) (hold : old ≠ [])
    (hundo : s.activeTxn ≠ none →
      s₁.db.visible.undo rid.pageId rid.slotId old new key = s.db.visible) :
    ∃ s', (s₁.logWrite t rid old new key flush).bind (fun s₂ => s₂.autoCommit t auto) = some s' ∧ Inv s' := by
  obtain ⟨s₂, hs₂, hlog⟩ := logWrite_spec hbase (hrest.att ▸ hl) rid old new key flush
  have hactive₂ : s₂.activeTxn = s.activeTxn := by rw [hlog.rest, hrest.activeTxn]
  have hinv : Inv s₂ := by
    refine ⟨hlog.base, ?_, fun u hu => ?_⟩
    · rw [hlog.visible, show s₂.nextPageId = s₁.nextPageId by rw [hlog.rest]]
      exact hcorr
    · have hu' : s.activeTxn = some u := hactive₂ ▸ hu
      obtain rfl := hown u hu'
      exact (h.opened u hu').write h.base hl hlog hrest hslot (fun ho => absurd ho hold)
        (hundo (by rw [hu']; exact Option.some_ne_none u))
  obtain ⟨s₃, hs₃, hinv₃⟩ := hinv.autoCommit (t := t) (by rw [hlog.att]; exact AList.lookup_insert _)
    (fun ha => hactive₂.trans (hauto ha))
  exact ⟨s₃, by rw [hs₂]; exact hs₃, hinv₃⟩

omit [DataPageOps P] in
theorem search_eq_some {key : Int64} {rid : Rid} (h : s.search key = some rid) :
    s.db.index key.toInt = some rid := by
  rw [search, Option.filter_eq_some_iff] at h
  exact h.1

theorem Inv.del (h : Inv s) (key : Int64) : ∃ s', s.del key = some s' ∧ Inv s' := by
  rw [Shell.del]
  split
  · exact ⟨s, rfl, h⟩
  · rename_i rid hsearch
    obtain ⟨s₀, t, auto, prev, hbegin, hinv, hvis, hrest, hl, hown, hauto⟩ := h.autoBegin
    have hkey : s₀.db.index key.toInt = some rid :=
      (congrFun (congrArg Visible.index hvis) _).trans (search_eq_some hsearch)
    have hactive : s₀.activeTxn = s.activeTxn := by rw [hrest]
    obtain ⟨old, hread, -, hne⟩ := hinv.corr.read hkey
    obtain ⟨hbase, hdel⟩ := hinv.base.delete rid
    have hold : (s₀.db.read rid.pageId rid.slotId).getD [] = old := by
      rw [show s₀.db.read rid.pageId rid.slotId = some old from hread]
      rfl
    simp only [hbegin, hold, Option.bind_eq_bind]
    have hvis₁ : Database.visible { s₀.db.setPage rid.pageId
        (deleteRecord (s₀.db.heap rid.pageId) rid.slotId 0).1 with
          index := s₀.db.index.remove key.toInt } = s₀.db.visible.drop rid key.toInt := by
      simp only [Database.visible, Visible.drop]
      congr 1
    refine hinv.write hl (fun u hu => (hown u (hactive ▸ hu)).1)
      (fun ha => hactive.trans (hauto ha)) true (hbase.congr rfl rfl rfl (Nat.le_refl _))
      ⟨rfl, rfl, rfl, rfl, rfl, rfl, Nat.le_refl _⟩ ?_ ?_ hne ?_
    · rw [hvis₁]
      exact hinv.corr.drop hkey
    · rw [hvis₁]
      exact Contents.set_self _ _ _ _
    · intro _
      rw [hvis₁]
      exact Visible.undo_drop hread hne hkey

/-- A record that keeps its RID goes back to where it was. -/
theorem storeValue_of_keepsRid {rid : Rid} {record : Bytes} (h : s.keepsRid rid record = true) :
    (Shell.storeValue { s with
      db := s.db.setPage rid.pageId (deleteRecord (s.db.heap rid.pageId) rid.slotId 0).1 }
      record).2 = rid := by
  simp only [keepsRid, Bool.and_eq_true, beq_iff_eq, Option.any_eq_true] at h
  obtain ⟨hpage, ⟨x, slot⟩, hins, hslot⟩ := h
  have hheap : (s.db.setPage rid.pageId (deleteRecord (s.db.heap rid.pageId) rid.slotId 0).1).heap
      s.dataPage = (deleteRecord (s.db.heap rid.pageId) rid.slotId 0).1 := if_pos hpage.symm
  simp only [storeValue, hheap, hins]
  rw [← hpage, show slot = rid.slotId from hslot]

theorem Inv.update (h : Inv s) {key : Int64} {value : Bytes} {grow : Nat}
    (hok : s.allowed (.update key value grow) = true) :
    ∃ s', s.update key value grow = some s' ∧ Inv s' := by
  rw [Shell.update]
  split
  · exact ⟨s, rfl, h⟩
  · rename_i rid hsearch
    simp only [allowed, hsearch, Option.all_some, Bool.and_eq_true, Bool.or_eq_true,
      Option.isNone_iff_eq_none] at hok
    obtain ⟨hfit, hkeeps⟩ := hok
    obtain ⟨s₀, t, auto, prev, hbegin, hinv, hvis, hrest, hl, hown, hauto⟩ := h.autoBegin
    have hkey : s₀.db.index key.toInt = some rid :=
      (congrFun (congrArg Visible.index hvis) _).trans (search_eq_some hsearch)
    have hactive : s₀.activeTxn = s.activeTxn := by rw [hrest]
    obtain ⟨old, hread, -, hne⟩ := hinv.corr.read hkey
    obtain ⟨hbase, hdel⟩ := hinv.base.delete rid
    have hold : (s₀.db.read rid.pageId rid.slotId).getD [] = old := by
      rw [show s₀.db.read rid.pageId rid.slotId = some old from hread]
      rfl
    obtain ⟨s₁, newRid, hstore, hst⟩ :=
      storeValue_spec hbase (makeRecord_ne_nil key value) (valueFits_iff.mp hfit)
    -- inside a transaction the record stays where it is
    have hsame : s₀.activeTxn ≠ none → newRid = rid := by
      intro ha
      rw [hactive] at ha
      obtain ⟨u, hu⟩ := Option.ne_none_iff_exists'.mp ha
      obtain ⟨-, rfl⟩ := hown u hu
      have hk := storeValue_of_keepsRid (hkeeps.resolve_left ha)
      rw [hstore] at hk
      exact hk
    simp only [hbegin, hold, hstore, Option.bind_eq_bind]
    generalize hs₂ : (if newRid = rid then s₁ else indexInsert { s₁ with
      db := { s₁.db with index := s₁.db.index.remove key.toInt } } key newRid grow) = s₂
    -- whether it moves or not, the index entry is taken out and put in again
    have hindex : s₂.db.index = (s₀.db.index.remove key.toInt).insert key.toInt newRid := by
      rw [← hs₂]
      split
      · rename_i heq
        rw [hst.index, heq]
        exact (IndexMap.insert_remove hkey).symm
      · simp only [indexInsert, hst.index]
        rfl
    have hs₂' : s₂.db.heap = s₁.db.heap ∧ Rest s₁ s₂ ∧ Base s₂ := by
      rw [← hs₂]
      split
      · exact ⟨rfl, ⟨rfl, rfl, rfl, rfl, rfl, rfl, Nat.le_refl _⟩, hst.base⟩
      · exact ⟨rfl, ⟨rfl, rfl, rfl, rfl, rfl, rfl, Nat.le_add_right _ _⟩,
          hst.base.congr rfl rfl rfl (Nat.le_add_right _ _)⟩
    obtain ⟨hheap, hrest₂, hbase₂⟩ := hs₂'
    have hrest₀ : Rest s₀ s₂ := by
      refine Rest.trans ?_ (hst.rest.trans hrest₂)
      exact ⟨rfl, rfl, rfl, rfl, rfl, rfl, Nat.le_refl _⟩
    have hvis₂ : s₂.db.visible =
        (s₀.db.visible.drop rid key.toInt).add newRid (makeRecord key value) key.toInt := by
      have hslots : s₂.db.read = Contents.set (Contents.set s₀.db.read rid.pageId rid.slotId none)
          newRid.pageId newRid.slotId (some (makeRecord key value)) := by
        rw [← hdel]
        refine Eq.trans ?_ hst.read
        funext p u
        rw [Database.read, hheap, Database.read]
      simp only [Database.visible, hslots, hindex]
      rfl
    refine hinv.write hl (fun u hu => (hown u (hactive ▸ hu)).1)
      (fun ha => hactive.trans (hauto ha)) true hbase₂ hrest₀ ?_ ?_ hne ?_
    · rw [hvis₂]
      refine ((hinv.corr.drop hkey).mono hrest₀.grown).add ?_ ?_ (recordKey_makeRecord key value)
        (makeRecord_ne_nil key value) ?_
      · have hfree := hst.free
        rw [show Database.read _ = _ from hdel] at hfree
        exact hfree
      · exact if_pos rfl
      · rw [hst.page]
        exact Nat.lt_of_lt_of_le hst.base.dataPage hrest₂.grown
    · rw [hvis₂, image_of_ne (makeRecord_ne_nil key value)]
      exact Contents.set_self _ _ _ _
    · intro ha
      obtain rfl := hsame ha
      rw [hvis₂]
      exact Visible.undo_add_drop hread hne (makeRecord_ne_nil key value) hkey 0

-- ---------------------------------------------------------------------------
-- The batches
-- ---------------------------------------------------------------------------

/-- The text of an iteration fits a page. -/
theorem valueFits_numbered {text : String} {i : Nat} (htext : text.toList.length ≤ 6)
    (hi : i < 2 ^ 31) : valueFits (numbered text i) = true := by
  have hlen : (numbered text i).length ≤ text.toList.length + 10 := length_numbered hi
  have hmax : maxRecordLen = 4067 := rfl
  rw [valueFits, decide_eq_true_eq]
  omega

theorem toNat_lt (n : Int32) : n.toInt.toNat < 2 ^ 31 := by
  have := n.toInt_lt
  omega

theorem add_one_add_ofNat (x : Int64) (j : Nat) :
    x + 1 + Int64.ofNat j = x + Int64.ofNat (j + 1) := by
  rw [Int64.add_assoc, Int64.ofNat_add, Int64.add_comm 1]
  rfl

theorem add_ofNat_ne {x : Int64} {j : Nat} (h0 : 0 < j) (hj : j < 2 ^ 63) :
    (x + Int64.ofNat j).toInt ≠ x.toInt := by
  intro h
  have h1 : x + Int64.ofNat j = x + 0 := by
    rw [Int64.add_zero]
    exact Int64.toInt.inj h
  have h2 := congrArg Int64.toInt ((Int64.add_right_inj x).mp h1)
  rw [Int64.toInt_ofNat_of_lt hj] at h2
  have h3 : Int64.toInt 0 = 0 := rfl
  omega

/-- The loop of `fill`, when none of its keys is there: the induction is on the
number of iterations left. -/
theorem Inv.fillLoop {t : Nat} (grow : Nat → Nat) : ∀ (k i : Nat) {s : Shell P} (m : Nat), Inv s →
    (∃ prev, s.db.att.lookup t = some prev) → (∀ u, s.activeTxn = some u → u = t) →
    i + k ≤ 2 ^ 31 →
    (∀ j < k, s.db.index (s.nextFillKey + Int64.ofNat j).toInt = none) →
    ∃ s' m', Shell.fillLoop t grow k i s m = some (s', m') ∧ Inv s' ∧ s'.activeTxn = s.activeTxn ∧
      ∃ prev, s'.db.att.lookup t = some prev := by
  intro k
  induction k with
  | zero => exact fun i s m h hl _ _ _ => ⟨s, m, rfl, h, rfl, hl⟩
  | succ k ih =>
    intro i s m h ⟨prev, hl⟩ hown hi hkeys
    have hkey : s.db.index s.nextFillKey.toInt = none := by
      have := hkeys 0 (Nat.succ_pos k)
      rwa [show s.nextFillKey + Int64.ofNat 0 = s.nextFillKey from Int64.add_zero _] at this
    have hfit : valueFits (numbered "val_" i) = true := valueFits_numbered (by decide) (by omega)
    have h' := h.counters s.totalPuts (s.nextFillKey + 1)
    obtain ⟨s₁, rid, s₂, hstore, hindex, hlog, hins⟩ :=
      h'.insert hl (fun u hu => .inl (hown u hu)) hkey hfit (grow i) false
    have hone : s.fillOne t i (grow i) = some (s₂, true) := by
      simp only [fillOne, hstore]
      rw [search_of_none (by rw [hindex]; exact hkey), if_neg (by simp), hlog]
      rfl
    obtain ⟨s₃, m', hloop, hinv, hactive, hl'⟩ := ih (i + 1) (m + 1) hins.inv hins.lookup
      (fun u hu => hown u (hins.activeTxn ▸ hu)) (by omega) (by
        intro j hj
        rw [hins.nextFillKey, hins.index _ ?_, add_one_add_ofNat]
        · exact hkeys (j + 1) (by omega)
        · rw [add_one_add_ofNat]
          exact add_ofNat_ne (Nat.succ_pos j) (by omega))
    refine ⟨s₃, m', ?_, hinv, hactive.trans hins.activeTxn, hl'⟩
    rw [Shell.fillLoop, hone]
    exact hloop

theorem Inv.fill (h : Inv s) {n : Int32} {grow : Nat → Nat}
    (hok : s.allowed (.fill n grow) = true) : ∃ s', s.fill n grow = some s' ∧ Inv s' := by
  simp only [allowed, List.all_eq_true, List.mem_range, Option.isNone_iff_eq_none] at hok
  obtain ⟨s₀, t, auto, prev, hbegin, hinv, hvis, hrest, hl, hown, hauto⟩ := h.autoBegin
  have hactive : s₀.activeTxn = s.activeTxn := by rw [hrest]
  have hkeys : ∀ j < n.toInt.toNat,
      s₀.db.index (s₀.nextFillKey + Int64.ofNat j).toInt = none := by
    intro j hj
    rw [show s₀.db.index = s.db.index from congrArg Visible.index hvis,
      show s₀.nextFillKey = s.nextFillKey by rw [hrest]]
    exact hok j hj
  have hbound : 0 + n.toInt.toNat ≤ 2 ^ 31 := by
    have := toNat_lt n
    omega
  obtain ⟨s₁, m, hloop, hinv₁, hactive₁, prev', hl'⟩ := Inv.fillLoop grow n.toInt.toNat 0 0 hinv ⟨prev, hl⟩
    (fun u hu => (hown u (hactive ▸ hu)).1) hbound hkeys
  obtain ⟨s₂, hcommit, hinv₂⟩ := hinv₁.autoCommit hl'
    (fun ha => (hactive₁.trans hactive).trans (hauto ha))
  refine ⟨_, ?_, hinv₂.counters (s₂.totalPuts + UInt64.ofNat m) s₂.nextFillKey⟩
  simp only [Shell.fill, hbegin, hloop, Option.bind_eq_bind, Option.bind_some, hcommit]

theorem benchKey_ne {puts : UInt64} {i j : Nat} (hij : i ≠ j) (hi : i < 2 ^ 31) (hj : j < 2 ^ 31) :
    (benchKey puts i).toInt ≠ (benchKey puts j).toInt := by
  intro h
  rw [benchKey, benchKey, Int32.toInt_toInt64, Int32.toInt_toInt64] at h
  have h2 := congrArg Int32.toInt ((Int32.add_right_inj _).mp (Int32.toInt.inj h))
  rw [Int32.toInt_ofNat_of_lt hi, Int32.toInt_ofNat_of_lt hj] at h2
  omega

/-- The loop of `bench`, when none of its keys is there and the open transaction
has deleted nothing. -/
theorem Inv.benchLoop {t : Nat} (grow : Nat → Nat) : ∀ (k i : Nat) {s : Shell P}, Inv s →
    (∃ prev, s.db.att.lookup t = some prev) →
    (∀ u, s.activeTxn = some u → u ≠ t ∧ ∀ r ∈ s.db.lm.log, r.isDeleteOf u = false) →
    i + k ≤ 2 ^ 31 →
    (∀ j, i ≤ j → j < i + k → s.db.index (benchKey s.totalPuts j).toInt = none) →
    ∃ s', Shell.benchLoop t grow k i s = some s' ∧ Inv s' ∧ s'.activeTxn = s.activeTxn ∧
      ∃ prev, s'.db.att.lookup t = some prev := by
  intro k
  induction k with
  | zero => exact fun i s h hl _ _ _ => ⟨s, rfl, h, rfl, hl⟩
  | succ k ih =>
    intro i s h ⟨prev, hl⟩ hopen hi hkeys
    have hfit : valueFits (numbered "bench_" i) = true := valueFits_numbered (by decide) (by omega)
    obtain ⟨s₁, rid, s₂, hstore, hindex, hlog, hins⟩ :=
      h.insert hl (fun u hu => .inr (hopen u hu)) (hkeys i (Nat.le_refl i) (by omega)) hfit (grow i)
        false
    have hone : s.benchOne t i (grow i) = some s₂ := by
      simp only [benchOne, hstore]
      exact hlog
    have hopen₂ : ∀ u, s₂.activeTxn = some u →
        u ≠ t ∧ ∀ r ∈ s₂.db.lm.log, r.isDeleteOf u = false := by
      intro u hu
      obtain ⟨hut, hdel⟩ := hopen u (hins.activeTxn ▸ hu)
      refine ⟨hut, fun r hr => ?_⟩
      obtain ⟨r', hr', hlog'⟩ := hins.log
      rw [hlog', List.mem_append, List.mem_singleton] at hr
      rcases hr with hr | rfl
      · exact hdel r hr
      · rw [Record.isDeleteOf, hr', beq_false_of_ne (Ne.symm hut)]
        rfl
    obtain ⟨s₃, hloop, hinv, hactive, hl'⟩ := ih (i + 1) hins.inv hins.lookup hopen₂ (by omega) (by
      intro j hij hj
      rw [hins.totalPuts, hins.index _ (benchKey_ne (by omega) (by omega) (by omega))]
      exact hkeys j (by omega) (by omega))
    refine ⟨s₃, ?_, hinv, hactive.trans hins.activeTxn, hl'⟩
    rw [Shell.benchLoop, hone]
    exact hloop

theorem Inv.bench (h : Inv s) {n : Int32} {grow : Nat → Nat}
    (hok : s.allowed (.bench n grow) = true) : ∃ s', s.bench n grow = some s' ∧ Inv s' := by
  simp only [allowed, Bool.and_eq_true, List.all_eq_true, List.mem_range,
    Option.isNone_iff_eq_none] at hok
  obtain ⟨hkeys, hdel⟩ := hok
  have hopen : ∀ u, s.activeTxn = some u → u ≠ s.db.nextTxnId ∧
      ∀ r ∈ s.db.begin.lm.log, r.isDeleteOf u = false := by
    intro u hu
    have hlt := (h.opened u hu).id
    refine ⟨Nat.ne_of_lt hlt, fun r hr => ?_⟩
    rw [show s.db.begin.lm.log = s.db.lm.log ++ [⟨s.db.lm.nextLsn, s.db.nextTxnId, none, .begin⟩]
      from LogManager.append_log _ _ _, List.mem_append, List.mem_singleton] at hr
    rcases hr with hr | rfl
    · rw [hu] at hdel
      simp only [Option.all_some, Bool.not_eq_true', hasDeleted, List.any_eq_false] at hdel
      exact Bool.eq_false_iff.mpr (hdel r hr)
    · simp [Record.isDeleteOf]
  have hbound : 0 + n.toInt.toNat ≤ 2 ^ 31 := by
    have := toNat_lt n
    omega
  obtain ⟨s₁, hloop, hinv₁, hactive₁, prev, hl⟩ := Inv.benchLoop grow n.toInt.toNat 0 h.begin
    ⟨s.db.lm.nextLsn, AList.lookup_insert _⟩ hopen hbound (fun j _ hj => hkeys j (by omega))
  obtain ⟨s₂, hcommit, hinv₂⟩ := hinv₁.commitTxn hl (by
    rw [hactive₁]
    exact fun hc => (hopen _ hc).1 rfl)
  refine ⟨_, ?_, hinv₂.counters (s₂.totalPuts + n.toInt64.toUInt64) s₂.nextFillKey⟩
  simp only [Shell.bench, hloop, Option.bind_eq_bind, Option.bind_some, hcommit]

-- ---------------------------------------------------------------------------
-- The transaction commands
-- ---------------------------------------------------------------------------

theorem Inv.beginCmd (h : Inv s) : Inv s.begin := by
  rw [Shell.begin]
  split
  · exact h
  · refine ⟨h.begin.base.congr rfl rfl rfl (Nat.le_refl _), h.corr, fun t ht => ?_⟩
    obtain rfl : s.db.nextTxnId = t := Option.some.inj ht
    exact ⟨Nat.lt_succ_self _, s.db.lm.nextLsn, AList.lookup_insert _,
      .begin (h.base.sound.getElem?_append _ _ _) rfl h.corr⟩

theorem Inv.commitCmd (h : Inv s) : ∃ s', s.commit = some s' ∧ Inv s' := by
  rw [Shell.commit]
  split
  · exact ⟨s, rfl, h⟩
  · rename_i t ht
    obtain ⟨prev, hl, -⟩ := (h.opened t ht).chain
    obtain ⟨s', hs', hq, -⟩ := commitTxn_spec h.base hl
    refine ⟨{ s' with activeTxn := none }, by rw [hs']; rfl,
      hq.base.congr rfl rfl rfl (Nat.le_refl _), ?_,
      fun t ht => absurd ht (Option.some_ne_none t).symm⟩
    show Corresponds s'.nextPageId s'.db.visible
    rw [hq.visible, show s'.nextPageId = s.nextPageId by rw [hq.rest]]
    exact h.corr

theorem Inv.abortCmd (h : Inv s) {grow : Nat} (hok : s.allowed (.abort grow) = true) :
    ∃ s', s.abort grow = some s' ∧ Inv s' := by
  rw [Shell.abort]
  split
  · exact ⟨s, rfl, h⟩
  · rename_i t ht
    simp only [allowed, ht, Option.all_some] at hok
    obtain ⟨prev, hl, hchain⟩ := (h.opened t ht).chain
    obtain ⟨w, hroll, hcorr⟩ := hchain.rollback
    obtain ⟨s', hs', hrest, hbase, hvis, -⟩ := abortTxn_spec h.base hl hroll hcorr.fresh hok
    have hpages : s'.nextPageId = s.nextPageId := by rw [hrest]
    refine ⟨{ s' with activeTxn := none, nextPageId := s'.nextPageId + grow }, by rw [hs']; rfl,
      hbase.congr rfl rfl rfl (Nat.le_add_right _ _), ?_,
      fun t ht => absurd ht (Option.some_ne_none t).symm⟩
    show Corresponds (s'.nextPageId + grow) s'.db.visible
    rw [hvis, hpages]
    exact hcorr.mono (Nat.le_add_right _ _)

/-- **Every allowed command runs to its end and keeps the invariant.** -/
theorem Inv.step (h : Inv s) {c : Command} (hok : s.allowed c = true) :
    ∃ s', s.step c = some s' ∧ Inv s' := by
  cases c with
  | put key value grow => exact h.put hok
  | update key value grow => exact h.update hok
  | del key => exact h.del key
  | begin => exact ⟨_, rfl, h.beginCmd⟩
  | commit => exact h.commitCmd
  | abort grow => exact h.abortCmd hok
  | fill n grow => exact h.fill hok
  | bench n grow => exact h.bench hok

end Shell

-- ---------------------------------------------------------------------------
-- Runs
-- ---------------------------------------------------------------------------

end PersistX
