import PersistX.Shell.Upkeep

/-!
# PersistX — the store behind the pages, stage by stage

`RunInv` ties a machine in the middle of a command to the key-value store that its
commands describe: the slots that the log describes represent the store up to the
part of the command that is not logged yet, and the index has the same records. What
a stage has done to its page ahead of the log is in `StageInv`.

Main result: `RunInv.advance` — every stage of every command keeps it, and when the
command is through, the whole of it is in the store.
-/

namespace PersistX

open PageOps LawfulPageOps DataPageOps

-- ---------------------------------------------------------------------------
-- The invariant
-- ---------------------------------------------------------------------------

/-- What the command has left to do behind the record in hand. -/
def Sequel.left (fillKey : Int64) : Sequel → List (Int64 × Option Bytes)
  | .finish _ _ _ => []
  | .loop _ _ k i _ => Store.fillPairs fillKey k i

/-- The transaction is the command's own. -/
def Sequel.auto : Sequel → Bool
  | .finish _ auto _ => auto
  | .loop _ auto _ _ _ => auto

/-- The iterations of `fill` are counted by an `int`. -/
def Sequel.Small : Sequel → Prop
  | .finish _ _ _ => True
  | .loop _ _ k i _ => i + k < 2 ^ 31

/-- Undo of the open transaction's records leads from `v` to the committed store. -/
def GoesBack (m : Machine) (committed : Int64 → Option Bytes) (t : Nat) (v : Visible) : Prop :=
  ∃ prev w, m.shell.db.att.lookup t = some prev ∧ Rollback m.shell.db.lm.log prev v w ∧
    Represents w.slots committed ∧ Corresponds m.shell.nextPageId w

/-- A command of transaction `t` is under way: the log describes `kv`, and `left` is still to
come. The index and the slots are `v`, the changes ahead of the log taken back. -/
structure Busy (st : Store) (m : Machine) (kv : Int64 → Option Bytes) (v : Visible) (t : Nat) (auto : Bool)
    (left : List (Int64 × Option Bytes)) : Prop where
  only : OnlyOpen m.shell.db.lm.log t
  back : GoesBack m st.committed t v
  txn : m.shell.activeTxn = if auto then none else some t
  store : Store.apply kv left = Store.apply st.current st.todo

/-- What the log and the index say. -/
def Machine.seen (m : Machine) : Visible := ⟨contents m.shell.db.lm.log, m.shell.db.index⟩

/-- No transaction is open, or the one that `begin` has opened, and it can go back. -/
def BetweenInv (st : Store) (m : Machine) : Option Nat → Prop
  | none => ∀ t, active m.shell.db.lm.log t = none
  | some t => OnlyOpen m.shell.db.lm.log t ∧ GoesBack m st.committed t m.seen

/-- What holds at a stage. `heap` is the pages as far as the log goes. -/
def StageInv (st : Store) (m : Machine) (heap : Nat → Page) (kv : Int64 → Option Bytes) :
    CommandStage → Prop
  | .ready => m.shell.db.heap = heap ∧ kv = st.current ∧ BetweenInv st m m.shell.activeTxn
  | .loop t auto k i _ => m.shell.db.heap = heap ∧ i + k < 2 ^ 31 ∧
    Busy st m kv m.seen t auto (Store.fillPairs m.shell.nextFillKey k i)
  | .store key record sequel => m.shell.db.heap = heap ∧ sequel.Small ∧ record.length ≤ maxRecordLen ∧
    ∃ value, record = makeRecord key value ∧ Busy st m kv m.seen sequel.txn sequel.auto
      ((key, some value) :: sequel.left m.shell.nextFillKey)
  | .stored key rid record sequel => (∀ q, m.shell.db.heap q =
      if q = rid.pageId then redoInsert (heap q) rid.slotId record 0 else heap q) ∧
    rid.pageId < m.shell.nextPageId ∧ (heap rid.pageId).fits rid.slotId record = true ∧
    (heap rid.pageId).readRecord rid.slotId = none ∧ sequel.Small ∧
    ∃ value, record = makeRecord key value ∧ Busy st m kv m.seen sequel.txn sequel.auto
      ((key, some value) :: sequel.left m.shell.nextFillKey)
  | .erase key rid record t auto => m.shell.db.heap = heap ∧ m.shell.db.index key.toInt = some rid ∧
    ∃ value : Option Bytes, record = value.map (makeRecord key) ∧
      (∀ d, record = some d → d.length ≤ maxRecordLen) ∧ Busy st m kv m.seen t auto [(key, value)]
  | .erased key rid old record t auto => (∀ q, m.shell.db.heap q =
      if q = rid.pageId then (deleteRecord (heap q) rid.slotId 0).1 else heap q) ∧
    m.shell.db.index key.toInt = some rid ∧ (heap rid.pageId).readRecord rid.slotId = some old ∧
    record.length ≤ maxRecordLen ∧
    ∃ value, record = makeRecord key value ∧ Busy st m kv m.seen t auto [(key, some value)]
  | .changed rid old new key sequel => (∀ q, q ≠ rid.pageId → m.shell.db.heap q = heap q) ∧
    rid.pageId < m.shell.nextPageId ∧ image old = (heap rid.pageId).readRecord rid.slotId ∧
    (new = [] → old ≠ []) ∧
    Page.Redoes (heap rid.pageId) (m.shell.db.heap rid.pageId) rid.slotId old new ∧
    PageOps.inited (m.shell.db.heap rid.pageId) = true ∧ sequel.Small ∧
    ∃ k value v, image new = Option.map (makeRecord k) value ∧ HeldAt (contents m.shell.db.lm.log) k rid ∧
      Visible.undo ⟨(contents m.shell.db.lm.log).set rid.pageId rid.slotId (image new), m.shell.db.index⟩
        rid.pageId rid.slotId old new key = v ∧
      Busy st m kv v sequel.txn sequel.auto ((k, value) :: sequel.left m.shell.nextFillKey)
  | .logged rid lsn sequel => (∀ q, heap q =
      if q = rid.pageId then setPageLsn (m.shell.db.heap q) lsn else m.shell.db.heap q) ∧
    sequel.Small ∧ Busy st m kv m.seen sequel.txn sequel.auto (sequel.left m.shell.nextFillKey)

/-- The slots that the index is about: ahead of the log once heap and index are changed. -/
def Machine.slots (m : Machine) : Contents :=
  match m.stage with
  | .changed rid _ new _ _ => (contents m.shell.db.lm.log).set rid.pageId rid.slotId (image new)
  | _ => contents m.shell.db.lm.log

/-- **The invariant**, with the pages and the store as far as the log goes. -/
structure RunInvAt (n : Nat) (st : Store) (m : Machine) (heap : Nat → Page) (kv : Int64 → Option Bytes) :
    Prop where
  base : Shell.Base m.shell
  ids : m.shell.nextPageId ≤ invalidPageId
  log : WalInv n m.shell.nextPageId st.committed m.shell.db.lm m.disk heap
  txns : TxnTable m.shell.db.lm.log m.shell.db.att m.shell.db.nextTxnId
  store : Represents (contents m.shell.db.lm.log) kv
  index : Corresponds m.shell.nextPageId ⟨m.slots, m.shell.db.index⟩
  stage : StageInv st m heap kv m.stage

def RunInv (n : Nat) (st : Store) (m : Machine) : Prop := ∃ heap kv, RunInvAt n st m heap kv

/-- Pages and index are even with the log. -/
structure Even (n : Nat) (committed : Int64 → Option Bytes) (m : Machine) (kv : Int64 → Option Bytes) :
    Prop where
  base : Shell.Base m.shell
  ids : m.shell.nextPageId ≤ invalidPageId
  log : WalInv n m.shell.nextPageId committed m.shell.db.lm m.disk m.shell.db.heap
  txns : TxnTable m.shell.db.lm.log m.shell.db.att m.shell.db.nextTxnId
  store : Represents (contents m.shell.db.lm.log) kv
  index : Corresponds m.shell.nextPageId m.seen

variable {n t : Nat} {st : Store} {m m' : Machine} {heap : Nat → Page} {kv committed : Int64 → Option Bytes}
  {s s' : Shell Page} {auto : Bool} {left : List (Int64 × Option Bytes)} {v : Visible} {rid : Rid}
  {record : Bytes} {key : Int64} {sequel : Sequel}

theorem RunInvAt.even (h : RunInvAt n st m heap kv) (hheap : m.shell.db.heap = heap)
    (hslots : m.slots = contents m.shell.db.lm.log) : Even n st.committed m kv :=
  ⟨h.base, h.ids, hheap ▸ h.log, h.txns, h.store, by rw [Machine.seen, ← hslots]; exact h.index⟩

/-- From there to a stage that is even with the log as well. -/
theorem Even.runInv (h : Even n st.committed m kv) (hslots : m.slots = contents m.shell.db.lm.log)
    (hs : StageInv st m m.shell.db.heap kv m.stage) : RunInv n st m :=
  ⟨m.shell.db.heap, kv, h.base, h.ids, h.log, h.txns, h.store, hslots ▸ h.index, hs⟩

theorem GoesBack.congr (h : GoesBack m committed t v) (hlog : m'.shell.db.lm.log = m.shell.db.lm.log)
    (hatt : m'.shell.db.att = m.shell.db.att) (hnext : m.shell.nextPageId ≤ m'.shell.nextPageId) :
    GoesBack m' committed t v := by
  obtain ⟨prev, w, hl, hroll, hrep, hcor⟩ := h
  exact ⟨prev, w, hatt ▸ hl, hlog ▸ hroll, hrep, hcor.mono hnext⟩

theorem Busy.congr (h : Busy st m kv v t auto left) (hlog : m'.shell.db.lm.log = m.shell.db.lm.log)
    (hatt : m'.shell.db.att = m.shell.db.att) (hnext : m.shell.nextPageId ≤ m'.shell.nextPageId)
    (htxn : m'.shell.activeTxn = m.shell.activeTxn) : Busy st m' kv v t auto left where
  only := hlog ▸ h.only
  back := h.back.congr hlog hatt hnext
  txn := htxn.trans h.txn
  store := h.store

-- ---------------------------------------------------------------------------
-- The helpers of the shell, on the bytes of the pages
-- ---------------------------------------------------------------------------

namespace Shell

/-- The pages are as they were. -/
theorem Base.still (h : Base s) (hheap : s'.db.heap = s.db.heap) (hpage : s'.dataPage = s.dataPage)
    (hgrown : s.nextPageId ≤ s'.nextPageId) (hsound : s'.db.lm.Sound) : Base s' where
  sound := hsound
  wf p := by
    rw [hheap]
    exact h.wf p
  inited := by
    rw [hheap, hpage]
    exact h.inited
  fresh p u hp := by
    rw [Database.read, hheap]
    exact h.fresh p u (Nat.le_trans hgrown hp)
  dataPage := by
    rw [hpage]
    exact Nat.lt_of_lt_of_le h.dataPage hgrown

/-- `set_page_lsn`. -/
theorem Base.stampPage (h : Base s) (p lsn : Nat) : Base { s with db := s.db.stampPage p lsn } where
  sound := h.sound
  wf := Database.wf_setPage h.wf (wf_setPageLsn _ (h.wf p))
  inited := by
    show PageOps.inited (if s.dataPage = p then _ else _) = true
    split
    · rename_i hp
      rw [inited_setPageLsn, ← hp]
      exact h.inited
    · exact h.inited
  fresh q u hq := by
    show readRecord (if q = p then _ else _) u = none
    split
    · rename_i hqp
      rw [read_setPageLsn _ _ (h.wf p), ← hqp]
      exact h.fresh q u hq
    · exact h.fresh q u hq
  dataPage := h.dataPage

/-- **`store_value`** puts the record on a page, which may be a new one. -/
structure StoredOn (s s' : Shell Page) (record : Bytes) (rid : Rid) (heap : Nat → Page) : Prop where
  page : heap = s.db.heap ∧ s'.nextPageId = s.nextPageId ∨ rid.pageId = s.nextPageId ∧
    heap = (fun q => if q = s.nextPageId then Page.init s.nextPageId else s.db.heap q) ∧
    s'.nextPageId = s.nextPageId + 1
  after : ∀ q, s'.db.heap q = if q = rid.pageId then redoInsert (heap q) rid.slotId record 0 else heap q
  fits : (heap rid.pageId).fits rid.slotId record = true
  free : (heap rid.pageId).readRecord rid.slotId = none
  lt : rid.pageId < s'.nextPageId
  base : Base s'
  rest : Rest s s'
  index : s'.db.index = s.db.index

theorem storeValue_on (h : Base s) (hne : record ≠ []) (hlen : record.length ≤ maxRecordLen)
    (hstore : s.storeValue record = (s', rid)) : ∃ heap, StoredOn s s' record rid heap := by
  obtain ⟨s₁, rid₁, hstore₁, hst⟩ := storeValue_spec h hne hlen
  obtain ⟨rfl, rfl⟩ := Prod.mk.injEq .. ▸ hstore₁.symm.trans hstore
  have hlt : rid₁.pageId < s₁.nextPageId := by
    rw [hst.page]
    exact hst.base.dataPage
  rw [storeValue] at hstore
  split at hstore
  · rename_i x slot hins
    obtain ⟨rfl, rfl⟩ := Prod.mk.injEq .. ▸ hstore
    obtain ⟨hfits, hfree, rfl⟩ := insertRecord_spec (h.wf _) h.inited hne (sizeOk_of_le hlen) hins
    refine ⟨s.db.heap, .inl ⟨rfl, rfl⟩, fun q => ?_, hfits, hfree, hlt, hst.base, hst.rest, hst.index⟩
    show (if q = s.dataPage then _ else _) = if q = s.dataPage then _ else _
    split
    · rename_i hq
      rw [hq]
    · rfl
  · obtain ⟨x, slot, hins⟩ := insertRecord_init (P := Page) s.nextPageId hlen
    simp only [hins, Option.getD_some] at hstore
    obtain ⟨rfl, rfl⟩ := Prod.mk.injEq .. ▸ hstore
    obtain ⟨hfits, hfree, rfl⟩ := insertRecord_spec (wf_init (P := Page) s.nextPageId)
      (inited_init s.nextPageId) hne (sizeOk_of_le hlen) hins
    refine ⟨fun q => if q = s.nextPageId then Page.init s.nextPageId else s.db.heap q,
      .inr ⟨rfl, rfl, rfl⟩, fun q => ?_, ?_, ?_, hlt, hst.base, hst.rest, hst.index⟩
    · show (if q = s.nextPageId then _ else _) = if q = s.nextPageId then _ else _
      split
      · rfl
      · rfl
    · show (if s.nextPageId = s.nextPageId then _ else _ : Page).fits slot record = true
      rw [if_pos rfl]
      exact hfits
    · show (if s.nextPageId = s.nextPageId then _ else _ : Page).readRecord slot = none
      rw [if_pos rfl]
      exact hfree

end Shell

theorem WalInv.storedOn {lm : LogManager} {disk : Nat → Page}
    (h : WalInv n s.nextPageId committed lm disk s.db.heap) (hst : Shell.StoredOn s s' record rid heap) :
    WalInv n s'.nextPageId committed lm disk heap := by
  rcases hst.page with ⟨rfl, hnext⟩ | ⟨-, rfl, hnext⟩
  · rw [hnext]
    exact h
  · rw [hnext]
    exact h.newPage

-- ---------------------------------------------------------------------------
-- Begin and commit
-- ---------------------------------------------------------------------------

/-- BEGIN of a transaction, with none open. -/
theorem Even.begin (h : Even n committed m kv) (hrep : Represents (contents m.shell.db.lm.log) committed)
    (hnone : ∀ t, active m.shell.db.lm.log t = none) (hs : s.db = m.shell.db.begin)
    (hpage : s.dataPage = m.shell.dataPage) (hnext : s.nextPageId = m.shell.nextPageId)
    (stage : CommandStage) : Even n committed (m.goTo (s, stage)) kv ∧
      OnlyOpen s.db.lm.log m.shell.db.nextTxnId ∧
      GoesBack (m.goTo (s, stage)) committed m.shell.db.nextTxnId (m.goTo (s, stage)).seen := by
  obtain ⟨hlife, htxns⟩ := h.txns.begin h.log.ok.next
  have hlm : s.db.lm = (m.shell.db.lm.append m.shell.db.nextTxnId none .begin).1 := by rw [hs]; rfl
  have hatt : s.db.att = m.shell.db.att.insert m.shell.db.nextTxnId m.shell.db.lm.nextLsn := by rw [hs]; rfl
  have hheap : s.db.heap = m.shell.db.heap := by rw [hs]; rfl
  have hindex : s.db.index = m.shell.db.index := by rw [hs]; rfl
  have hid : s.db.nextTxnId = m.shell.db.nextTxnId + 1 := by rw [hs]; rfl
  have hlog : s.db.lm.log = m.shell.db.lm.log ++ [⟨m.shell.db.lm.nextLsn, m.shell.db.nextTxnId, none, .begin⟩] := by
    rw [hlm, LogManager.append_log]
  have hcontents : contents s.db.lm.log = contents m.shell.db.lm.log := by
    rw [hlog, contents_append_one]
    rfl
  have hwal := h.log.append_quiet hlife rfl rfl (by simp)
  have hseen : (m.goTo (s, stage)).seen = m.seen := by
    show Visible.mk (contents s.db.lm.log) s.db.index = _
    rw [hcontents, hindex]
    rfl
  refine ⟨⟨?_, hnext ▸ h.ids, ?_, ?_, ?_, ?_⟩, ⟨⟨_, by rw [hlog]; exact active_append_one_self, rfl⟩, ?_⟩,
    m.shell.db.lm.nextLsn, m.seen, ?_, ?_, hrep, hnext ▸ h.index⟩
  · refine h.base.still hheap hpage (Nat.le_of_eq hnext.symm) ?_
    show s.db.lm.Sound
    rw [hlm]
    exact h.base.sound.append _ _ _
  · show WalInv n s.nextPageId committed s.db.lm m.disk s.db.heap
    rw [hnext, hlm, hheap]
    exact hwal
  · show TxnTable s.db.lm.log s.db.att s.db.nextTxnId
    rw [hlog, hatt, hid]
    exact htxns
  · show Represents (contents s.db.lm.log) kv
    rw [hcontents]
    exact h.store
  · show Corresponds s.nextPageId _
    rw [hseen, hnext]
    exact h.index
  · intro t' v hv
    rw [hlog] at hv
    by_contra hne
    rw [active_append_one_ne (Ne.symm hne), hnone] at hv
    cases hv
  · show s.db.att.lookup _ = _
    rw [hatt]
    exact AList.lookup_insert _
  · rw [hseen]
    refine .begin (r := ⟨m.shell.db.lm.nextLsn, m.shell.db.nextTxnId, none, .begin⟩) ?_ rfl
    show s.db.lm.log[_]? = _
    rw [hlm]
    exact h.base.sound.getElem?_append _ _ _

/-- COMMIT, the flush and TXN_END: what the log describes is committed, and nobody is open. -/
theorem Even.commit (h : Even n committed m kv) (ht : OnlyOpen m.shell.db.lm.log t)
    (hc : m.shell.commitTxn t = some s) (stage : CommandStage) :
    Even n kv (m.goTo (s, stage)) kv ∧ (∀ t, active s.db.lm.log t = none) ∧
      s = { m.shell with db := s.db } := by
  obtain ⟨v, hv, hroll⟩ := ht.opened
  obtain ⟨hlife, hnone, hwal⟩ := h.log.commit ht hv h.store
  rw [Shell.commitTxn, Database.commit, h.txns.lookup hv] at hc
  have hs : s = { m.shell with db := { m.shell.db with
      lm := (((m.shell.db.lm.append t (some v.last) .commit).1.flush m.shell.db.lm.nextLsn).append t
        (some m.shell.db.lm.nextLsn) .txnEnd).1
      att := m.shell.db.att.erase t } } := (Option.some.inj hc).symm
  have htxns : TxnTable _ (m.shell.db.att.erase t) _ := h.txns.close hlife rfl (hnone t)
  have hlog₁ : ((m.shell.db.lm.append t (some v.last) .commit).1.flush m.shell.db.lm.nextLsn).log =
      m.shell.db.lm.log ++ [⟨m.shell.db.lm.nextLsn, t, some v.last, .commit⟩] := by
    rw [LogManager.flush_log, LogManager.append_log]
  generalize (m.shell.db.lm.append t (some v.last) .commit).1.flush m.shell.db.lm.nextLsn = lm at hwal hlog₁ hs
  rw [← hlog₁] at htxns hnone
  have hlife₂ : Lifecycle lm.log ⟨lm.nextLsn, t, some m.shell.db.lm.nextLsn, .txnEnd⟩ := by
    refine ⟨hwal.ok.next, fun w hw => ?_⟩
    rw [hnone] at hw
    cases hw
  have hwal₂ := hwal.append_quiet hlife₂ rfl rfl (by simp)
  have hlog₂ : (lm.append t (some m.shell.db.lm.nextLsn) .txnEnd).1.log = _ := LogManager.append_log _ _ _
  have hsame : ∀ t', active (lm.append t (some m.shell.db.lm.nextLsn) .txnEnd).1.log t' = active lm.log t' := by
    intro t'
    rw [hlog₂]
    by_cases htt : t = t'
    · rw [← htt, hnone]
      exact active_append_one_self
    · rw [active_append_one_ne htt]
  have hcontents : contents (lm.append t (some m.shell.db.lm.nextLsn) .txnEnd).1.log =
      contents m.shell.db.lm.log := by
    rw [hlog₂, contents_append_one, hlog₁, contents_append_one]
    rfl
  subst hs
  refine ⟨⟨h.base.still rfl rfl (Nat.le_refl _) ⟨hwal₂.ok, hwal₂.lsn⟩, h.ids, hwal₂, htxns.congr hsame,
    ?_, ?_⟩, fun t' => (hsame t').trans (hnone t'), rfl⟩
  · show Represents (contents (lm.append t (some m.shell.db.lm.nextLsn) .txnEnd).1.log) kv
    rw [hcontents]
    exact h.store
  · show Corresponds _ ⟨contents (lm.append t (some m.shell.db.lm.nextLsn) .txnEnd).1.log, _⟩
    rw [hcontents]
    exact h.index

theorem Even.congr (h : Even n committed m kv) (hdb : m'.shell.db = m.shell.db)
    (hpage : m'.shell.dataPage = m.shell.dataPage) (hnext : m.shell.nextPageId ≤ m'.shell.nextPageId)
    (hids : m'.shell.nextPageId ≤ invalidPageId) (hdisk : m'.disk = m.disk) : Even n committed m' kv where
  base := h.base.still (by rw [hdb]) hpage hnext (by rw [hdb]; exact h.base.sound)
  ids := hids
  log := by
    rw [hdb, hdisk]
    exact h.log.grow hnext
  txns := by
    rw [hdb]
    exact h.txns
  store := by
    rw [hdb]
    exact h.store
  index := by
    rw [Machine.seen, hdb]
    exact h.index.mono hnext

/-- **The end of a command.** -/
theorem Even.finish (h : Even n st.committed m kv) (hb : Busy st m kv m.seen t auto [])
    (hc : m.shell.autoCommit t auto = some s) (puts : UInt64) :
    RunInv n (st.done s.activeTxn.isSome) (m.goTo ({ s with totalPuts := puts }, .ready)) := by
  have hkv : kv = Store.apply st.current st.todo := hb.store
  rw [Shell.autoCommit] at hc
  cases auto with
  | true =>
    rw [if_pos rfl] at hc
    obtain ⟨heven, hnone, hs⟩ := h.commit hb.only hc .ready
    have htxn : s.activeTxn = none := by
      rw [hs]
      exact hb.txn
    rw [show s.activeTxn.isSome = false by rw [htxn]; rfl]
    have heven' : Even n (st.done false).committed (m.goTo ({ s with totalPuts := puts }, .ready)) kv := by
      show Even n (Store.apply st.current st.todo) _ kv
      rw [← hkv]
      exact heven.congr rfl rfl (Nat.le_refl _) heven.ids rfl
    refine heven'.runInv rfl ⟨rfl, hkv, ?_⟩
    show BetweenInv _ _ s.activeTxn
    rw [htxn]
    exact hnone
  | false =>
    rw [if_neg (by simp)] at hc
    obtain rfl := Option.some.inj hc
    have htxn : m.shell.activeTxn = some t := hb.txn
    rw [show m.shell.activeTxn.isSome = true by rw [htxn]; rfl]
    have heven' : Even n (st.done true).committed (m.goTo ({ m.shell with totalPuts := puts }, .ready)) kv :=
      h.congr rfl rfl (Nat.le_refl _) h.ids rfl
    refine heven'.runInv rfl ⟨rfl, hkv, ?_⟩
    show BetweenInv _ _ m.shell.activeTxn
    rw [htxn]
    exact ⟨hb.only, hb.back.congr rfl rfl (Nat.le_refl _)⟩

-- ---------------------------------------------------------------------------
-- The stages
-- ---------------------------------------------------------------------------

/-- One iteration of `fill` begins. -/
theorem Even.next_loop {k i inserted : Nat} (h : Even n st.committed m kv) (hki : i + (k + 1) < 2 ^ 31)
    (hb : Busy st m kv m.seen t auto (Store.fillPairs m.shell.nextFillKey (k + 1) i)) :
    RunInv n st (m.goTo ({ m.shell with nextFillKey := m.shell.nextFillKey + 1 },
      .store m.shell.nextFillKey (makeRecord m.shell.nextFillKey (numbered "val_" i))
        (.loop t auto k (i + 1) inserted))) := by
  have heven : Even n st.committed (m.goTo ({ m.shell with nextFillKey := m.shell.nextFillKey + 1 },
      .store m.shell.nextFillKey (makeRecord m.shell.nextFillKey (numbered "val_" i))
        (.loop t auto k (i + 1) inserted))) kv := h.congr rfl rfl (Nat.le_refl _) h.ids rfl
  refine heven.runInv rfl ⟨rfl, ?_, ?_, numbered "val_" i, rfl, hb.congr rfl rfl (Nat.le_refl _) rfl⟩
  · show i + 1 + k < 2 ^ 31
    omega
  · have hlen : (numbered "val_" i).length ≤ "val_".toList.length + 10 := length_numbered (by omega)
    have hmax : maxRecordLen = 4067 := rfl
    have htext : "val_".toList.length = 4 := rfl
    rw [length_makeRecord, hmax]
    omega

/-- `store_value`. -/
theorem RunInvAt.next_store (h : RunInvAt n st m heap kv) (hstage : m.stage = .store key record sequel)
    (hstore : m.shell.storeValue record = (s, rid)) (hids : m.shell.nextPageId + 1 ≤ invalidPageId) :
    RunInv n st (m.goTo (s, .stored key rid record sequel)) := by
  have hs := h.stage
  rw [hstage] at hs
  obtain ⟨rfl, hsmall, hlen, value, hrecord, hb⟩ := hs
  have hne : record ≠ [] := hrecord ▸ makeRecord_ne_nil key value
  obtain ⟨heap, hst⟩ := Shell.storeValue_on h.base hne hlen hstore
  have hslots : m.slots = contents m.shell.db.lm.log := by rw [Machine.slots, hstage]
  have hindex := h.index
  rw [hslots] at hindex
  have hlm := hst.rest.lm
  have hseen : (m.goTo (s, .stored key rid record sequel)).seen = m.seen := by
    show Visible.mk (contents s.db.lm.log) s.db.index = _
    rw [hlm, hst.index]
    rfl
  have hids' : s.nextPageId ≤ invalidPageId := by
    rcases hst.page with ⟨-, hnext⟩ | ⟨-, -, hnext⟩
    · exact hnext ▸ h.ids
    · exact hnext ▸ hids
  refine ⟨heap, kv, hst.base, hids', ?_, ?_, ?_, ?_, hst.after, hst.lt, hst.fits, hst.free, hsmall, value,
    hrecord, ?_⟩
  · show WalInv n s.nextPageId st.committed s.db.lm m.disk heap
    rw [hlm]
    exact h.log.storedOn hst
  · show TxnTable s.db.lm.log s.db.att s.db.nextTxnId
    rw [hlm, hst.rest.att, hst.rest.nextTxnId]
    exact h.txns
  · show Represents (contents s.db.lm.log) kv
    rw [hlm]
    exact h.store
  · show Corresponds s.nextPageId ⟨contents s.db.lm.log, s.db.index⟩
    rw [hlm, hst.index]
    exact hindex.mono hst.rest.grown
  · rw [hseen]
    show Busy st _ kv m.seen sequel.txn sequel.auto ((key, some value) :: sequel.left s.nextFillKey)
    rw [hst.rest.nextFillKey]
    exact hb.congr (by rw [← hlm]; rfl) hst.rest.att hst.rest.grown hst.rest.activeTxn

/-- `index_->insert` of a key that is not there. -/
theorem RunInvAt.next_stored (h : RunInvAt n st m heap kv) (hstage : m.stage = .stored key rid record sequel)
    (hkey : m.shell.db.index key.toInt = none) {grow : Nat}
    (hids : m.shell.nextPageId + grow ≤ invalidPageId) :
    RunInv n st (m.goTo (m.shell.indexInsert key rid grow, .changed rid [] record key.toInt sequel)) := by
  have hs := h.stage
  rw [hstage] at hs
  obtain ⟨hafter, hlt, hfits, hfree, hsmall, value, hrecord, hb⟩ := hs
  have hne : record ≠ [] := hrecord ▸ makeRecord_ne_nil key value
  have hindex := h.index
  rw [show m.slots = contents m.shell.db.lm.log by rw [Machine.slots, hstage]] at hindex
  have hcfree : contents m.shell.db.lm.log rid.pageId rid.slotId = none := by
    rw [← (h.log.mirror rid.pageId).read, hfree]
  have hwf : Page.Wf (heap rid.pageId) := (h.log.mirror rid.pageId).tighter.right
  have hpage : m.shell.db.heap rid.pageId = redoInsert (heap rid.pageId) rid.slotId record 0 := by
    rw [hafter, if_pos rfl]
  have hle : m.shell.nextPageId ≤ m.shell.nextPageId + grow := Nat.le_add_right _ _
  refine ⟨heap, kv, h.base.still rfl rfl hle h.base.sound, hids, h.log.grow hle, h.txns, h.store, ?_,
    fun q hq => ?_, Nat.lt_of_lt_of_le hlt hle, ?_, fun hn => absurd hn hne, ?_, ?_, hsmall, key, some value,
    m.seen, ?_, Represents.heldAt_of_free hindex hkey hcfree, ?_, hb.congr rfl rfl hle rfl⟩
  · show Corresponds _ ⟨(contents m.shell.db.lm.log).set rid.pageId rid.slotId (image record),
      m.shell.db.index.insert key.toInt rid⟩
    rw [image_of_ne hne]
    refine (hindex.add hcfree hkey ?_ hne hlt).mono hle
    rw [hrecord, recordKey_makeRecord]
  · show m.shell.db.heap q = heap q
    rw [hafter, if_neg hq]
  · rw [hfree]
    rfl
  · show Page.Redoes _ (m.shell.db.heap rid.pageId) _ _ _
    rw [hpage]
    exact .insert hfits
  · show PageOps.inited (m.shell.db.heap rid.pageId) = true
    rw [hpage]
    exact inited_redoInsert 0 hwf hfits
  · rw [image_of_ne hne, hrecord]
    rfl
  · show Visible.undo ⟨(contents m.shell.db.lm.log).set _ _ (image record), m.shell.db.index.insert key.toInt rid⟩
      _ _ [] record key.toInt = m.seen
    rw [image_of_ne hne]
    exact Visible.undo_add (v := m.seen) hcfree hkey record

/-- The record that the index has for a key. -/
structure KeyAt (m : Machine) (kv : Int64 → Option Bytes) (key : Int64) (rid : Rid) (value : Bytes) : Prop where
  slot : m.seen.slots rid.pageId rid.slotId = some (makeRecord key value)
  read : (m.shell.db.heap rid.pageId).readRecord rid.slotId = some (makeRecord key value)
  lt : rid.pageId < m.shell.nextPageId
  inited : PageOps.inited (m.shell.db.heap rid.pageId) = true
  kv : kv key = some value

theorem Even.at_key (h : Even n committed m kv) (hk : m.shell.db.index key.toInt = some rid) :
    ∃ value, KeyAt m kv key rid value := by
  have hmir := h.log.mirror rid.pageId
  obtain ⟨hnone, -⟩ | ⟨r, value, hr, hv, hslot⟩ := h.store.lookup h.index key
  · rw [hnone] at hk
    cases hk
  · obtain rfl : r = rid := Option.some.inj (hr.symm.trans hk)
    have hread : (m.shell.db.heap r.pageId).readRecord r.slotId = some (makeRecord key value) := by
      rw [hmir.read, hslot]
    refine ⟨value, hslot, hread, ?_, ?_, hv⟩
    · by_contra hge
      have hfresh := h.index.fresh r.pageId r.slotId (Nat.not_lt.mp hge)
      rw [show m.seen.slots r.pageId r.slotId = _ from hslot] at hfresh
      cases hfresh
    · exact Page.inited_of_live hmir.tighter.right ((Page.live_iff_read hmir.tighter.right).mpr ⟨_, hread⟩)

/-- No RID of the index is the invalid one. -/
theorem Even.isValid (h : Even n committed m kv) (hk : m.shell.db.index key.toInt = some rid) :
    rid.isValid = true := by
  obtain ⟨value, hat⟩ := h.at_key hk
  have hlive := (Page.live_iff_read (h.log.mirror rid.pageId).tighter.right).mpr ⟨_, hat.read⟩
  have hslot := hlive.1
  have hcount := (m.shell.db.heap rid.pageId).slotCount_lt
  have hpage := Nat.lt_of_lt_of_le hat.lt h.ids
  have hinvalid : invalidSlotId = 2 ^ 16 - 1 := rfl
  rw [Rid.isValid, Bool.and_eq_true, decide_eq_true_eq, decide_eq_true_eq]
  omega

/-- `del`: the record goes, and the key. -/
theorem RunInvAt.next_delete (h : RunInvAt n st m heap kv) (hstage : m.stage = .erase key rid none t auto)
    {x : Page} (hx : x = (deleteRecord (m.shell.db.heap rid.pageId) rid.slotId 0).1)
    (hs : s = { m.shell with db := { m.shell.db.setPage rid.pageId x with
      index := m.shell.db.index.remove key.toInt } }) :
    RunInv n st (m.goTo (s, .changed rid ((m.shell.db.read rid.pageId rid.slotId).getD []) [] key.toInt
      (.finish t auto false))) := by
  have hst := h.stage
  rw [hstage] at hst
  obtain ⟨rfl, hk, value, hvalue, -, hb⟩ := hst
  obtain rfl := Option.map_eq_none_iff.mp hvalue.symm
  have heven := h.even rfl (by rw [Machine.slots, hstage])
  obtain ⟨old, hat⟩ := heven.at_key hk
  have hne := makeRecord_ne_nil key old
  have hold : (m.shell.db.read rid.pageId rid.slotId).getD [] = makeRecord key old := by
    rw [show m.shell.db.read rid.pageId rid.slotId = _ from hat.read]
    rfl
  rw [hold]
  have hwf := (h.log.mirror rid.pageId).tighter.right
  subst hx
  have hheap : ∀ q, s.db.heap q = if q = rid.pageId then
      (deleteRecord (m.shell.db.heap rid.pageId) rid.slotId 0).1 else m.shell.db.heap q := by
    intro q
    rw [hs]
    rfl
  have hpage : s.db.heap rid.pageId = (deleteRecord (m.shell.db.heap rid.pageId) rid.slotId 0).1 := by
    rw [hheap, if_pos rfl]
  refine ⟨m.shell.db.heap, kv, ?_, ?_, ?_, ?_, ?_, ?_, fun q hq => ?_, ?_, ?_, fun _ => hne, ?_, ?_, trivial, key,
    none, m.seen, rfl, ?_, ?_, ?_⟩
  · rw [hs]
    exact (h.base.delete rid).1.congr rfl rfl rfl (Nat.le_refl _)
  · rw [hs]
    exact h.ids
  · rw [hs]
    exact h.log
  · rw [hs]
    exact h.txns
  · rw [hs]
    exact h.store
  · rw [hs]
    exact heven.index.drop hk
  · show s.db.heap q = _
    rw [hheap, if_neg hq]
  · rw [hs]
    exact hat.lt
  · rw [image_of_ne hne, hat.read]
  · show Page.Redoes _ (s.db.heap rid.pageId) _ _ _
    rw [hpage]
    exact .delete hne
  · show PageOps.inited (s.db.heap rid.pageId) = true
    rw [hpage, inited_deleteRecord _ _ hwf]
    exact hat.inited
  · rw [hs]
    exact h.store.heldAt_of_index heven.index hk
  · rw [hs]
    exact Visible.undo_drop (v := m.seen) hat.slot hne hk
  · rw [hs]
    exact hb.congr rfl rfl (Nat.le_refl _) rfl

/-- `update`: the old record goes. -/
theorem RunInvAt.next_erase (h : RunInvAt n st m heap kv)
    (hstage : m.stage = .erase key rid (some record) t auto)
    {x : Page} (hx : x = (deleteRecord (m.shell.db.heap rid.pageId) rid.slotId 0).1)
    (hs : s = { m.shell with db := m.shell.db.setPage rid.pageId x }) :
    RunInv n st (m.goTo (s, .erased key rid ((m.shell.db.read rid.pageId rid.slotId).getD []) record t auto)) := by
  have hst := h.stage
  rw [hstage] at hst
  obtain ⟨rfl, hk, value, hvalue, hlen, hb⟩ := hst
  obtain ⟨new, rfl, hrecord⟩ := Option.map_eq_some_iff.mp hvalue.symm
  have heven := h.even rfl (by rw [Machine.slots, hstage])
  obtain ⟨old, hat⟩ := heven.at_key hk
  have hold : (m.shell.db.read rid.pageId rid.slotId).getD [] = makeRecord key old := by
    rw [show m.shell.db.read rid.pageId rid.slotId = _ from hat.read]
    rfl
  rw [hold]
  subst hx hs
  refine ⟨m.shell.db.heap, kv, (h.base.delete rid).1, h.ids, h.log, h.txns, h.store, heven.index, fun q => ?_,
    hk, hat.read, hlen record rfl, new, hrecord.symm, hb.congr rfl rfl (Nat.le_refl _) rfl⟩
  show (if q = rid.pageId then _ else _) = if q = rid.pageId then _ else _
  split
  · rename_i hq
    rw [hq]
  · rfl

/-- `update`: the new record goes into the slot of the old one. -/
theorem RunInvAt.next_erased {old : Bytes} (h : RunInvAt n st m heap kv)
    (hstage : m.stage = .erased key rid old record t auto) (hback : m.shell.goesBack rid record = true)
    (hstore : m.shell.storeValue record = (s, rid)) :
    RunInv n st (m.goTo (s, .changed rid old record 0 (.finish t auto false))) := by
  have hs := h.stage
  rw [hstage] at hs
  obtain ⟨hafter, hk, hold, hlen, value, hrecord, hb⟩ := hs
  have hnew : record ≠ [] := hrecord ▸ makeRecord_ne_nil key value
  have hmir := h.log.mirror rid.pageId
  have hwf := hmir.tighter.right
  have hcold : m.seen.slots rid.pageId rid.slotId = some old := by
    rw [← hold, hmir.read]
    rfl
  have hindex : Corresponds m.shell.nextPageId m.seen := by
    have := h.index
    rwa [show m.slots = contents m.shell.db.lm.log by rw [Machine.slots, hstage]] at this
  have hheld := h.store.heldAt_of_index hindex hk
  obtain ⟨v₀, hv₀⟩ := hheld.slot old hcold
  have hne : old ≠ [] := hv₀ ▸ makeRecord_ne_nil key v₀
  -- the new record is on the page of the old one, which is no new page
  obtain ⟨heap', hst⟩ := Shell.storeValue_on h.base hnew hlen hstore
  have hpage : rid.pageId = m.shell.dataPage := by
    simp only [Shell.goesBack, Bool.and_eq_true, beq_iff_eq] at hback
    exact hback.1
  obtain ⟨rfl, hnext⟩ : heap' = m.shell.db.heap ∧ s.nextPageId = m.shell.nextPageId := by
    refine hst.page.resolve_right fun hc => ?_
    have := h.base.dataPage
    omega
  have hdeleted : m.shell.db.heap rid.pageId = (deleteRecord (heap rid.pageId) rid.slotId 0).1 := by
    rw [hafter, if_pos rfl]
  have hfits := hst.fits
  rw [hdeleted] at hfits
  have hlm := hst.rest.lm
  have hput : (m.seen.drop rid key.toInt).add rid record key.toInt =
      ⟨(contents m.shell.db.lm.log).set rid.pageId rid.slotId (image record), m.shell.db.index⟩ := by
    simp only [Visible.drop, Visible.add, Machine.seen]
    rw [Contents.set_set, IndexMap.insert_remove hk, image_of_ne hnew]
  have hdrop := hindex.drop hk
  have hlt : rid.pageId < m.shell.nextPageId := by
    rw [hpage]
    exact h.base.dataPage
  have hadd : Corresponds m.shell.nextPageId ((m.seen.drop rid key.toInt).add rid record key.toInt) := by
    refine hdrop.add (Contents.set_self _ _ _ _) (if_pos rfl) ?_ hnew hlt
    rw [hrecord, recordKey_makeRecord]
  refine ⟨heap, kv, hst.base, ?_, ?_, ?_, ?_, ?_, fun q hq => ?_, ?_, ?_, fun hn => absurd hn hnew, ?_, ?_,
    trivial, key, some value, m.seen, ?_, ?_, ?_, ?_⟩
  · show s.nextPageId ≤ invalidPageId
    rw [hnext]
    exact h.ids
  · show WalInv n s.nextPageId st.committed s.db.lm m.disk heap
    rw [hlm, hnext]
    exact h.log
  · show TxnTable s.db.lm.log s.db.att s.db.nextTxnId
    rw [hlm, hst.rest.att, hst.rest.nextTxnId]
    exact h.txns
  · show Represents (contents s.db.lm.log) kv
    rw [hlm]
    exact h.store
  · show Corresponds s.nextPageId ⟨(contents s.db.lm.log).set rid.pageId rid.slotId (image record), s.db.index⟩
    rw [hlm, hst.index, hnext, ← hput]
    exact hadd
  · show s.db.heap q = heap q
    rw [hst.after, if_neg hq, hafter, if_neg hq]
  · show rid.pageId < s.nextPageId
    rw [hnext]
    exact hlt
  · rw [image_of_ne hne, hold]
  · show Page.Redoes _ (s.db.heap rid.pageId) _ _ _
    rw [hst.after, if_pos rfl, hdeleted]
    exact .replace hne hnew hfits
  · show PageOps.inited (s.db.heap rid.pageId) = true
    rw [hst.after, if_pos rfl, hdeleted]
    exact inited_redoInsert 0 (deleteRecord_spec rid.slotId 0 hwf).1 hfits
  · rw [image_of_ne hnew, hrecord]
    rfl
  · show HeldAt (contents s.db.lm.log) key rid
    rw [hlm]
    exact hheld
  · show Visible.undo ⟨(contents s.db.lm.log).set _ _ (image record), s.db.index⟩ _ _ old record 0 = m.seen
    rw [hlm, hst.index, ← hput]
    exact Visible.undo_add_drop hcold hne hnew hk 0
  · exact hb.congr (by rw [← hlm]; rfl) hst.rest.att hst.rest.grown hst.rest.activeTxn

theorem OnlyOpen.append {log : List Record} {r : Record} (h : OnlyOpen log t) (ht : r.txnId = t)
    (hopen : ∃ v, active (log ++ [r]) t = some v ∧ v.rolling = false) : OnlyOpen (log ++ [r]) t := by
  refine ⟨hopen, fun t' v hv => ?_⟩
  by_contra hne
  rw [active_append_one_ne (by rw [ht]; exact Ne.symm hne)] at hv
  exact hne (h.only t' v hv)

/-- **`log_update`**: the change of the record in hand is in the log, and in the store. -/
theorem RunInvAt.next_changed {old new : Bytes} {key : Int} {lsn : Nat} {db : Database Page}
    (h : RunInvAt n st m heap kv) (hstage : m.stage = .changed rid old new key sequel)
    (hupd : m.shell.db.logUpdate sequel.txn rid.pageId rid.slotId old new key = some (db, lsn))
    {lm : LogManager} (hlm : lm = db.lm ∨ lm = db.lm.flush lsn) :
    RunInv n st (m.goTo ({ m.shell with db := { db with lm } }, .logged rid lsn sequel)) := by
  have hs := h.stage
  rw [hstage] at hs
  obtain ⟨hother, hlt, himage, hne, hredo, hinit, hsmall, k, value, v, hvalue, hheld, hundo, hb⟩ := hs
  have hmir := h.log.mirror rid.pageId
  obtain ⟨v₀, hv, hroll⟩ := hb.only.opened
  obtain ⟨prev, w, hl, hback, hrep, hcor⟩ := hb.back
  have hprev := h.txns.lookup hv
  obtain rfl : prev = v₀.last := Option.some.inj (hl.symm.trans hprev)
  obtain ⟨hlife, hwal⟩ := h.log.update key hb.only hv hlt (himage.trans (hmir.read rid.slotId)) hne hredo hinit
  rw [Database.logUpdate, hl] at hupd
  obtain ⟨rfl, rfl⟩ := Prod.mk.injEq .. ▸ Option.some.inj hupd
  have hwal' : WalInv n m.shell.nextPageId st.committed lm m.disk fun q => if q = rid.pageId then
      (m.shell.db.heap rid.pageId).setPageLsn m.shell.db.lm.nextLsn else heap q := by
    rcases hlm with rfl | rfl
    · exact hwal
    · exact hwal.flush _
  have hlog : lm.log = m.shell.db.lm.log ++ [⟨m.shell.db.lm.nextLsn, sequel.txn, some v₀.last,
      .update rid.pageId rid.slotId old new key⟩] := by
    rcases hlm with rfl | rfl
    · exact LogManager.append_log _ _ _
    · exact (LogManager.flush_log _).trans (LogManager.append_log _ _ _)
  have hcontents : contents lm.log = (contents m.shell.db.lm.log).set rid.pageId rid.slotId (image new) := by
    rw [hlog, contents_append_one]
    rfl
  have hopen : active (m.shell.db.lm.log ++ [⟨m.shell.db.lm.nextLsn, sequel.txn, some v₀.last,
      .update rid.pageId rid.slotId old new key⟩]) sequel.txn = some ⟨_, _, v₀.rolling⟩ :=
    active_append_update hv
  refine ⟨_, Store.set kv (k, value), h.base.still rfl rfl (Nat.le_refl _) ⟨hwal'.ok, hwal'.lsn⟩, h.ids, hwal',
    ?_, ?_, ?_, fun q => ?_, hsmall, ⟨?_, ?_, hb.txn, hb.store⟩⟩
  · show TxnTable lm.log _ _
    rw [hlog]
    exact h.txns.append hlife rfl (by rw [hv]; exact Option.some_ne_none v₀)
  · show Represents (contents lm.log) _
    rw [hcontents, hvalue]
    exact h.store.set hheld value
  · show Corresponds _ ⟨contents lm.log, m.shell.db.index⟩
    rw [hcontents]
    have := h.index
    rwa [Machine.slots, hstage] at this
  · show (if q = rid.pageId then (m.shell.db.heap rid.pageId).setPageLsn _ else heap q) =
      if q = rid.pageId then setPageLsn (m.shell.db.heap q) _ else m.shell.db.heap q
    split
    · rename_i hq
      rw [hq]
      rfl
    · rename_i hq
      exact (hother q hq).symm
  · show OnlyOpen lm.log _
    rw [hlog]
    exact hb.only.append rfl ⟨_, hopen, hroll⟩
  · refine ⟨m.shell.db.lm.nextLsn, w, AList.lookup_insert _, ?_, hrep, hcor⟩
    show Rollback lm.log _ ⟨contents lm.log, m.shell.db.index⟩ w
    rw [hcontents, hlog]
    have hget := h.base.sound.getElem?_append sequel.txn (some v₀.last)
      (.update rid.pageId rid.slotId old new key)
    rw [LogManager.append_log] at hget
    refine .update hget rfl rfl ?_ ?_
    · rw [h.log.ok.next]
      exact hback.lt_length
    · rw [hundo]
      exact hback.mono (List.prefix_append _ _)

/-- The stamp: pages and index are even with the log. -/
theorem RunInvAt.stamp {lsn : Nat} (h : RunInvAt n st m heap kv) (hstage : m.stage = .logged rid lsn sequel)
    (stage : CommandStage) :
    Even n st.committed (m.goTo ({ m.shell with db := m.shell.db.stampPage rid.pageId lsn }, stage)) kv := by
  have hs := h.stage
  rw [hstage] at hs
  obtain ⟨hheap, -, -⟩ := hs
  have hstamp : heap = (m.shell.db.stampPage rid.pageId lsn).heap := by
    funext q
    rw [hheap]
    show _ = if q = rid.pageId then _ else _
    split
    · rename_i hq
      rw [hq]
    · rfl
  subst hstamp
  have hindex := h.index
  rw [Machine.slots, hstage] at hindex
  exact ⟨h.base.stampPage _ _, h.ids, h.log, h.txns, h.store, hindex⟩

/-- Behind the stamp the command ends, or `fill` goes on. -/
theorem RunInvAt.next_logged {lsn : Nat} {x : Shell Page × CommandStage} (h : RunInvAt n st m heap kv)
    (hstage : m.stage = .logged rid lsn sequel)
    (hx : Shell.goOn { m.shell with db := m.shell.db.stampPage rid.pageId lsn } sequel = some x) :
    RunInv n (if x.2 = .ready then st.done x.1.activeTxn.isSome else st) (m.goTo x) := by
  have hs := h.stage
  rw [hstage] at hs
  obtain ⟨-, hsmall, hb⟩ := hs
  cases sequel with
  | finish t auto counted =>
    rw [Shell.goOn, Option.map_eq_some_iff] at hx
    obtain ⟨s, hc, rfl⟩ := hx
    rw [if_pos rfl]
    have heven := h.stamp hstage .ready
    have hfinish := heven.finish (hb.congr rfl rfl (Nat.le_refl _) rfl) hc
    cases counted with
    | true => exact hfinish (s.totalPuts + 1)
    | false => exact hfinish s.totalPuts
  | loop t auto k i inserted =>
    obtain rfl := Option.some.inj hx
    rw [if_neg (by simp)]
    exact (h.stamp hstage _).runInv rfl ⟨rfl, hsmall, hb.congr rfl rfl (Nat.le_refl _) rfl⟩

/-- **Every stage of every command** keeps the invariant, and with the last one the whole of the
command is in the store. -/
theorem RunInv.advance {grow : Nat} {x : Shell Page × CommandStage} (h : RunInv n st m)
    (hok : Session.keepsStep m (.next grow) = true) (hx : m.shell.advance grow m.stage = some x) :
    RunInv n (if x.2 = .ready then st.done x.1.activeTxn.isSome else st) (m.goTo x) := by
  obtain ⟨heap, kv, h⟩ := h
  rw [Session.keepsStep, Bool.and_eq_true, decide_eq_true_iff] at hok
  obtain ⟨hids, hkey⟩ := hok
  cases hstage : m.stage with
  | ready =>
    rw [hstage] at hx
    cases hx
  | loop t auto k i inserted =>
    have hs := h.stage
    rw [hstage] at hs hx
    obtain ⟨rfl, hki, hb⟩ := hs
    have heven := h.even rfl (by rw [Machine.slots, hstage])
    cases k with
    | zero =>
      rw [Shell.advance, Option.map_eq_some_iff] at hx
      obtain ⟨s, hc, rfl⟩ := hx
      rw [if_pos rfl]
      exact heven.finish hb hc _
    | succ k =>
      obtain rfl := Option.some.inj hx
      rw [if_neg (by simp)]
      exact heven.next_loop hki hb
  | store key record sequel =>
    rw [hstage] at hx
    obtain rfl := Option.some.inj hx
    rw [if_neg (by simp)]
    exact h.next_store hstage rfl (by omega)
  | stored key rid record sequel =>
    rw [hstage] at hx hkey
    rw [Option.isNone_iff_eq_none] at hkey
    rw [Shell.advance, Shell.search_of_none hkey, if_neg (by simp)] at hx
    obtain rfl := Option.some.inj hx
    rw [if_neg (by simp)]
    exact h.next_stored hstage hkey (by omega)
  | erase key rid record t auto =>
    rw [hstage] at hx
    cases record with
    | none =>
      obtain rfl := Option.some.inj hx
      rw [if_neg (by simp)]
      exact h.next_delete hstage rfl rfl
    | some record =>
      obtain rfl := Option.some.inj hx
      rw [if_neg (by simp)]
      exact h.next_erase hstage rfl rfl
  | erased key rid old record t auto =>
    rw [hstage] at hx hkey
    obtain ⟨⟨s, newRid⟩, hstore⟩ : ∃ y, m.shell.storeValue record = y := ⟨_, rfl⟩
    obtain ⟨rfl, -⟩ := Shell.storeValue_of_goesBack h.base hkey hstore
    simp only [Shell.advance, hstore, if_true] at hx
    obtain rfl := Option.some.inj hx
    rw [if_neg (by simp)]
    exact h.next_erased hstage hkey hstore
  | changed rid old new key sequel =>
    rw [hstage, Shell.advance, Option.map_eq_some_iff] at hx
    obtain ⟨⟨db, lsn⟩, hupd, rfl⟩ := hx
    rw [if_neg (by simp)]
    refine h.next_changed hstage hupd ?_
    split
    · exact .inr rfl
    · exact .inl rfl
  | logged rid lsn sequel =>
    rw [hstage] at hx
    exact h.next_logged hstage hx

-- ---------------------------------------------------------------------------
-- A command begins
-- ---------------------------------------------------------------------------

/-- Between two commands. -/
theorem RunInv.ready (h : RunInv n st m) (hstage : m.stage = .ready) :
    Even n st.committed m st.current ∧ BetweenInv st m m.shell.activeTxn := by
  obtain ⟨heap, kv, h⟩ := h
  have hs := h.stage
  rw [hstage] at hs
  obtain ⟨rfl, rfl, hb⟩ := hs
  exact ⟨h.even rfl (by rw [Machine.slots, hstage]), hb⟩

/-- Nobody is open: what the log describes is committed. -/
theorem Even.committed_of_none (h : Even n committed m kv)
    (hnone : ∀ t, active m.shell.db.lm.log t = none) :
    Represents (contents m.shell.db.lm.log) committed := by
  rw [contents_eq_committed h.log.hist.logLegit hnone]
  exact h.log.committed

/-- **BEGIN of a command's own transaction**, or the open one. -/
theorem RunInv.autoBegin (h : RunInv n st m) (hstage : m.stage = .ready)
    (hbegin : m.shell.autoBegin = (s, t, auto)) (stage : CommandStage) (todo : List (Int64 × Option Bytes)) :
    Even n st.committed (m.goTo (s, stage)) st.current ∧
      Busy { st with todo } (m.goTo (s, stage)) st.current (m.goTo (s, stage)).seen t auto todo ∧
      s.nextFillKey = m.shell.nextFillKey ∧ s.db.index = m.shell.db.index := by
  obtain ⟨heven, hbetween⟩ := h.ready hstage
  rw [Shell.autoBegin] at hbegin
  split at hbegin
  · rename_i t' htxn
    rw [htxn] at hbetween
    simp only [Prod.mk.injEq] at hbegin
    obtain ⟨rfl, rfl, rfl⟩ := hbegin
    have he : Even n st.committed (m.goTo (m.shell, stage)) st.current :=
      heven.congr rfl rfl (Nat.le_refl _) heven.ids rfl
    exact ⟨he, ⟨hbetween.1, hbetween.2.congr rfl rfl (Nat.le_refl _), htxn, rfl⟩, rfl, rfl⟩
  · rename_i htxn
    rw [htxn] at hbetween
    simp only [Prod.mk.injEq] at hbegin
    obtain ⟨rfl, rfl, rfl⟩ := hbegin
    obtain ⟨he, honly, hback⟩ := heven.begin (heven.committed_of_none hbetween) hbetween
      (s := { m.shell with db := m.shell.db.begin }) rfl rfl rfl stage
    exact ⟨he, ⟨honly, hback, htxn, rfl⟩, rfl, rfl⟩

/-- `put`, of a record that fits an empty page. -/
theorem RunInv.start_put {value : Bytes} (h : RunInv n st m)
    (hlen : 8 + value.length ≤ maxRecordLen)
    (hx : m.start (fun t auto => .store key (makeRecord key value) (.finish t auto true)) = some m') :
    RunInv n { st with todo := [(key, some value)] } m' := by
  rw [Machine.start] at hx
  split at hx
  · rename_i hstage
    obtain ⟨⟨s, t, auto⟩, hbegin⟩ : ∃ y, m.shell.autoBegin = y := ⟨_, rfl⟩
    simp only [hbegin, Option.some.injEq] at hx
    subst hx
    obtain ⟨he, hb, -⟩ := h.autoBegin hstage hbegin (.store key (makeRecord key value) (.finish t auto true))
      [(key, some value)]
    refine Even.runInv he rfl ⟨rfl, trivial, ?_, value, rfl, hb⟩
    rw [length_makeRecord]
    exact hlen
  · cases hx

/-- `fill`. -/
theorem RunInv.start_fill {k : Int32} (h : RunInv n st m)
    (hx : m.start (fun t auto => .loop t auto k.toInt.toNat 0 0) = some m') :
    RunInv n { st with todo := Store.fillPairs m.shell.nextFillKey k.toInt.toNat 0 } m' := by
  rw [Machine.start] at hx
  split at hx
  · rename_i hstage
    obtain ⟨⟨s, t, auto⟩, hbegin⟩ : ∃ y, m.shell.autoBegin = y := ⟨_, rfl⟩
    simp only [hbegin, Option.some.injEq] at hx
    subst hx
    obtain ⟨he, hb, hkey, -⟩ := h.autoBegin hstage hbegin (.loop t auto k.toInt.toNat 0 0)
      (Store.fillPairs m.shell.nextFillKey k.toInt.toNat 0)
    refine Even.runInv he rfl ⟨rfl, ?_, ?_⟩
    · have := k.toInt_lt
      omega
    · show Busy _ _ _ _ t auto (Store.fillPairs s.nextFillKey k.toInt.toNat 0)
      rw [hkey]
      exact hb
  · cases hx

/-- `update` and `del` of a key look it up first; without it nothing begins. -/
theorem RunInv.start_at (value : Option Bytes) (h : RunInv n st m)
    (hlen : ∀ v, value = some v → 8 + v.length ≤ maxRecordLen)
    (hx : m.startAt key (value.map (makeRecord key)) = some m') :
    (st.current key = none ∧ m' = m ∧ m.stage = .ready) ∨
      ((st.current key).isSome = true ∧ RunInv n { st with todo := [(key, value)] } m') := by
  rw [Machine.startAt] at hx
  cases hsearch : m.shell.search key with
  | none =>
    simp only [hsearch] at hx
    split at hx
    · rename_i hstage
      obtain ⟨heven, -⟩ := h.ready hstage
      obtain rfl := Option.some.inj hx
      refine .inl ⟨?_, rfl, hstage⟩
      obtain ⟨-, hnone⟩ | ⟨r, v, hr, -, -⟩ := heven.store.lookup heven.index key
      · exact hnone
      · obtain ⟨v', hat⟩ := heven.at_key hr
        rw [Shell.search, show m.shell.db.index key.toInt = some r from hr, Option.filter_eq_none_iff] at hsearch
        exact absurd (heven.isValid hr) (hsearch r rfl)
    · cases hx
  | some rid =>
    simp only [hsearch] at hx
    rw [Machine.start] at hx
    split at hx
    · rename_i hstage
      obtain ⟨heven, -⟩ := h.ready hstage
      obtain ⟨⟨s, t, auto⟩, hbegin⟩ : ∃ y, m.shell.autoBegin = y := ⟨_, rfl⟩
      simp only [hbegin, Option.some.injEq] at hx
      subst hx
      obtain ⟨he, hb, -, hindex⟩ := h.autoBegin hstage hbegin
        (.erase key rid (value.map (makeRecord key)) t auto) [(key, value)]
      rw [Shell.search, Option.filter_eq_some_iff] at hsearch
      obtain ⟨v, hat⟩ := heven.at_key hsearch.1
      refine .inr ⟨by rw [hat.kv]; rfl, Even.runInv he rfl ⟨rfl, ?_, value, rfl, ?_, hb⟩⟩
      · show s.db.index key.toInt = _
        rw [hindex]
        exact hsearch.1
      · intro d hd
        obtain ⟨v', hv', rfl⟩ := Option.map_eq_some_iff.mp hd
        rw [length_makeRecord]
        exact hlen v' hv'
    · cases hx

end PersistX
