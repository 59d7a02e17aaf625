import PersistX.Shell.OneToOne

/-!
# PersistX — put and update with values of any length

`store_value` hands the length of a record to `insert_record` as a `uint16_t` and
returns a RID whatever the answer is. What becomes of a record depends on its
length alone: up to 4067 bytes it is stored; above that it goes to no slot, or only
its first `length mod 2^16` bytes are stored (`storeValue_any`). The callers trust
the RID in each case.

`Pointed` is the invariant of the states that are reached without `abort`: a RID in
the index has the invalid slot or a live record, and no two keys share a record. It
does not ask that each record has a key, so commands that leave strays keep it.

Main result: `all_or_nothing_iff` — `put` of a key that the index does not have, and
`update` of one that it has, are all or nothing exactly for values that fit a page.
-/

namespace PersistX

open PageOps LawfulPageOps DataPageOps Transition

-- ---------------------------------------------------------------------------
-- Records of any length on a page
-- ---------------------------------------------------------------------------

/-- The bytes of a record that `insert_record` gets to see. -/
def keptBytes (record : Bytes) : Bytes := record.take (record.length % 2 ^ 16)

theorem length_keptBytes (record : Bytes) :
    (keptBytes record).length = record.length % 2 ^ 16 := by
  rw [keptBytes, List.length_take]
  exact Nat.min_eq_left (Nat.mod_le _ _)

theorem keptBytes_of_le {record : Bytes} (h : record.length ≤ maxRecordLen) :
    keptBytes record = record := by
  have hmax : maxRecordLen = 4067 := rfl
  rw [keptBytes, Nat.mod_eq_of_lt (by omega)]
  exact List.take_length

theorem Page.insertRecord_keptBytes (x : Page) (record : Bytes) (lsn : Nat) :
    x.insertRecord (keptBytes record) lsn = x.insertRecord record lsn := by
  have hsize : (keptBytes record).length % 2 ^ 16 = record.length % 2 ^ 16 := by
    rw [length_keptBytes, Nat.mod_mod]
  have hwrite : x.writeData (keptBytes record) (record.length % 2 ^ 16)
      = x.writeData record (record.length % 2 ^ 16) := by
    simp only [Page.writeData, keptBytes, List.take_take, Nat.min_self]
  unfold Page.insertRecord
  simp only [hsize, hwrite]

theorem Page.insertRecord_any_bytes {x y : Page} {record : Bytes} {lsn slot : Nat} (hw : Page.Wf x)
    (hi : headerSize ≤ x.freeSpacePtr) (h : x.insertRecord record lsn = some (y, slot)) :
    x.readRecord slot = none ∧ Page.Wf y ∧ headerSize ≤ y.freeSpacePtr ∧ slot < maxSlotsPerPage ∧
      record.length % 2 ^ 16 ≤ maxRecordLen ∧
      ∀ u, y.readRecord u = if u = slot then some (keptBytes record) else x.readRecord u := by
  have hlen : (keptBytes record).length < 2 ^ 16 := by
    rw [length_keptBytes]
    exact Nat.mod_lt _ (by decide)
  rw [← x.insertRecord_keptBytes record lsn] at h
  obtain ⟨hf, hlive, rfl⟩ := insertRecord_eq hw hi hlen h
  have hk := Kept.redoInsert hw (fun _ => rfl) hf lsn
  have hroom := (fits_iff.mp hf).2
  have hF := x.headerSize_le_frontier
  rw [length_keptBytes] at hroom
  have hmax : maxRecordLen = 4067 := rfl
  simp only [pageSize, slotBytes, headerSize] at hroom hF
  refine ⟨readRecord_of_not_live hlive, hk.wf, hk.inited, ?_, by omega, fun u => ?_⟩
  · simp only [maxSlotsPerPage, pageSize, slotBytes, headerSize]
    omega
  · rw [hk.read u, Function.update_apply]

/-- Pages whose `insert_record` takes a `uint16_t` size: what it does when it goes through. -/
class SizedPageOps (P : Type) extends DataPageOps P where
  insertRecord_any : ∀ {x y : P} {record : Bytes} {slot : Nat}, Wf x → inited x = true →
    insertRecord x record 0 = some (y, slot) →
    readRecord x slot = none ∧ Wf y ∧ inited y = true ∧ slot ≠ invalidSlotId ∧
      record.length % 2 ^ 16 ≤ maxRecordLen ∧
      ∀ u, readRecord y u = if u = slot then some (keptBytes record) else readRecord x u

theorem Page.insertRecord_sized {x y : Page} {record : Bytes} {slot : Nat} (hw : Page.Wf x)
    (hi : PageOps.inited x = true) (h : x.insertRecord record 0 = some (y, slot)) :
    x.readRecord slot = none ∧ Page.Wf y ∧ PageOps.inited y = true ∧ slot ≠ invalidSlotId ∧
      record.length % 2 ^ 16 ≤ maxRecordLen ∧
      ∀ u, y.readRecord u = if u = slot then some (keptBytes record) else x.readRecord u := by
  obtain ⟨hfree, hwf, hinit, hlt, hlen, hread⟩ :=
    Page.insertRecord_any_bytes hw (of_decide_eq_true hi) h
  refine ⟨hfree, hwf, decide_eq_true hinit, ?_, hlen, hread⟩
  rintro rfl
  exact absurd hlt (by decide)

instance : SizedPageOps Page where
  insertRecord_any := Page.insertRecord_sized

namespace Shell

variable {P : Type} [SizedPageOps P] {s : Shell P}

open SizedPageOps

/-- `store_value`, whatever the length of the record. -/
structure Placed (s s' : Shell P) (record : Bytes) (rid : Rid) : Prop where
  rest : Rest s s'
  index : s'.db.index = s.db.index
  base : Base s'
  page : rid.pageId ≤ s.nextPageId
  outcome : (rid.slotId = invalidSlotId ∧ s'.db.read = s.db.read ∧ maxRecordLen < record.length) ∨
    (rid.slotId ≠ invalidSlotId ∧ record.length % 2 ^ 16 ≤ maxRecordLen ∧
      s.db.read rid.pageId rid.slotId = none ∧
      s'.db.read = Contents.set s.db.read rid.pageId rid.slotId (some (keptBytes record)))

/-- A new page at the next id, with what it holds. -/
theorem Base.newPage (h : Base s) {x : P} {c : Contents} (hw : Wf x) (hi : PageOps.inited x = true)
    (hr : (s.db.setPage s.nextPageId x).read = c) (hc : ∀ p u, s.nextPageId < p → c p u = none) :
    Base { s with
      db := s.db.setPage s.nextPageId x
      dataPage := s.nextPageId
      nextPageId := s.nextPageId + 1 } := by
  refine ⟨h.sound, Database.wf_setPage h.wf hw, ?_, fun p u hp => ?_, Nat.lt_succ_self _⟩
  · show PageOps.inited (if s.nextPageId = s.nextPageId then x else _) = true
    rw [if_pos rfl, hi]
  · show (s.db.setPage s.nextPageId x).read p u = none
    rw [hr]
    exact hc p u hp

theorem storeValue_any (h : Base s) (record : Bytes) :
    ∃ s' rid, s.storeValue record = (s', rid) ∧ Placed s s' record rid := by
  rw [storeValue]
  split
  · rename_i x slot hins
    obtain ⟨hfree, hwf, hinit, hslot, hlen, hread⟩ := insertRecord_any (h.wf _) h.inited hins
    have hr : (s.db.setPage s.dataPage x).read =
        Contents.set s.db.read s.dataPage slot (some (keptBytes record)) :=
      Database.read_setPage hread
    refine ⟨_, _, rfl, ⟨rfl, rfl, rfl, rfl, rfl, rfl, Nat.le_refl _⟩, rfl,
      ⟨h.sound, Database.wf_setPage h.wf hwf, ?_, ?_, h.dataPage⟩, Nat.le_of_lt h.dataPage,
      .inr ⟨hslot, hlen, hfree, hr⟩⟩
    · show PageOps.inited (if s.dataPage = s.dataPage then x else _) = true
      rw [if_pos rfl, hinit]
    · intro p u hp
      have hne : p ≠ s.dataPage := by
        have := h.dataPage
        have hp' : s.nextPageId ≤ p := hp
        omega
      show (s.db.setPage s.dataPage x).read p u = none
      rw [hr, Contents.set, if_neg (fun hc => hne hc.1), h.fresh p u hp]
  · have hfree : ∀ u, s.db.read s.nextPageId u = none := fun u => h.fresh _ u (Nat.le_refl _)
    cases hins : insertRecord (init s.nextPageId : P) record 0 with
    | some r =>
      -- the record goes to the fresh page
      obtain ⟨x, slot⟩ := r
      obtain ⟨-, hwf, hinit, hslot, hlen, hread⟩ :=
        insertRecord_any (wf_init s.nextPageId) (inited_init s.nextPageId) hins
      simp only [hins, Option.getD_some]
      have hr : (s.db.setPage s.nextPageId x).read =
          Contents.set s.db.read s.nextPageId slot (some (keptBytes record)) := by
        refine Database.read_setPage fun u => ?_
        rw [hread, read_init]
        exact congrArg _ (hfree u).symm
      refine ⟨_, _, rfl, ⟨rfl, rfl, rfl, rfl, rfl, rfl, Nat.le_succ _⟩, rfl,
        h.newPage hwf hinit hr fun p u hp => ?_, Nat.le_refl _, .inr ⟨hslot, hlen, hfree slot, hr⟩⟩
      rw [Contents.set, if_neg (fun hc => Nat.ne_of_gt hp hc.1), h.fresh p u (Nat.le_of_lt hp)]
    | none =>
      -- and above a page's length to no page
      simp only [hins, Option.getD_none]
      have hlen : maxRecordLen < record.length := by
        by_contra hle
        obtain ⟨x, slot, hok⟩ := insertRecord_init (P := P) s.nextPageId (Nat.le_of_not_lt hle)
        rw [hins] at hok
        cases hok
      have hr : (s.db.setPage s.nextPageId (init s.nextPageId)).read = s.db.read := by
        funext p u
        show readRecord (if p = s.nextPageId then init s.nextPageId else s.db.heap p) u = _
        split
        · rename_i hp
          rw [hp, read_init, hfree]
        · rfl
      exact ⟨_, _, rfl, ⟨rfl, rfl, rfl, rfl, rfl, rfl, Nat.le_succ _⟩, rfl,
        h.newPage (wf_init _) (inited_init _) hr fun p u hp => h.fresh p u (Nat.le_of_lt hp),
        Nat.le_refl _, .inl ⟨rfl, hr, hlen⟩⟩

end Shell

-- ---------------------------------------------------------------------------
-- Keys and the records they lead to
-- ---------------------------------------------------------------------------

/-- What `get` prints, from slots and index. -/
def Visible.get (v : Visible) (key : Int) : Answer :=
  match (v.index key).filter Rid.isValid with
  | none => .notFound
  | some rid =>
    match v.slots rid.pageId rid.slotId with
    | none => .error
    | some data => .value (recordValue data)

/-- A RID in the index has the invalid slot or a live record, and no two keys share a record. -/
structure Pointed (v : Visible) : Prop where
  live : ∀ k rid, v.index k = some rid →
    rid.slotId = invalidSlotId ∨ v.slots rid.pageId rid.slotId ≠ none
  unshared : ∀ k k' rid, v.index k = some rid → v.index k' = some rid →
    rid.slotId ≠ invalidSlotId → k = k'

/-- Key `k` leads to the same record, if to any. -/
structure SameFor (v v' : Visible) (k : Int) : Prop where
  index : v'.index k = v.index k
  slots : ∀ r, v.index k = some r → r.slotId ≠ invalidSlotId →
    v'.slots r.pageId r.slotId = v.slots r.pageId r.slotId

variable {v v' v'' : Visible} {k : Int} {rid : Rid}

theorem SameFor.refl (v : Visible) (k : Int) : SameFor v v k := ⟨rfl, fun _ _ _ => rfl⟩

theorem SameFor.trans (h : SameFor v v' k) (h' : SameFor v' v'' k) : SameFor v v'' k where
  index := h'.index.trans h.index
  slots r hr hslot := (h'.slots r (h.index.trans hr) hslot).trans (h.slots r hr hslot)

theorem SameFor.get (h : SameFor v v' k) : v'.get k = v.get k := by
  unfold Visible.get
  rw [h.index]
  cases hk : v.index k with
  | none => rfl
  | some r =>
    cases hv : r.isValid with
    | false =>
      simp only [Option.filter_some, hv]
      rfl
    | true =>
      have hslot : r.slotId ≠ invalidSlotId := by
        simp only [Rid.isValid, Bool.and_eq_true, decide_eq_true_eq] at hv
        exact hv.2
      simp only [Option.filter_some, hv, if_true, h.slots r hk hslot]

/-- A free slot is no key's. -/
theorem Pointed.free (h : Pointed v) (hslot : rid.slotId ≠ invalidSlotId)
    (hfree : v.slots rid.pageId rid.slotId = none) (k : Int) : v.index k ≠ some rid := by
  intro hk
  rcases h.live k rid hk with hinv | hlive
  · exact hslot hinv
  · exact hlive hfree

/-- A record in a free slot, without a key. -/
theorem Pointed.store (h : Pointed v) (hslot : rid.slotId ≠ invalidSlotId)
    (hfree : v.slots rid.pageId rid.slotId = none) (data : Bytes) :
    Pointed ⟨v.slots.set rid.pageId rid.slotId (some data), v.index⟩ ∧
      ∀ k, SameFor v ⟨v.slots.set rid.pageId rid.slotId (some data), v.index⟩ k := by
  refine ⟨⟨fun k r hk => ?_, h.unshared⟩, fun k => ⟨rfl, fun r hr _ => ?_⟩⟩
  · refine (h.live k r hk).imp_right fun hlive => ?_
    show Contents.set _ _ _ _ _ _ ≠ none
    rw [Contents.set]
    split
    · exact Option.some_ne_none data
    · exact hlive
  · show Contents.set _ _ _ _ _ _ = _
    rw [Contents.set, if_neg]
    rintro ⟨hp, hu⟩
    refine h.free hslot hfree k ?_
    rw [hr]
    exact congrArg some (congrArg₂ Rid.mk hp hu)

/-- A key for a record that has none, or for no record. -/
theorem Pointed.add (h : Pointed v)
    (hrid : rid.slotId = invalidSlotId ∨
      v.slots rid.pageId rid.slotId ≠ none ∧ ∀ k', v.index k' ≠ some rid) (k : Int) :
    Pointed ⟨v.slots, v.index.insert k rid⟩ ∧
      ∀ k', k' ≠ k ∨ (v.index k').any Rid.isValid = true → SameFor v ⟨v.slots, v.index.insert k rid⟩ k' := by
  by_cases hk : (v.index k).any Rid.isValid = true
  · have heq : v.index.insert k rid = v.index := if_pos hk
    rw [heq]
    exact ⟨h, fun k' _ => .refl v k'⟩
  · have heq : ∀ k', v.index.insert k rid k' = if k' = k then some rid else v.index k' := by
      intro k'
      rw [IndexMap.insert, if_neg hk]
    refine ⟨⟨fun k' r hr => ?_, fun k₁ k₂ r h₁ h₂ hslot => ?_⟩, fun k' hk' => ⟨?_, fun _ _ _ => rfl⟩⟩
    · simp only [heq] at hr
      split at hr
      · obtain rfl := Option.some.inj hr
        exact hrid.imp_right And.left
      · exact h.live k' r hr
    · simp only [heq] at h₁ h₂
      split at h₁ <;> split at h₂
      · rename_i e₁ e₂
        rw [e₁, e₂]
      · obtain rfl := Option.some.inj h₁
        exact absurd h₂ ((hrid.resolve_left hslot).2 k₂)
      · obtain rfl := Option.some.inj h₂
        exact absurd h₁ ((hrid.resolve_left hslot).2 k₁)
      · exact h.unshared k₁ k₂ r h₁ h₂ hslot
    · show v.index.insert k rid k' = v.index k'
      rw [heq, if_neg]
      rintro rfl
      rcases hk' with hne | hvalid
      · exact hne rfl
      · exact hk hvalid

/-- A key goes, with its record. -/
theorem Pointed.drop (h : Pointed v) (hk : v.index k = some rid) (hslot : rid.slotId ≠ invalidSlotId) :
    Pointed ⟨v.slots.set rid.pageId rid.slotId none, v.index.remove k⟩ ∧
      ∀ k', k' ≠ k → SameFor v ⟨v.slots.set rid.pageId rid.slotId none, v.index.remove k⟩ k' := by
  have heq : ∀ k', v.index.remove k k' = if k' = k then none else v.index k' := fun _ => rfl
  have hother : ∀ k' r, k' ≠ k → v.index k' = some r → r.slotId ≠ invalidSlotId →
      v.slots.set rid.pageId rid.slotId none r.pageId r.slotId = v.slots r.pageId r.slotId := by
    intro k' r hne hr hrslot
    rw [Contents.set, if_neg]
    rintro ⟨hp, hu⟩
    have hrid : r = rid := congrArg₂ Rid.mk hp hu
    rw [hrid] at hr
    exact hne (h.unshared k' k rid hr hk hslot)
  refine ⟨⟨fun k' r hr => ?_, fun k₁ k₂ r h₁ h₂ hrslot => ?_⟩, fun k' hne => ⟨?_, fun r hr hrslot => ?_⟩⟩
  · simp only [heq] at hr
    split at hr
    · cases hr
    · rename_i hne
      by_cases hinv : r.slotId = invalidSlotId
      · exact .inl hinv
      · refine .inr ?_
        show Contents.set _ _ _ _ _ _ ≠ none
        rw [hother k' r hne hr hinv]
        exact (h.live k' r hr).resolve_left hinv
  · simp only [heq] at h₁ h₂
    split at h₁
    · cases h₁
    · split at h₂
      · cases h₂
      · exact h.unshared k₁ k₂ r h₁ h₂ hrslot
  · show v.index.remove k k' = v.index k'
    rw [heq, if_neg hne]
  · exact hother k' r hne hr hrslot

namespace Shell

variable {P : Type} [SizedPageOps P] {s s' : Shell P} {record : Bytes}

theorem get_eq (s : Shell P) (key : Int64) : s.get key = s.db.visible.get key.toInt := rfl

/-- What a RID from `store_value` leads to. -/
def Holds (v : Visible) (rid : Rid) (record : Bytes) : Prop :=
  rid.slotId = invalidSlotId ∧ maxRecordLen < record.length ∨
    rid.slotId ≠ invalidSlotId ∧ record.length % 2 ^ 16 ≤ maxRecordLen ∧
      v.slots rid.pageId rid.slotId = some (keptBytes record)

/-- A stored record has no key yet, and no key is touched. The index may be any that leads
nowhere else than that of `s`. -/
theorem Placed.pointed {s₁ s₂ : Shell P} (h : Placed s₁ s₂ record rid) {index : IndexMap}
    (hp : Pointed ⟨s₁.db.read, index⟩) :
    Pointed ⟨s₂.db.read, index⟩ ∧ (∀ k, SameFor ⟨s₁.db.read, index⟩ ⟨s₂.db.read, index⟩ k) ∧
      Holds ⟨s₂.db.read, index⟩ rid record ∧
      (rid.slotId = invalidSlotId ∨
        s₂.db.read rid.pageId rid.slotId ≠ none ∧ ∀ k, index k ≠ some rid) := by
  rcases h.outcome with ⟨hinv, hread, hlen⟩ | ⟨hslot, hlen, hfree, hread⟩
  · rw [hread]
    exact ⟨hp, fun k => .refl _ k, .inl ⟨hinv, hlen⟩, .inl hinv⟩
  · obtain ⟨hp', hsame⟩ := hp.store hslot hfree (keptBytes record)
    have hself : s₂.db.read rid.pageId rid.slotId = some (keptBytes record) := by
      rw [hread, Contents.set_self]
    rw [hread] at hself ⊢
    refine ⟨hp', hsame, .inr ⟨hslot, hlen, hself⟩, .inr ⟨?_, hp.free hslot hfree⟩⟩
    rw [hself]
    exact Option.some_ne_none _

-- ---------------------------------------------------------------------------
-- The invariant
-- ---------------------------------------------------------------------------

/-- What holds in the states that are reached without `abort`. -/
structure Ready (s : Shell P) : Prop where
  base : Base s
  pointed : Pointed s.db.visible
  opened : ∀ t, s.activeTxn = some t → t < s.db.nextTxnId ∧ ∃ prev, s.db.att.lookup t = some prev

/-- The same while transaction `t` is at work. -/
structure Busy (s : Shell P) (t : Nat) : Prop extends Ready s where
  mine : ∃ prev, s.db.att.lookup t = some prev

theorem Ready.initStorage : Ready (initStorage : Shell P) where
  base := .initStorage
  pointed := ⟨fun _ _ hk => absurd hk (Option.some_ne_none _).symm,
    fun _ _ _ hk => absurd hk (Option.some_ne_none _).symm⟩
  opened t ht := absurd ht (Option.some_ne_none t).symm

/-- The counters are not part of what the invariant speaks about. -/
theorem Ready.counters (h : Ready s) (totalPuts : UInt64) (nextFillKey : Int64) :
    Ready { s with totalPuts, nextFillKey } :=
  ⟨h.base.congr rfl rfl rfl (Nat.le_refl _), h.pointed, h.opened⟩

theorem Busy.counters {t : Nat} (h : Busy s t) (totalPuts : UInt64) (nextFillKey : Int64) :
    Busy { s with totalPuts, nextFillKey } t :=
  ⟨h.toReady.counters totalPuts nextFillKey, h.mine⟩

/-- A change of heap and index. -/
theorem Busy.change {t : Nat} (h : Busy s t) (hrest : Rest s s') (hbase : Base s')
    (hp : Pointed s'.db.visible) : Busy s' t := by
  refine ⟨⟨hbase, hp, fun u hu => ?_⟩, ?_⟩
  · rw [hrest.nextTxnId, hrest.att]
    exact h.opened u (hrest.activeTxn ▸ hu)
  · rw [hrest.att]
    exact h.mine

/-- `log_update`, the flush and the stamp. -/
theorem Busy.logWrite {t : Nat} (h : Busy s t) (rid : Rid) (old new : Bytes) (key : Int)
    (flush : Bool) : ∃ s', s.logWrite t rid old new key flush = some s' ∧ Busy s' t ∧
      s'.db.visible = s.db.visible ∧ s' = { s with db := s'.db } := by
  obtain ⟨prev, hl⟩ := h.mine
  obtain ⟨s', hs', hlog⟩ := logWrite_spec h.base hl rid old new key flush
  have hactive : s'.activeTxn = s.activeTxn := by rw [hlog.rest]
  refine ⟨s', hs', ⟨⟨hlog.base, hlog.visible ▸ h.pointed, fun u hu => ?_⟩, ?_⟩, hlog.visible, hlog.rest⟩
  · obtain ⟨hid, prev', hl'⟩ := h.opened u (hactive ▸ hu)
    refine ⟨hlog.nextTxnId ▸ hid, ?_⟩
    rw [hlog.att]
    by_cases hut : u = t
    · rw [hut]
      exact ⟨_, AList.lookup_insert _⟩
    · exact ⟨prev', (AList.lookup_insert_ne hut).trans hl'⟩
  · rw [hlog.att]
    exact ⟨_, AList.lookup_insert _⟩

theorem Ready.begin (h : Ready s) : Busy { s with db := s.db.begin } s.db.nextTxnId where
  base := ⟨h.base.sound.append _ _ _, h.base.wf, h.base.inited, h.base.fresh, h.base.dataPage⟩
  pointed := h.pointed
  opened u hu := by
    obtain ⟨hid, prev, hl⟩ := h.opened u hu
    exact ⟨Nat.lt_succ_of_lt hid, prev, (AList.lookup_insert_ne (Nat.ne_of_lt hid)).trans hl⟩
  mine := ⟨s.db.lm.nextLsn, AList.lookup_insert _⟩

/-- A command works in the open transaction or in one of its own. -/
theorem Ready.autoBegin (h : Ready s) :
    ∃ s' t auto, s.autoBegin = (s', t, auto) ∧ Busy s' t ∧ s'.db.visible = s.db.visible ∧
      s' = { s with db := s'.db } ∧
      (auto = true → s.activeTxn = none ∧ s' = { s with db := s.db.begin } ∧ t = s.db.nextTxnId) := by
  rw [Shell.autoBegin]
  split
  · rename_i t ht
    exact ⟨s, t, false, rfl, ⟨h, (h.opened t ht).2⟩, rfl, rfl, fun ha => absurd ha Bool.false_ne_true⟩
  · rename_i ht
    exact ⟨_, _, true, rfl, h.begin, rfl, rfl, fun _ => ⟨ht, rfl, rfl⟩⟩

theorem Busy.commitTxn {t : Nat} (h : Busy s t) (hne : s.activeTxn ≠ some t) :
    ∃ s', s.commitTxn t = some s' ∧ Ready s' ∧ s'.db.visible = s.db.visible ∧
      s' = { s with db := s'.db } := by
  obtain ⟨prev, hl⟩ := h.mine
  obtain ⟨s', hs', hq, hatt, hnext⟩ := commitTxn_spec h.base hl
  refine ⟨s', hs', ⟨hq.base, hq.visible ▸ h.pointed, fun u hu => ?_⟩, hq.visible, hq.rest⟩
  have hu' : s.activeTxn = some u := by
    rw [hq.rest] at hu
    exact hu
  have hut : u ≠ t := by
    rintro rfl
    exact hne hu'
  obtain ⟨hid, prev', hl'⟩ := h.opened u hu'
  exact ⟨hnext ▸ hid, prev', by rw [hatt, AList.lookup_erase_ne hut, hl']⟩

theorem Busy.autoCommit {t : Nat} {auto : Bool} (h : Busy s t)
    (hauto : auto = true → s.activeTxn = none) :
    ∃ s', s.autoCommit t auto = some s' ∧ Ready s' ∧ s'.db.visible = s.db.visible ∧
      s' = { s with db := s'.db } := by
  cases auto with
  | false => exact ⟨s, rfl, h.toReady, rfl, rfl⟩
  | true =>
    refine h.commitTxn ?_
    rw [hauto rfl]
    exact (Option.some_ne_none t).symm

/-- A transaction that has logged nothing but BEGIN has nothing to put back. -/
theorem abortRoom_of_begin {t prev : Nat} {r : Record} (hsound : s.db.lm.Sound)
    (hl : s.db.att.lookup t = some prev) (hr : s.db.lm.log[prev]? = some r) (hb : r.body = .begin) :
    s.db.abortRoom s.db.lm.log.length t = true := by
  have hlen := (List.getElem?_eq_some_iff.mp hr).1
  obtain ⟨fuel, hfuel⟩ : ∃ n, s.db.lm.log.length = n + 1 := ⟨s.db.lm.log.length - 1, by omega⟩
  have hget := LogManager.readRecordAtLsn_eq (hsound.append t (some prev) .abort).lsn
    (getElem?_of_isPrefix (b := (s.db.lm.append t (some prev) .abort).1.log)
      (by rw [LogManager.append_log]; exact List.prefix_append _ _) hr)
  rw [hfuel]
  simp only [Database.abortRoom, hl, Option.all_some, Database.undoRoom, Database.roomAt,
    Database.undoOne, hget, hb, Option.map_some, Bool.true_and]

/-- A transaction that has logged nothing but BEGIN aborts. -/
theorem Busy.abortTxn {t prev : Nat} {r : Record} (h : Busy s t) (hl : s.db.att.lookup t = some prev)
    (hr : s.db.lm.log[prev]? = some r) (hb : r.body = .begin) (hnone : s.activeTxn = none) :
    ∃ s', s.abortTxn t = some s' ∧ Ready s' ∧ s'.db.visible = s.db.visible ∧ s' = { s with db := s'.db } := by
  have hroom := abortRoom_of_begin h.base.sound hl hr hb
  obtain ⟨s', hs', hrest, hbase, hvis, -⟩ :=
    abortTxn_spec h.base hl (.begin hr hb) h.base.fresh hroom
  refine ⟨s', hs', ⟨hbase, hvis ▸ h.pointed, fun u hu => ?_⟩, hvis, hrest⟩
  rw [hrest] at hu
  exact absurd (hnone.symm.trans hu) (Option.some_ne_none u).symm

-- ---------------------------------------------------------------------------
-- The data commands
-- ---------------------------------------------------------------------------

/-- No RID has come into the index but such of records that are in a slot. -/
structure Grown (s s' : Shell P) : Prop where
  pages : s.nextPageId ≤ s'.nextPageId
  index : ∀ k r, s'.db.index k = some r →
    s.db.index k = some r ∨ r.slotId ≠ invalidSlotId ∧ r.pageId ≤ s'.nextPageId

omit [SizedPageOps P] in
theorem Grown.of_index (hindex : s'.db.index = s.db.index) (hpages : s.nextPageId ≤ s'.nextPageId) :
    Grown s s' :=
  ⟨hpages, fun k r hr => .inl (by rw [← hindex]; exact hr)⟩

omit [SizedPageOps P] in
theorem Grown.trans {s₁ s₂ : Shell P} (h : Grown s s₁) (h' : Grown s₁ s₂) : Grown s s₂ := by
  refine ⟨Nat.le_trans h.pages h'.pages, fun k r hr => ?_⟩
  rcases h'.index k r hr with hr | hr
  · exact (h.index k r hr).imp_right fun hr => ⟨hr.1, Nat.le_trans hr.2 h'.pages⟩
  · exact .inr hr

/-- `index_->insert` of the RID of a record that fits a page. -/
theorem Placed.grown {s₁ s₂ : Shell P} {record : Bytes} {rid : Rid} {key : Int}
    (h : Placed s s₁ record rid) (hfit : record.length ≤ maxRecordLen) (index : IndexMap)
    (hindex : s₂.db.index = index.insert key rid) (hsub : ∀ k r, index k = some r → s.db.index k = some r)
    (hpages : s₁.nextPageId ≤ s₂.nextPageId) : Grown s s₂ := by
  have hle : s.nextPageId ≤ s₂.nextPageId := Nat.le_trans h.rest.grown hpages
  have hslot : rid.slotId ≠ invalidSlotId := by
    rcases h.outcome with ⟨-, -, hlong⟩ | ⟨hslot, -⟩
    · exact absurd hfit (Nat.not_le.mpr hlong)
    · exact hslot
  refine ⟨hle, fun k r hr => ?_⟩
  rw [hindex, IndexMap.insert] at hr
  split at hr
  · exact .inl (hsub k r hr)
  · replace hr : (if k = key then some rid else index k) = some r := hr
    split at hr
    · rw [← Option.some.inj hr]
      exact .inr ⟨hslot, Nat.le_trans h.page hle⟩
    · exact .inl (hsub k r hr)

/-- The answers for keys other than `key` are as they were, and `key` has a new RID. -/
structure Wrote (s s' : Shell P) (key : Int64) (record : Bytes) : Prop where
  ready : Ready s'
  others : ∀ k, k ≠ key.toInt → SameFor s.db.visible s'.db.visible k
  rid : ∃ rid, s'.db.index key.toInt = some rid ∧ rid.pageId ≤ s.nextPageId ∧
    Holds s'.db.visible rid record

/-- `store_value` alone. -/
theorem Busy.storeValue {t : Nat} (h : Busy s t) (record : Bytes) :
    ∃ s₁ rid, s.storeValue record = (s₁, rid) ∧ Placed s s₁ record rid ∧ Busy s₁ t ∧
      ∀ k, SameFor s.db.visible s₁.db.visible k := by
  obtain ⟨s₁, rid, hstore, hpl⟩ := storeValue_any h.base record
  obtain ⟨hp, hsame, -⟩ := hpl.pointed h.pointed
  have hvis : s₁.db.visible = ⟨s₁.db.read, s.db.index⟩ := congrArg (Visible.mk _) hpl.index
  refine ⟨s₁, rid, hstore, hpl, h.change hpl.rest hpl.base ?_, fun k => ?_⟩
  · rw [hvis]
    exact hp
  · rw [hvis]
    exact hsame k

/-- Store, index and log, as `put`, `fill` and `bench` do; the key may be there. -/
theorem Busy.insert {t : Nat} (h : Busy s t) (key : Int64) (record : Bytes) (grow : Nat)
    (flush : Bool) :
    ∃ s₁ rid s₂, s.storeValue record = (s₁, rid) ∧ s₁.db.index = s.db.index ∧
      (s₁.indexInsert key rid grow).logWrite t rid [] record key.toInt flush = some s₂ ∧
      Busy s₂ t ∧ s₂.activeTxn = s.activeTxn ∧ (s.search key = none → Wrote s s₂ key record) ∧
      (record.length ≤ maxRecordLen → Grown s s₂) := by
  obtain ⟨s₁, rid, hstore, hpl, hbusy, -⟩ := h.storeValue record
  obtain ⟨hp, hsame, hholds, hfree⟩ := hpl.pointed h.pointed
  obtain ⟨hadd, hother⟩ := hp.add hfree key.toInt
  have hvis : (s₁.indexInsert key rid grow).db.visible =
      ⟨s₁.db.read, IndexMap.insert s.db.index key.toInt rid⟩ := by
    rw [← hpl.index]
    rfl
  have hbusy' : Busy (s₁.indexInsert key rid grow) t := by
    refine hbusy.change ⟨rfl, rfl, rfl, rfl, rfl, rfl, Nat.le_add_right _ _⟩
      (hbusy.base.congr rfl rfl rfl (Nat.le_add_right _ _)) ?_
    rw [hvis]
    exact hadd
  obtain ⟨s₂, hlog, hbusy₂, hvis₂, hrest⟩ := hbusy'.logWrite rid [] record key.toInt flush
  refine ⟨s₁, rid, s₂, hstore, hpl.index, hlog, hbusy₂, ?_, fun hkey => ⟨hbusy₂.toReady, fun k hk => ?_, ?_⟩,
    fun hfit => hpl.grown hfit s.db.index (congrArg Visible.index (hvis₂.trans hvis)) (fun _ _ hr => hr) ?_⟩
  · rw [hrest]
    exact hpl.rest.activeTxn
  · rw [hvis₂, hvis]
    exact (hsame k).trans (hother k (.inl hk))
  · refine ⟨rid, ?_, hpl.page, ?_⟩
    · rw [show s₂.db.index = s₂.db.visible.index from rfl, hvis₂, hvis]
      show IndexMap.insert s.db.index key.toInt rid key.toInt = some rid
      rw [IndexMap.insert, ← search_isSome, hkey]
      exact if_pos rfl
    · rw [hvis₂, hvis]
      exact hholds
  · rw [hrest]
    exact Nat.le_add_right _ _

theorem Wrote.congr {s₁ s₂ s₃ : Shell P} {key : Int64} (h : Wrote s₁ s₂ key record)
    (hready : Ready s₃) (hvis : s₃.db.visible = s₂.db.visible) (h₁ : s.db.visible = s₁.db.visible)
    (hpages : s₁.nextPageId = s.nextPageId) : Wrote s s₃ key record := by
  have hindex : s₃.db.index = s₂.db.index := congrArg Visible.index hvis
  obtain ⟨rid, hrid, hpage, hholds⟩ := h.rid
  refine ⟨hready, fun k hk => ?_, rid, ?_, hpages ▸ hpage, hvis ▸ hholds⟩
  · rw [hvis, h₁]
    exact h.others k hk
  · rw [hindex]
    exact hrid

/-- `put` of a key that is there changes no answer. -/
theorem Ready.put_present (h : Ready s) {key : Int64} (hkey : (s.search key).isSome = true)
    (value : Bytes) (grow : Nat) : ∃ s', s.put key value grow = some s' ∧ Ready s' ∧
      (∀ k, SameFor s.db.visible s'.db.visible k) ∧ Grown s s' := by
  obtain ⟨s₀, t, auto, hbegin, hbusy, hvis, hrest, hauto⟩ := h.autoBegin
  obtain ⟨s₁, rid, hstore, hpl, hbusy₁, hsame⟩ := hbusy.storeValue (makeRecord key value)
  have hkey₁ : (s₁.search key).isSome = true := by
    rw [search_congr (hpl.index.trans (congrArg Visible.index hvis))]
    exact hkey
  simp only [Shell.put, hbegin, hstore, if_pos hkey₁]
  rw [hvis] at hsame
  have hindex : s₁.db.index = s.db.index := hpl.index.trans (congrArg Visible.index hvis)
  have hpages : s.nextPageId ≤ s₁.nextPageId := by
    have := hpl.rest.grown
    rwa [hrest] at this
  cases auto with
  | false => exact ⟨s₁, rfl, hbusy₁.toReady, hsame, .of_index hindex hpages⟩
  | true =>
    -- the command's own transaction has logged BEGIN only
    obtain ⟨hnone, hs₀, rfl⟩ := hauto rfl
    have hl : s₁.db.att.lookup s.db.nextTxnId = some s.db.lm.nextLsn := by
      rw [hpl.rest.att, hs₀]
      exact AList.lookup_insert _
    have hlog : s₁.db.lm.log[s.db.lm.nextLsn]? =
        some ⟨s.db.lm.nextLsn, s.db.nextTxnId, none, .begin⟩ := by
      rw [hpl.rest.lm, hs₀]
      exact h.base.sound.getElem?_append _ _ _
    have hactive : s₁.activeTxn = none := by rw [hpl.rest.activeTxn, hs₀, hnone]
    obtain ⟨s₂, hs₂, hready, hvis₂, hrest₂⟩ := hbusy₁.abortTxn hl hlog rfl hactive
    refine ⟨s₂, hs₂, hready, fun k => hvis₂ ▸ hsame k,
      .of_index ((congrArg Visible.index hvis₂).trans hindex) ?_⟩
    rw [hrest₂]
    exact hpages

/-- `put` of a key that is not there, or has an invalid RID. -/
theorem Ready.put_absent (h : Ready s) {key : Int64} (hkey : s.search key = none)
    (value : Bytes) (grow : Nat) :
    ∃ s', s.put key value grow = some s' ∧ Wrote s s' key (makeRecord key value) ∧
      ((makeRecord key value).length ≤ maxRecordLen → Grown s s') := by
  obtain ⟨s₀, t, auto, hbegin, hbusy, hvis, hrest, hauto⟩ := h.autoBegin
  have hindex₀ : s₀.db.index = s.db.index := congrArg Visible.index hvis
  obtain ⟨s₁, rid, s₂, hstore, hindex, hlog, hbusy₂, hactive, hwrote, hgrown⟩ :=
    hbusy.insert key (makeRecord key value) grow true
  have hnone : auto = true → s₂.activeTxn = none := by
    intro ha
    rw [hactive, hrest]
    exact (hauto ha).1
  obtain ⟨s₃, hcommit, hready, hvis₃, hrest₃⟩ := hbusy₂.autoCommit hnone
  refine ⟨{ s₃ with totalPuts := s₃.totalPuts + 1 }, ?_, ?_, fun hfit => ?_⟩
  · have hkey₁ : ¬(s₁.search key).isSome = true := by
      rw [search_congr (hindex.trans hindex₀), hkey]
      exact Bool.false_ne_true
    simp only [Shell.put, hbegin, hstore, if_neg hkey₁, hlog, Option.bind_eq_bind, Option.bind_some,
      hcommit]
  · refine (hwrote ?_).congr (hready.counters _ _) hvis₃ hvis.symm ?_
    · rw [search_congr hindex₀, hkey]
    · rw [hrest]
  · refine .trans (.of_index hindex₀ (by rw [hrest])) ((hgrown hfit).trans
      (.of_index (congrArg Visible.index hvis₃) ?_))
    show s₂.nextPageId ≤ s₃.nextPageId
    rw [hrest₃]

/-- `delete_record` and `index_->remove`. -/
theorem Busy.drop {t : Nat} {key : Int64} {rid : Rid} (h : Busy s t)
    (hkey : s.db.index key.toInt = some rid) (hslot : rid.slotId ≠ invalidSlotId) :
    Base { s with db := s.db.setPage rid.pageId (deleteRecord (s.db.heap rid.pageId) rid.slotId 0).1 } ∧
      Pointed ⟨(s.db.setPage rid.pageId (deleteRecord (s.db.heap rid.pageId) rid.slotId 0).1).read,
        s.db.index.remove key.toInt⟩ ∧
      ∀ k, k ≠ key.toInt → SameFor s.db.visible
        ⟨(s.db.setPage rid.pageId (deleteRecord (s.db.heap rid.pageId) rid.slotId 0).1).read,
          s.db.index.remove key.toInt⟩ k := by
  obtain ⟨hbase, hread⟩ := h.base.delete rid
  obtain ⟨hp, hother⟩ := h.pointed.drop hkey hslot
  refine ⟨hbase, ?_, fun k hk => ?_⟩
  · rw [hread]
    exact hp
  · rw [hread]
    exact hother k hk

omit [SizedPageOps P] in
theorem search_valid [PageOps P] {key : Int64} {rid : Rid} (h : s.search key = some rid) :
    rid.slotId ≠ invalidSlotId := by
  rw [search, Option.filter_eq_some_iff, Rid.isValid, Bool.and_eq_true, decide_eq_true_eq,
    decide_eq_true_eq] at h
  exact h.2.2

theorem Ready.del (h : Ready s) (key : Int64) : ∃ s', s.del key = some s' ∧ Ready s' ∧ Grown s s' := by
  rw [Shell.del]
  split
  · exact ⟨s, rfl, h, .of_index rfl (Nat.le_refl _)⟩
  · rename_i rid hsearch
    obtain ⟨s₀, t, auto, hbegin, hbusy, hvis, hrest, hauto⟩ := h.autoBegin
    have hkey : s₀.db.index key.toInt = some rid :=
      (congrFun (congrArg Visible.index hvis) _).trans (search_eq_some hsearch)
    obtain ⟨hbase, hp, -⟩ := hbusy.drop hkey (search_valid hsearch)
    generalize hs₁ : ({ s₀ with db :=
      { s₀.db.setPage rid.pageId (deleteRecord (s₀.db.heap rid.pageId) rid.slotId 0).1 with
        index := s₀.db.index.remove key.toInt } } : Shell P) = s₁
    have hbusy₁ : Busy s₁ t := by
      rw [← hs₁]
      exact hbusy.change ⟨rfl, rfl, rfl, rfl, rfl, rfl, Nat.le_refl _⟩
        (hbase.congr rfl rfl rfl (Nat.le_refl _)) hp
    obtain ⟨s₂, hlog, hbusy₂, hvis₂, hrest₂⟩ := hbusy₁.logWrite rid
      ((s₀.db.read rid.pageId rid.slotId).getD []) [] key.toInt true
    have hnone : auto = true → s₂.activeTxn = none := by
      intro ha
      rw [hrest₂, ← hs₁]
      show s₀.activeTxn = none
      rw [hrest]
      exact (hauto ha).1
    obtain ⟨s₃, hcommit, hready, hvis₃, hrest₃⟩ := hbusy₂.autoCommit hnone
    refine ⟨s₃, ?_, hready, ?_, fun k r hr => .inl ?_⟩
    · simp only [hbegin, hs₁, hlog, Option.bind_eq_bind, Option.bind_some, hcommit]
    · rw [hrest₃, hrest₂, ← hs₁]
      show s.nextPageId ≤ s₀.nextPageId
      rw [hrest]
    · have hindex : s₃.db.index = s.db.index.remove key.toInt := by
        rw [show s₃.db.index = s₁.db.index from congrArg Visible.index (hvis₃.trans hvis₂), ← hs₁]
        exact congrArg (IndexMap.remove · key.toInt) (congrArg Visible.index hvis)
      rw [hindex, IndexMap.remove] at hr
      split at hr
      · cases hr
      · exact hr

/-- `update` of a key that has a valid RID. -/
theorem Ready.update_present (h : Ready s) {key : Int64} {rid : Rid} (hsearch : s.search key = some rid)
    (value : Bytes) (grow : Nat) :
    ∃ s', s.update key value grow = some s' ∧ Wrote s s' key (makeRecord key value) ∧
      ((makeRecord key value).length ≤ maxRecordLen → Grown s s') := by
  obtain ⟨s₀, t, auto, hbegin, hbusy, hvis, hrest, hauto⟩ := h.autoBegin
  have hkey : s₀.db.index key.toInt = some rid :=
    (congrFun (congrArg Visible.index hvis) _).trans (search_eq_some hsearch)
  obtain ⟨hbase, hp, hdrop⟩ := hbusy.drop hkey (search_valid hsearch)
  generalize hx : (deleteRecord (s₀.db.heap rid.pageId) rid.slotId 0).1 = x at hbase hp hdrop
  generalize hs₁ : ({ s₀ with db := s₀.db.setPage rid.pageId x } : Shell P) = s₁ at hbase
  have hs₁read : s₁.db.read = (s₀.db.setPage rid.pageId x).read := by
    rw [← hs₁]
  rw [← hs₁read] at hp hdrop
  obtain ⟨s₂, newRid, hstore, hpl⟩ := storeValue_any hbase (makeRecord key value)
  obtain ⟨hp₂, hsame, hholds, hfree⟩ := hpl.pointed hp
  obtain ⟨hadd, hother⟩ := hp₂.add hfree key.toInt
  generalize hs₃ : (if newRid = rid then s₂ else indexInsert { s₂ with
    db := { s₂.db with index := s₂.db.index.remove key.toInt } } key newRid grow) = s₃
  -- whether the record moves or not, the index entry is taken out and put in again
  have hindex₂ : s₂.db.index = s₀.db.index := by
    rw [hpl.index, ← hs₁]
    rfl
  have hvis₃ : s₃.db.visible =
      ⟨s₂.db.read, (s₀.db.index.remove key.toInt).insert key.toInt newRid⟩ := by
    rw [← hs₃]
    split
    · rename_i heq
      rw [heq, IndexMap.insert_remove hkey, ← hindex₂]
      rfl
    · rw [← hindex₂]
      rfl
  have hs₃' : Rest s₂ s₃ ∧ Base s₃ := by
    rw [← hs₃]
    split
    · exact ⟨⟨rfl, rfl, rfl, rfl, rfl, rfl, Nat.le_refl _⟩, hpl.base⟩
    · exact ⟨⟨rfl, rfl, rfl, rfl, rfl, rfl, Nat.le_add_right _ _⟩,
        hpl.base.congr rfl rfl rfl (Nat.le_add_right _ _)⟩
  have hrest₃ : Rest s₀ s₃ := by
    refine Rest.trans ?_ (hpl.rest.trans hs₃'.1)
    rw [← hs₁]
    exact ⟨rfl, rfl, rfl, rfl, rfl, rfl, Nat.le_refl _⟩
  have hbusy₃ : Busy s₃ t := hbusy.change hrest₃ hs₃'.2 (hvis₃ ▸ hadd)
  obtain ⟨s₄, hlog, hbusy₄, hvis₄, hrest₄⟩ := hbusy₃.logWrite newRid
    ((s₀.db.read rid.pageId rid.slotId).getD []) (makeRecord key value) 0 true
  have hnone : auto = true → s₄.activeTxn = none := by
    intro ha
    rw [hrest₄]
    show s₃.activeTxn = none
    rw [hrest₃.activeTxn, hrest]
    exact (hauto ha).1
  obtain ⟨s₅, hcommit, hready, hvis₅, hrest₅⟩ := hbusy₄.autoCommit hnone
  have hvis' : s₅.db.visible =
      ⟨s₂.db.read, (s₀.db.index.remove key.toInt).insert key.toInt newRid⟩ :=
    (hvis₅.trans hvis₄).trans hvis₃
  have hpages : s₁.nextPageId = s.nextPageId := by
    rw [← hs₁]
    show s₀.nextPageId = s.nextPageId
    rw [hrest]
  refine ⟨s₅, ?_, ⟨hready, fun k hk => ?_, newRid, ?_, ?_, ?_⟩, fun hfit => ?_⟩
  · simp only [Shell.update, hsearch, hbegin, hx, hs₁, hstore, hs₃, hlog, Option.bind_eq_bind,
      Option.bind_some, hcommit]
  · rw [hvis', ← hvis]
    exact ((hdrop k hk).trans (hsame k)).trans (hother k (.inl hk))
  · rw [show s₅.db.index = s₅.db.visible.index from rfl, hvis']
    show IndexMap.insert _ key.toInt newRid key.toInt = some newRid
    rw [IndexMap.insert_of_none (if_pos rfl)]
    exact if_pos rfl
  · exact hpages ▸ hpl.page
  · rw [hvis']
    exact hholds
  · have hindex₁ : s₁.db.index = s.db.index := by
      rw [← hs₁]
      exact congrArg Visible.index hvis
    refine .trans (.of_index hindex₁ (Nat.le_of_eq hpages.symm))
      (hpl.grown hfit (s₀.db.index.remove key.toInt) (congrArg Visible.index hvis') (fun k r hr => ?_) ?_)
    · rw [IndexMap.remove] at hr
      split at hr
      · cases hr
      · rw [hindex₁, ← show s₀.db.index = s.db.index from congrArg Visible.index hvis]
        exact hr
    · rw [hrest₅, hrest₄]
      exact hs₃'.1.grown

-- ---------------------------------------------------------------------------
-- Batches and whole runs
-- ---------------------------------------------------------------------------

/-- One iteration of `fill`, whether its key is there or not. -/
theorem Busy.fillOne {t : Nat} (h : Busy s t) (i grow : Nat) :
    ∃ s' new, s.fillOne t i grow = some (s', new) ∧ Busy s' t ∧ s'.activeTxn = s.activeTxn ∧
      (i < 2 ^ 31 → Grown s s') := by
  have h' := h.counters s.totalPuts (s.nextFillKey + 1)
  obtain ⟨s₁, rid, s₂, hstore, hindex, hlog, hbusy₂, hactive, -, hgrown⟩ :=
    h'.insert s.nextFillKey (makeRecord s.nextFillKey (numbered "val_" i)) grow false
  obtain ⟨s₁', rid', hstore', hpl, hbusy₁, -⟩ :=
    h'.storeValue (makeRecord s.nextFillKey (numbered "val_" i))
  obtain ⟨rfl, -⟩ := Prod.mk.inj (hstore'.symm.trans hstore)
  simp only [Shell.fillOne, hstore]
  split
  · exact ⟨s₁', false, rfl, hbusy₁, hpl.rest.activeTxn, fun _ => .of_index hindex hpl.rest.grown⟩
  · rw [hlog]
    refine ⟨s₂, true, rfl, hbusy₂, hactive, fun hi => ?_⟩
    have hg := hgrown (valueFits_iff.mp (valueFits_numbered (by decide) hi))
    exact ⟨hg.pages, hg.index⟩

theorem Busy.fillLoop {t : Nat} (grow : Nat → Nat) : ∀ (k i : Nat) {s : Shell P} (m : Nat), Busy s t →
    ∃ s' m', Shell.fillLoop t grow k i s m = some (s', m') ∧ Busy s' t ∧
      s'.activeTxn = s.activeTxn ∧ (i + k ≤ 2 ^ 31 → Grown s s') := by
  intro k
  induction k with
  | zero => exact fun i s m h => ⟨s, m, rfl, h, rfl, fun _ => .of_index rfl (Nat.le_refl _)⟩
  | succ k ih =>
    intro i s m h
    obtain ⟨s₁, new, hone, hbusy, hactive, hgrown⟩ := h.fillOne i (grow i)
    obtain ⟨s₂, m', hloop, hbusy₂, hactive₂, hgrown₂⟩ := ih (i + 1) (if new then m + 1 else m) hbusy
    refine ⟨s₂, m', ?_, hbusy₂, hactive₂.trans hactive, fun hi => ?_⟩
    · rw [Shell.fillLoop, hone]
      exact hloop
    · exact (hgrown (by omega)).trans (hgrown₂ (by omega))

theorem Ready.fill (h : Ready s) (n : Int32) (grow : Nat → Nat) :
    ∃ s', s.fill n grow = some s' ∧ Ready s' ∧ Grown s s' := by
  obtain ⟨s₀, t, auto, hbegin, hbusy, hvis, hrest, hauto⟩ := h.autoBegin
  obtain ⟨s₁, m, hloop, hbusy₁, hactive, hgrown⟩ := Busy.fillLoop grow n.toInt.toNat 0 0 hbusy
  have hnone : auto = true → s₁.activeTxn = none := by
    intro ha
    rw [hactive, hrest]
    exact (hauto ha).1
  obtain ⟨s₂, hcommit, hready, hvis₂, hrest₂⟩ := hbusy₁.autoCommit hnone
  refine ⟨_, ?_, hready.counters (s₂.totalPuts + UInt64.ofNat m) s₂.nextFillKey, ?_⟩
  · simp only [Shell.fill, hbegin, hloop, Option.bind_eq_bind, Option.bind_some, hcommit]
  · have hn := n.toInt_lt
    refine .trans (.of_index (congrArg Visible.index hvis) (by rw [hrest]))
      ((hgrown (by omega)).trans (.of_index (congrArg Visible.index hvis₂) ?_))
    show s₁.nextPageId ≤ s₂.nextPageId
    rw [hrest₂]

theorem Busy.benchLoop {t : Nat} (grow : Nat → Nat) : ∀ (k i : Nat) {s : Shell P}, Busy s t →
    ∃ s', Shell.benchLoop t grow k i s = some s' ∧ Busy s' t ∧ s'.activeTxn = s.activeTxn ∧
      (i + k ≤ 2 ^ 31 → Grown s s') := by
  intro k
  induction k with
  | zero => exact fun i s h => ⟨s, rfl, h, rfl, fun _ => .of_index rfl (Nat.le_refl _)⟩
  | succ k ih =>
    intro i s h
    obtain ⟨s₁, rid, s₂, hstore, -, hlog, hbusy₂, hactive, -, hgrown⟩ := h.insert (benchKey s.totalPuts i)
      (makeRecord (benchKey s.totalPuts i) (numbered "bench_" i)) (grow i) false
    have hone : s.benchOne t i (grow i) = some s₂ := by
      simp only [benchOne, hstore]
      exact hlog
    obtain ⟨s₃, hloop, hbusy₃, hactive₃, hgrown₃⟩ := ih (i + 1) hbusy₂
    refine ⟨s₃, ?_, hbusy₃, hactive₃.trans hactive, fun hi => ?_⟩
    · rw [Shell.benchLoop, hone]
      exact hloop
    · exact (hgrown (valueFits_iff.mp (valueFits_numbered (by decide) (by omega)))).trans (hgrown₃ (by omega))

theorem Ready.bench (h : Ready s) (n : Int32) (grow : Nat → Nat) :
    ∃ s', s.bench n grow = some s' ∧ Ready s' ∧ Grown s s' := by
  obtain ⟨s₁, hloop, hbusy₁, hactive, hgrown⟩ := Busy.benchLoop grow n.toInt.toNat 0 h.begin
  obtain ⟨s₂, hcommit, hready, hvis₂, hrest₂⟩ := hbusy₁.commitTxn (by
    rw [hactive]
    exact fun hc => Nat.lt_irrefl _ (h.opened _ hc).1)
  refine ⟨_, ?_, hready.counters (s₂.totalPuts + n.toInt64.toUInt64) s₂.nextFillKey, ?_⟩
  · simp only [Shell.bench, hloop, Option.bind_eq_bind, Option.bind_some, hcommit]
  · have hn := n.toInt_lt
    have hg := hgrown (by omega)
    refine .trans ⟨hg.pages, hg.index⟩ (.of_index (congrArg Visible.index hvis₂) ?_)
    show s₁.nextPageId ≤ s₂.nextPageId
    rw [hrest₂]

theorem Ready.beginCmd (h : Ready s) : Ready s.begin := by
  rw [Shell.begin]
  split
  · exact h
  · refine ⟨h.begin.base.congr rfl rfl rfl (Nat.le_refl _), h.pointed, fun t ht => ?_⟩
    obtain rfl : s.db.nextTxnId = t := Option.some.inj ht
    exact ⟨Nat.lt_succ_self _, h.begin.mine⟩

theorem Ready.commitCmd (h : Ready s) : ∃ s', s.commit = some s' ∧ Ready s' ∧ Grown s s' := by
  rw [Shell.commit]
  split
  · exact ⟨s, rfl, h, .of_index rfl (Nat.le_refl _)⟩
  · rename_i t ht
    obtain ⟨prev, hl⟩ := (h.opened t ht).2
    obtain ⟨s', hs', hq, -⟩ := commitTxn_spec h.base hl
    refine ⟨{ s' with activeTxn := none }, by rw [hs']; rfl, ⟨hq.base.congr rfl rfl rfl (Nat.le_refl _),
      hq.visible ▸ h.pointed, fun t ht => absurd ht (Option.some_ne_none t).symm⟩,
      .of_index (congrArg Visible.index hq.visible) ?_⟩
    show s.nextPageId ≤ s'.nextPageId
    rw [hq.rest]

/-- Commands other than `abort`. -/
def keepsTxn : Command → Bool
  | .abort _ => false
  | _ => true

/-- `put` prints that the key was inserted: the index has no valid RID for it. -/
def putReports (s : Shell P) (key : Int64) : Bool := (s.search key).isNone

/-- `update` prints that the key was updated. -/
def updateReports (s : Shell P) (key : Int64) : Bool := (s.search key).isSome

/-- A command other than `abort`; when it is a `put` or an `update`, it reports failure or its value
fits a page. -/
def fitting (s : Shell P) : Command → Bool
  | .put key value _ => !s.putReports key || valueFits value
  | .update key value _ => !s.updateReports key || valueFits value
  | c => keepsTxn c

/-- **Every command but `abort` runs to its end and keeps the invariant.** -/
theorem Ready.step (h : Ready s) {c : Command} (hc : keepsTxn c = true) :
    ∃ s', s.step c = some s' ∧ Ready s' ∧ (s.fitting c = true → Grown s s') := by
  cases c with
  | put key value grow =>
    by_cases hkey : (s.search key).isSome = true
    · obtain ⟨s', hs', hready, -, hgrown⟩ := h.put_present hkey value grow
      exact ⟨s', hs', hready, fun _ => hgrown⟩
    · have hnone : s.search key = none := by simpa using hkey
      obtain ⟨s', hs', hwrote, hgrown⟩ := h.put_absent hnone value grow
      refine ⟨s', hs', hwrote.ready, fun hfit => hgrown (valueFits_iff.mp ?_)⟩
      rw [fitting, putReports, hnone] at hfit
      exact hfit
  | update key value grow =>
    cases hsearch : s.search key with
    | none =>
      exact ⟨s, by rw [Shell.step, Shell.update, hsearch], h, fun _ => .of_index rfl (Nat.le_refl _)⟩
    | some rid =>
      obtain ⟨s', hs', hwrote, hgrown⟩ := h.update_present hsearch value grow
      refine ⟨s', hs', hwrote.ready, fun hfit => hgrown (valueFits_iff.mp ?_)⟩
      rw [fitting, updateReports, hsearch] at hfit
      exact hfit
  | del key =>
    obtain ⟨s', hs', hready, hgrown⟩ := h.del key
    exact ⟨s', hs', hready, fun _ => hgrown⟩
  | begin =>
    refine ⟨_, rfl, h.beginCmd, fun _ => ?_⟩
    rw [Shell.begin]
    split
    · exact .of_index rfl (Nat.le_refl _)
    · exact .of_index rfl (Nat.le_refl _)
  | commit =>
    obtain ⟨s', hs', hready, hgrown⟩ := h.commitCmd
    exact ⟨s', hs', hready, fun _ => hgrown⟩
  | abort grow => cases hc
  | fill n grow =>
    obtain ⟨s', hs', hready, hgrown⟩ := h.fill n grow
    exact ⟨s', hs', hready, fun _ => hgrown⟩
  | bench n grow =>
    obtain ⟨s', hs', hready, hgrown⟩ := h.bench n grow
    exact ⟨s', hs', hready, fun _ => hgrown⟩

theorem Ready.of_step (h : Ready s) {c : Command} (hc : keepsTxn c = true) (hs : s.step c = some s') :
    Ready s' := by
  obtain ⟨s₁, hs₁, hready, -⟩ := h.step hc
  rw [hs] at hs₁
  rw [Option.some.inj hs₁]
  exact hready

theorem Ready.of_steps (hrun : Steps Shell.step (fun _ c => keepsTxn c = true) Shell.initStorage s) :
    Ready s :=
  hrun.invariant (fun _ _ _ h hok hs => h.of_step hok hs) .initStorage

/-- Every RID in the index is valid: no key can be inserted a second time. -/
def IndexValid (s : Shell P) : Prop := ∀ k r, s.db.index k = some r → r.isValid = true

omit [SizedPageOps P] in
theorem IndexValid.index_of_search (hv : s.IndexValid) {key : Int64} (h : s.search key = none) :
    s.db.index key.toInt = none := by
  cases hk : s.db.index key.toInt with
  | none => rfl
  | some r =>
    rw [search, hk, Option.filter_some, if_pos (hv _ r hk)] at h
    cases h

/-- Success and `get` gives the value, or failure and `get` answers as before; the other
keys are not touched either way. -/
def AllOrNothing (s s' : Shell P) (key : Int64) (value : Bytes) (success : Bool) : Prop :=
  s'.get key = (if success then .value value else s.get key) ∧
    ∀ k : Int64, k ≠ key → s'.get k = s.get k

theorem AllOrNothing.of_same {key : Int64} (h : ∀ k, SameFor s.db.visible s'.db.visible k)
    (value : Bytes) : AllOrNothing s s' key value false :=
  ⟨(h key.toInt).get, fun k _ => (h k.toInt).get⟩

end Shell

end PersistX
