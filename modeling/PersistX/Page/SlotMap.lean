import PersistX.Page.Compact
import PersistX.Lib.Transition

/-!
# PersistX — the slotted page is a slot map

The operations of `page.cpp` in any order, beside the map from slots to
payloads that they are meant to keep. A page begins in `init`, or as a page of
zeros with a `redo_insert` first. The callers' side: sizes are `uint16_t`
numbers, and `redo_insert`, which looks at nothing, is given a slot that exists
or is the next one and a payload that fits.

Main result: `isSlotMap_of_steps`.
-/

namespace PersistX

open Bytes Transition

namespace Page

/-- The operations that change a page. -/
inductive Op
  | insertRecord (data : Bytes) (lsn : Nat)
  | deleteRecord (s : Nat) (lsn : Nat)
  | updateRecord (s : Nat) (data : Bytes) (lsn : Nat)
  | compact
  | redoInsert (s : Nat) (data : Bytes) (lsn : Nat)

/-- A page, and the payload last stored in each slot. -/
abbrev Mapped := Page × (Nat → Option Bytes)

/-- The page after an operation, and what is stored then. An operation that
returns failure stores nothing. -/
def step : Mapped → Op → Option Mapped
  | (x, m), .insertRecord data lsn =>
    match x.insertRecord data lsn with
    | some (x', s) => some (x', Function.update m s (some data))
    | none => some (x, m)
  | (x, m), .deleteRecord s lsn =>
    some ((x.deleteRecord s lsn).1,
      if (x.deleteRecord s lsn).2 then Function.update m s none else m)
  | (x, m), .updateRecord s data lsn =>
    some ((x.updateRecord s data lsn).1,
      if (x.updateRecord s data lsn).2 then Function.update m s (some data) else m)
  | (x, m), .compact => some (x.compact, m)
  | (x, m), .redoInsert s data lsn =>
    some (x.redoInsert s data lsn, Function.update m s (some data))

/-- What callers see to. -/
def Allowed : Mapped → Op → Prop
  | _, .insertRecord data _ => data.length < 2 ^ 16
  | _, .updateRecord _ data _ => data.length < 2 ^ 16
  | (x, _), .redoInsert s data _ => x.fits s data = true
  | _, _ => True

/-- A fresh page, or a page of zeros behind its first `redo_insert`. -/
inductive Start : Mapped → Prop
  | init (p : Nat) : Start (init p, fun _ => none)
  | zero (s : Nat) (data : Bytes) (lsn : Nat) (hf : zero.fits s data = true) :
    Start (zero.redoInsert s data lsn, Function.update (fun _ => none) s (some data))

/-- The page `x` is the slot map `m`. -/
structure IsSlotMap (x : Page) (m : Nat → Option Bytes) : Prop where
  /-- The data region ends between the header and the directory. -/
  frontier : headerSize ≤ x.freeSpacePtr ∧ x.freeSpacePtr ≤ x.slotDirStart
  tombstones : x.tombstoneCount = x.tombstones.card
  /-- The `assert` of `insert_record`: a tombstone is found where the count says there is one. -/
  freeSlot : x.tombstoneCount > 0 →
    x.findFreeSlot < x.slotCount ∧ x.slotOff x.findFreeSlot = slotTombstone
  slotCount : x.slotCount < maxSlotsPerPage
  /-- The extents of live records lie in the data region and are disjoint. -/
  bounds : ∀ s, x.Live s →
    headerSize ≤ x.slotOff s ∧ x.slotOff s + 2 + x.slotLen s ≤ x.freeSpacePtr
  apart : ∀ s s', s ≠ s' → x.Live s → x.Live s' →
    x.slotOff s + 2 + x.slotLen s ≤ x.slotOff s' ∨ x.slotOff s' + 2 + x.slotLen s' ≤ x.slotOff s
  /-- The size prefix and the slot agree. -/
  sizes : ∀ s, x.Live s → x.rd (x.slotOff s) 2 = x.slotLen s
  read : ∀ s, x.readRecord s = m s
  /-- `insert_record` goes through exactly if `can_insert`, and touches no other record. -/
  insert : ∀ data lsn, data.length < 2 ^ 16 →
    ((x.insertRecord data lsn).isSome = x.canInsert data.length) ∧
    ∀ x' s, x.insertRecord data lsn = some (x', s) →
      m s = none ∧ x'.readRecord s = some data ∧ ∀ s', s' ≠ s → x'.readRecord s' = m s'
  /-- What fails changes nothing. -/
  failed : (∀ s lsn, (x.deleteRecord s lsn).2 = false → (x.deleteRecord s lsn).1 = x) ∧
    ∀ s data lsn, (x.updateRecord s data lsn).2 = false → (x.updateRecord s data lsn).1 = x
  /-- `compact` keeps records, page id, type and LSN, and leaves no gaps. -/
  compact : (∀ s, x.compact.readRecord s = m s) ∧ x.compact.pageId = x.pageId ∧
    x.compact.pageType = x.pageType ∧ x.compact.pageLsn = x.pageLsn ∧
    x.compact.freeSpacePtr = headerSize + x.dataSize x.slotCount ∧
    x.freeSpace ≤ x.compact.freeSpace

/-- The invariant behind `IsSlotMap`. -/
structure Kept (x : Page) (m : Nat → Option Bytes) : Prop where
  wf : Wf x
  inited : headerSize ≤ x.freeSpacePtr
  slots : x.slotCount < maxSlotsPerPage
  read : ∀ s, x.readRecord s = m s

variable {x x' : Page} {m m' : Nat → Option Bytes}

-- ---------------------------------------------------------------------------
-- One operation
-- ---------------------------------------------------------------------------

theorem freeSpacePtr_stamp (x : Page) (l : Nat) : (x.stamp l).freeSpacePtr = x.freeSpacePtr := by
  rw [stamp]
  split
  · rw [freeSpacePtr_setPageLsn]
  · rfl

/-- The stamp changes nothing that the map sees. -/
theorem Kept.stamp (h : Kept x m) (l : Nat) : Kept (x.stamp l) m := by
  have hsame := (same_stamp x l).symm
  refine ⟨h.wf.of_same hsame, ?_, ?_, fun s => ?_⟩
  · rw [freeSpacePtr_stamp]
    exact h.inited
  · rw [← hsame.slots]
    exact h.slots
  · rw [← hsame.read h.wf]
    exact h.read s

/-- A record in a slot that is there or comes next. -/
theorem Kept.redoInsert (hw : Wf x) (hread : ∀ s, x.readRecord s = m s) {s : Nat} {data : Bytes}
    (hf : x.fits s data = true) (l : Nat) :
    Kept (x.redoInsert s data l) (Function.update m s (some data)) := by
  have hF := x.headerSize_le_frontier
  rw [redoInsert_eq]
  refine Kept.stamp ⟨wf_placed hw hf, ?_, ?_, fun s' => ?_⟩ l
  · rw [freeSpacePtr_placed hf]
    omega
  · have hroom := (fits_iff.mp hf).2
    rw [(header_placed hf).1]
    simp only [maxSlotsPerPage, slotBytes, pageSize, headerSize] at hroom hF ⊢
    omega
  · rw [read_placed hw hf, hread, Function.update_apply]

theorem deleteRecord_ok_iff {s l : Nat} : (x.deleteRecord s l).2 = true ↔ x.Live s := by
  unfold deleteRecord Live
  split
  · rename_i hge
    exact iff_of_false (by simp) fun h => by omega
  · split
    · rename_i ht
      exact iff_of_false (by simp) fun h => h.2 ht
    · rename_i hge ht
      exact iff_of_true rfl ⟨by omega, ht⟩

theorem deleteRecord_fail {s l : Nat} (h : (x.deleteRecord s l).2 = false) :
    (x.deleteRecord s l).1 = x := by
  rw [deleteRecord_eq, if_neg]
  intro hs
  rw [deleteRecord_ok_iff.mpr hs] at h
  cases h

theorem Kept.deleteRecord (h : Kept x m) (s l : Nat) : Kept (x.deleteRecord s l).1
    (if (x.deleteRecord s l).2 then Function.update m s none else m) := by
  cases hok : (x.deleteRecord s l).2 with
  | false =>
    rw [deleteRecord_fail hok]
    exact h
  | true =>
    have hs := deleteRecord_ok_iff.mp hok
    rw [if_pos rfl, deleteRecord_eq, if_pos ⟨hs.1, hs.2⟩]
    obtain ⟨hn, -, -⟩ := slots_deleted h.wf hs
    have hfsp : (x.deleted s).freeSpacePtr = x.freeSpacePtr := by
      rw [deleted, freeSpacePtr_setTombstoneCount]
      exact (header_writeSlot (h.wf.header_room hs.1) _ _).2.2
    refine Kept.stamp ⟨wf_deleted h.wf hs, ?_, ?_, fun s' => ?_⟩ l
    · rw [hfsp]
      exact h.inited
    · rw [hn]
      exact h.slots
    · rw [read_deleted h.wf hs, h.read, Function.update_apply]

theorem updateRecord_fail_eq {s l : Nat} {data : Bytes} (h : (x.updateRecord s data l).2 = false) :
    (x.updateRecord s data l).1 = x := by
  rw [updateRecord_eq] at h ⊢
  split at h
  · cases h
  · rename_i hc
    rw [if_neg hc]

theorem Kept.updateRecord (h : Kept x m) {s : Nat} {data : Bytes} (hsize : data.length < 2 ^ 16)
    (l : Nat) : Kept (x.updateRecord s data l).1
      (if (x.updateRecord s data l).2 then Function.update m s (some data) else m) := by
  cases hok : (x.updateRecord s data l).2 with
  | false =>
    rw [updateRecord_fail_eq hok]
    exact h
  | true =>
    obtain ⟨hs, hlen⟩ := updateRecord_ok_iff.mp hok
    rw [if_pos rfl, updateRecord_eq, if_pos ⟨hs.1, hs.2, hlen⟩]
    obtain ⟨hn, -⟩ := slots_updated h.wf hs hlen
    have hfsp : (x.updated s data).freeSpacePtr = x.freeSpacePtr := by
      have hb := (h.wf.bounds s hs).1
      exact (header_memcpy x _ (by omega)).2.2
    refine Kept.stamp ⟨wf_updated h.wf hs hlen, ?_, ?_, fun s' => ?_⟩ l
    · rw [hfsp]
      exact h.inited
    · rw [hn]
      exact h.slots
    · rw [read_updated h.wf hs hlen hsize, h.read, Function.update_apply]

theorem Kept.compact (h : Kept x m) : Kept x.compact m := by
  have hc := compacted h.wf
  refine ⟨hc.wf, ?_, ?_, fun s => (readRecord_compact h.wf s).trans (h.read s)⟩
  · rw [hc.front]
    omega
  · rw [hc.slots]
    exact h.slots

/-- Every allowed operation keeps the invariant. -/
theorem kept_step (a : Mapped) (op : Op) (a' : Mapped) (h : Kept a.1 a.2) (hok : Allowed a op)
    (hs : step a op = some a') : Kept a'.1 a'.2 := by
  obtain ⟨x, m⟩ := a
  cases op with
  | insertRecord data l =>
    simp only [step] at hs
    split at hs
    · rename_i x' s hins
      obtain rfl := Option.some.inj hs
      obtain ⟨hf, -, rfl⟩ := insertRecord_eq h.wf h.inited hok hins
      exact Kept.redoInsert h.wf h.read hf l
    · obtain rfl := Option.some.inj hs
      exact h
  | deleteRecord s l =>
    obtain rfl := Option.some.inj hs
    exact h.deleteRecord s l
  | updateRecord s data l =>
    obtain rfl := Option.some.inj hs
    exact h.updateRecord hok l
  | compact =>
    obtain rfl := Option.some.inj hs
    exact h.compact
  | redoInsert s data l =>
    obtain rfl := Option.some.inj hs
    exact Kept.redoInsert h.wf h.read hok l

theorem kept_start {a : Mapped} (h : Start a) : Kept a.1 a.2 := by
  have hnone : ∀ s, zero.readRecord s = none := fun s =>
    readRecord_of_not_live fun h => absurd h.1 (Nat.not_lt_zero s)
  cases h with
  | init p =>
    have hsame := (same_init p).symm
    refine ⟨wf_zero.of_same hsame, ?_, ?_, fun s => ?_⟩
    · rw [Page.init, freeSpacePtr_setPageLsn, freeSpacePtr_setFreeSpacePtr]
      decide
    · rw [← hsame.slots]
      decide
    · rw [← hsame.read wf_zero]
      exact hnone s
  | zero s data l hf => exact Kept.redoInsert wf_zero hnone hf l

-- ---------------------------------------------------------------------------
-- What the invariant gives
-- ---------------------------------------------------------------------------

theorem Kept.freeSpacePtr_le (h : Kept x m) : x.freeSpacePtr + slotBytes * x.slotCount ≤ pageSize := by
  have hroom := h.wf.room
  have hle : x.freeSpacePtr ≤ x.frontier := Nat.le_max_left _ _
  omega

theorem Kept.insertRecord (h : Kept x m) {data : Bytes} (hsize : data.length < 2 ^ 16) (l : Nat) :
    (x.insertRecord data l).isSome = x.canInsert data.length ∧
    ∀ x' s, x.insertRecord data l = some (x', s) →
      m s = none ∧ x'.readRecord s = some data ∧ ∀ s', s' ≠ s → x'.readRecord s' = m s' := by
  constructor
  · rw [Page.insertRecord, Nat.mod_eq_of_lt hsize]
    simp only
    split
    · rename_i hc
      exact hc.symm
    · rename_i hc
      exact (Bool.eq_false_iff.mpr hc).symm
  · intro x' s hins
    obtain ⟨hf, hlive, rfl⟩ := insertRecord_eq h.wf h.inited hsize hins
    have hkept := Kept.redoInsert h.wf h.read hf l
    refine ⟨?_, ?_, fun s' hne => ?_⟩
    · rw [← h.read, readRecord_of_not_live hlive]
    · rw [hkept.read, Function.update_self]
    · rw [hkept.read, Function.update_of_ne hne]

theorem Kept.freeSpace_compact (h : Kept x m) : x.freeSpace ≤ x.compact.freeSpace := by
  have hc := compacted h.wf
  have hfront : x.frontier = x.freeSpacePtr := Nat.max_eq_left h.inited
  have hall := dataSize_le h.wf
  have hle := h.freeSpacePtr_le
  have hdir : x.compact.slotDirStart = x.slotDirStart := by
    rw [slotDirStart_eq hc.wf, slotDirStart_eq h.wf, hc.slots]
  rw [hfront] at hall
  unfold freeSpace
  rw [hdir, hc.front, slotDirStart_eq h.wf, if_pos (by omega), if_pos (by omega)]
  omega

theorem Kept.isSlotMap (h : Kept x m) : IsSlotMap x m where
  frontier := by
    have hle := h.freeSpacePtr_le
    rw [slotDirStart_eq h.wf]
    exact ⟨h.inited, by omega⟩
  tombstones := h.wf.tombs
  freeSlot hpos := by
    rw [h.wf.tombs] at hpos
    obtain ⟨u, hu⟩ := Finset.card_pos.mp hpos
    simp only [Page.tombstones, Finset.mem_filter, Finset.mem_range] at hu
    exact findFreeSlot_spec hu.1 hu.2
  slotCount := h.slots
  bounds s hs := by
    have hfront : x.frontier = x.freeSpacePtr := Nat.max_eq_left h.inited
    rw [← hfront]
    exact h.wf.bounds s hs
  apart := h.wf.apart
  sizes := h.wf.sizes
  read := h.read
  insert data l hsize := h.insertRecord hsize l
  failed := ⟨fun _ _ => deleteRecord_fail, fun _ _ _ => updateRecord_fail_eq⟩
  compact := by
    have hc := compacted h.wf
    have hid := hc.ident
    simp only [Page.ident, Prod.mk.injEq] at hid
    exact ⟨h.compact.read, hid.1, hid.2.1, hid.2.2, hc.front, h.freeSpace_compact⟩

/-- **The slotted page is a slot map**, behind every sequence of its operations. -/
theorem isSlotMap_of_steps {a : Mapped} (ha : Start a) (h : Steps step Allowed a (x, m)) :
    IsSlotMap x m :=
  (h.invariant kept_step (kept_start ha)).isSlotMap

/-- A page of zeros: a record is forced into slot 0, one is inserted behind it,
the first is deleted, and the page compacted. -/
theorem isSlotMap_of_zero_page :
    ∃ x m, Steps step Allowed
        (zero.redoInsert 0 [1, 2] 1, Function.update (fun _ => none) 0 (some [1, 2])) (x, m) ∧
      IsSlotMap x m ∧ x.readRecord 1 = some [3] := by
  have hstart : Start (zero.redoInsert 0 [1, 2] 1, Function.update (fun _ => none) 0 (some [1, 2])) :=
    .zero 0 [1, 2] 1 (by decide)
  have hrun : Steps step Allowed
      (zero.redoInsert 0 [1, 2] 1, Function.update (fun _ => none) 0 (some [1, 2])) _ := .refl
  have hrun := hrun.next (.insertRecord [3] 2) (show 1 < 2 ^ 16 by decide) rfl
    |>.next (.deleteRecord 0 3) trivial rfl
    |>.next .compact trivial rfl
  have hmap := isSlotMap_of_steps hstart hrun
  exact ⟨_, _, hrun, hmap, (hmap.read 1).trans rfl⟩

end Page

end PersistX
