import PersistX.Page.Layout
import Mathlib.Data.Finset.Card
import Mathlib.Data.Finset.Range

/-!
# PersistX — the byte page meets the managers' laws

`Page.Wf` says what a slotted page keeps: the directory and the data region do
not meet, `tombstone_count` counts the tombstones, and every live slot points
at a record of its own inside the data region, with the same length in the
size prefix and in the slot. `Page.Eqv` identifies pages that agree on the
header fields the managers read and on every byte past the header.

Main result: the instance `LawfulPageOps Page`.
-/

namespace PersistX

open Bytes

namespace Page

-- ---------------------------------------------------------------------------
-- Reading behind a write
-- ---------------------------------------------------------------------------

theorem buf_memcpy_of_not_mem {x : Page} {off i : Nat} {data : Bytes}
    (h : i < off ∨ off + data.length ≤ i) : (x.memcpy off data).buf i = x.buf i := by
  refine blit_of_not_mem ?_
  rw [List.length_take]
  omega

theorem rd_memcpy {x : Page} {off off' n : Nat} {data : Bytes}
    (h : off' + n ≤ off ∨ off + data.length ≤ off') : (x.memcpy off data).rd off' n = x.rd off' n :=
  load_congr fun _ _ _ => buf_memcpy_of_not_mem (by omega)

theorem slice_memcpy {x : Page} {off off' n : Nat} {data : Bytes}
    (h : off' + n ≤ off ∨ off + data.length ≤ off') :
    slice (x.memcpy off data).buf off' n = slice x.buf off' n :=
  slice_congr fun _ _ _ => buf_memcpy_of_not_mem (by omega)

theorem slice_memcpy_self {x : Page} {off : Nat} {data : Bytes} (h : off + data.length ≤ pageSize) :
    slice (x.memcpy off data).buf off data.length = data := by
  rw [memcpy, List.take_of_length_le (by omega)]
  exact slice_blit _ _ _

theorem buf_wr_of_not_mem {x : Page} {off n v i : Nat} (h : i < off ∨ off + n ≤ i) :
    (x.wr off n v).buf i = x.buf i :=
  buf_memcpy_of_not_mem (by rwa [length_leBytes])

theorem rd_wr {x : Page} {off n v off' n' : Nat} (h : off' + n' ≤ off ∨ off + n ≤ off') :
    (x.wr off n v).rd off' n' = x.rd off' n' :=
  rd_memcpy (by rwa [length_leBytes])

theorem slice_wr {x : Page} {off n v off' n' : Nat} (h : off' + n' ≤ off ∨ off + n ≤ off') :
    slice (x.wr off n v).buf off' n' = slice x.buf off' n' :=
  slice_memcpy (by rwa [length_leBytes])

theorem rd_wr_self {x : Page} {off n v : Nat} (h : off + n ≤ pageSize) :
    (x.wr off n v).rd off n = v % 256 ^ n := by
  have : slice (x.memcpy off (leBytes n v)).buf off (leBytes n v).length = leBytes n v :=
    slice_memcpy_self (by rwa [length_leBytes])
  rw [length_leBytes] at this
  rw [rd, load, wr, this, ofLe_leBytes]

theorem rd_congr {x y : Page} {off n : Nat} (h : ∀ i, headerSize ≤ i → x.buf i = y.buf i)
    (ho : headerSize ≤ off) : x.rd off n = y.rd off n :=
  load_congr fun i hi _ => h i (by omega)

theorem wr_wr {x : Page} {off n v w : Nat} : (x.wr off n v).wr off n w = x.wr off n w := by
  simp only [wr, memcpy, Page.mk.injEq, and_true]
  funext i
  simp only [blit, List.length_take, length_leBytes]
  split <;> rfl

-- ---------------------------------------------------------------------------
-- Header fields
-- ---------------------------------------------------------------------------

theorem slotCount_lt (x : Page) : x.slotCount < 2 ^ 16 := load_lt _ _ _

@[simp] theorem slotCount_setTombstoneCount (x : Page) (v : Nat) :
    (x.setTombstoneCount v).slotCount = x.slotCount := rd_wr (by decide)

@[simp] theorem slotCount_setFreeSpacePtr (x : Page) (v : Nat) :
    (x.setFreeSpacePtr v).slotCount = x.slotCount := rd_wr (by decide)

@[simp] theorem slotCount_setPageLsn (x : Page) (v : Nat) :
    (x.setPageLsn v).slotCount = x.slotCount := rd_wr (by decide)

theorem slotCount_setSlotCount (x : Page) (v : Nat) :
    (x.setSlotCount v).slotCount = v % 2 ^ 16 := rd_wr_self (by decide)

@[simp] theorem tombstoneCount_setSlotCount (x : Page) (v : Nat) :
    (x.setSlotCount v).tombstoneCount = x.tombstoneCount := rd_wr (by decide)

@[simp] theorem tombstoneCount_setFreeSpacePtr (x : Page) (v : Nat) :
    (x.setFreeSpacePtr v).tombstoneCount = x.tombstoneCount := rd_wr (by decide)

@[simp] theorem tombstoneCount_setPageLsn (x : Page) (v : Nat) :
    (x.setPageLsn v).tombstoneCount = x.tombstoneCount := rd_wr (by decide)

theorem tombstoneCount_setTombstoneCount (x : Page) (v : Nat) :
    (x.setTombstoneCount v).tombstoneCount = v % 2 ^ 16 := rd_wr_self (by decide)

@[simp] theorem freeSpacePtr_setSlotCount (x : Page) (v : Nat) :
    (x.setSlotCount v).freeSpacePtr = x.freeSpacePtr := rd_wr (by decide)

@[simp] theorem freeSpacePtr_setTombstoneCount (x : Page) (v : Nat) :
    (x.setTombstoneCount v).freeSpacePtr = x.freeSpacePtr := rd_wr (by decide)

@[simp] theorem freeSpacePtr_setPageLsn (x : Page) (v : Nat) :
    (x.setPageLsn v).freeSpacePtr = x.freeSpacePtr := rd_wr (by decide)

theorem freeSpacePtr_setFreeSpacePtr (x : Page) (v : Nat) :
    (x.setFreeSpacePtr v).freeSpacePtr = v % 2 ^ 32 := rd_wr_self (by decide)

theorem pageLsn_wr {x : Page} {off n v : Nat} (h : off + n ≤ 13 ∨ headerSize ≤ off) :
    (x.wr off n v).pageLsn = x.pageLsn := by
  rw [pageLsn, rd_wr (by simp only [headerSize] at h; omega)]
  rfl

theorem pageLsn_memcpy {x : Page} {off : Nat} {data : Bytes} (h : headerSize ≤ off) :
    (x.memcpy off data).pageLsn = x.pageLsn := by
  rw [pageLsn, rd_memcpy (Or.inl h)]
  rfl

theorem pageLsn_setPageLsn (x : Page) (v : Nat) : (x.setPageLsn v).pageLsn = v := by
  have : (x.setPageLsn v).rd 13 8 = v % 2 ^ 64 := rd_wr_self (by decide)
  rw [pageLsn, this]
  exact Nat.mod_add_div v (2 ^ 64)

theorem setPageLsn_setPageLsn (x : Page) (v w : Nat) :
    (x.setPageLsn v).setPageLsn w = x.setPageLsn w := by
  have h : ({ x.wr 13 8 v with lsnHigh := v / 2 ^ 64 } : Page).wr 13 8 w =
      { (x.wr 13 8 v).wr 13 8 w with lsnHigh := v / 2 ^ 64 } := rfl
  simp only [setPageLsn, h, wr_wr]

theorem setPageLsn_stamp (x : Page) (l k : Nat) : (x.stamp l).setPageLsn k = x.setPageLsn k := by
  rw [stamp]
  split
  · rw [setPageLsn_setPageLsn]
  · rfl

-- ---------------------------------------------------------------------------
-- Pages with the same slots
-- ---------------------------------------------------------------------------

/-- The pages agree on the directory's bounds and on every byte past the header. -/
structure Same (x y : Page) : Prop where
  slots : x.slotCount = y.slotCount
  tombs : x.tombstoneCount = y.tombstoneCount
  front : x.frontier = y.frontier
  body : ∀ i, headerSize ≤ i → x.buf i = y.buf i

theorem Same.refl (x : Page) : Same x x := ⟨rfl, rfl, rfl, fun _ _ => rfl⟩

theorem Same.symm {x y : Page} (h : Same x y) : Same y x :=
  ⟨h.slots.symm, h.tombs.symm, h.front.symm, fun i hi => (h.body i hi).symm⟩

theorem Same.trans {x y z : Page} (h : Same x y) (h' : Same y z) : Same x z :=
  ⟨h.slots.trans h'.slots, h.tombs.trans h'.tombs, h.front.trans h'.front,
    fun i hi => (h.body i hi).trans (h'.body i hi)⟩

theorem same_setPageLsn (x : Page) (l : Nat) : Same (x.setPageLsn l) x :=
  ⟨by simp, by simp, by simp [frontier], fun _ hi => buf_wr_of_not_mem (Or.inr hi)⟩

theorem same_stamp (x : Page) (l : Nat) : Same (x.stamp l) x := by
  rw [stamp]
  split
  · exact same_setPageLsn x l
  · exact Same.refl x

theorem Same.setSlotCount {x y : Page} (h : Same x y) (v : Nat) :
    Same (x.setSlotCount v) (y.setSlotCount v) := by
  refine ⟨by rw [slotCount_setSlotCount, slotCount_setSlotCount], by simp [h.tombs], ?_, fun i hi => ?_⟩
  · simp only [frontier, freeSpacePtr_setSlotCount]
    exact h.front
  · simp only [headerSize] at hi
    rw [Page.setSlotCount, Page.setSlotCount, buf_wr_of_not_mem (by omega), buf_wr_of_not_mem (by omega),
      h.body i hi]

theorem Same.setTombstoneCount {x y : Page} (h : Same x y) (v : Nat) :
    Same (x.setTombstoneCount v) (y.setTombstoneCount v) := by
  refine ⟨by simp [h.slots], by rw [tombstoneCount_setTombstoneCount,
    tombstoneCount_setTombstoneCount], ?_, fun i hi => ?_⟩
  · simp only [frontier, freeSpacePtr_setTombstoneCount]
    exact h.front
  · simp only [headerSize] at hi
    rw [Page.setTombstoneCount, Page.setTombstoneCount, buf_wr_of_not_mem (by omega),
      buf_wr_of_not_mem (by omega), h.body i hi]

theorem Same.setFreeSpacePtr {x y : Page} (h : Same x y) (v : Nat) :
    Same (x.setFreeSpacePtr v) (y.setFreeSpacePtr v) := by
  refine ⟨by simp [h.slots], by simp [h.tombs], ?_, fun i hi => ?_⟩
  · simp only [frontier, freeSpacePtr_setFreeSpacePtr]
  · simp only [headerSize] at hi
    rw [Page.setFreeSpacePtr, Page.setFreeSpacePtr, buf_wr_of_not_mem (by omega),
      buf_wr_of_not_mem (by omega), h.body i hi]

/-- A write past the header leaves the header alone. -/
theorem header_memcpy (x : Page) {off : Nat} (data : Bytes) (ho : headerSize ≤ off) :
    (x.memcpy off data).slotCount = x.slotCount ∧
    (x.memcpy off data).tombstoneCount = x.tombstoneCount ∧
    (x.memcpy off data).freeSpacePtr = x.freeSpacePtr := by
  simp only [headerSize] at ho
  exact ⟨rd_memcpy (by omega), rd_memcpy (by omega), rd_memcpy (by omega)⟩

theorem Same.memcpy {x y : Page} {off : Nat} (h : Same x y) (ho : headerSize ≤ off)
    (data : Bytes) : Same (x.memcpy off data) (y.memcpy off data) := by
  obtain ⟨hx1, hx2, hx3⟩ := header_memcpy x data ho
  obtain ⟨hy1, hy2, hy3⟩ := header_memcpy y data ho
  refine ⟨by rw [hx1, hy1, h.slots], by rw [hx2, hy2, h.tombs], ?_, fun i hi => ?_⟩
  · simp only [frontier, hx3, hy3]
    exact h.front
  · simp only [Page.memcpy, blit]
    split
    · rfl
    · exact h.body i hi

-- ---------------------------------------------------------------------------
-- Well-formed pages
-- ---------------------------------------------------------------------------

/-- The slot exists and is not a tombstone. -/
def Live (x : Page) (s : Nat) : Prop := s < x.slotCount ∧ x.slotOff s ≠ slotTombstone

/-- The slots that are tombstones. -/
def tombstones (x : Page) : Finset Nat :=
  (Finset.range x.slotCount).filter fun s => x.slotOff s = slotTombstone

/-- What a slotted page keeps. -/
structure Wf (x : Page) : Prop where
  /-- The data region ends below the directory. -/
  room : x.frontier + slotBytes * x.slotCount ≤ pageSize
  tombs : x.tombstoneCount = x.tombstones.card
  /-- A live slot points into the data region. -/
  bounds : ∀ s, x.Live s → headerSize ≤ x.slotOff s ∧ x.slotOff s + 2 + x.slotLen s ≤ x.frontier
  /-- The size prefix and the slot agree. -/
  sizes : ∀ s, x.Live s → x.rd (x.slotOff s) 2 = x.slotLen s
  /-- Records do not overlap. -/
  apart : ∀ s s', s ≠ s' → x.Live s → x.Live s' →
    x.slotOff s + 2 + x.slotLen s ≤ x.slotOff s' ∨ x.slotOff s' + 2 + x.slotLen s' ≤ x.slotOff s

theorem tombstones_congr {x y : Page} (hn : y.slotCount = x.slotCount)
    (h : ∀ s, s < y.slotCount → y.slotOff s = x.slotOff s) : y.tombstones = x.tombstones := by
  ext s
  simp only [tombstones, Finset.mem_filter, Finset.mem_range]
  constructor
  · rintro ⟨hs, ho⟩
    exact ⟨hn ▸ hs, h s hs ▸ ho⟩
  · rintro ⟨hs, ho⟩
    rw [← hn] at hs
    exact ⟨hs, by rw [h s hs]; exact ho⟩

theorem slotOffset_eq {s : Nat} (h : slotBytes * (s + 1) ≤ pageSize) :
    slotOffset s = pageSize - slotBytes * (s + 1) := by
  simp only [slotOffset, slotBytes, pageSize] at h ⊢
  omega

theorem headerSize_le_frontier (x : Page) : headerSize ≤ x.frontier := Nat.le_max_right _ _

/-- A slot entry lies past the header. -/
theorem headerSize_le_slotOffset {s : Nat} (h : headerSize + slotBytes * (s + 1) ≤ pageSize) :
    headerSize ≤ slotOffset s := by
  rw [slotOffset_eq (by omega)]
  omega

theorem Wf.slot_room {x : Page} (hw : Wf x) {s : Nat} (hs : s < x.slotCount) :
    x.frontier + slotBytes * (s + 1) ≤ pageSize := by
  have h := hw.room
  simp only [slotBytes] at h ⊢
  omega

theorem Same.slotOff {x y : Page} (h : Same x y) {s : Nat}
    (hs : headerSize + slotBytes * (s + 1) ≤ pageSize) : x.slotOff s = y.slotOff s :=
  rd_congr h.body (headerSize_le_slotOffset hs)

theorem Same.slotLen {x y : Page} (h : Same x y) {s : Nat}
    (hs : headerSize + slotBytes * (s + 1) ≤ pageSize) : x.slotLen s = y.slotLen s :=
  rd_congr h.body (Nat.le_trans (headerSize_le_slotOffset hs) (Nat.le_add_right _ _))

theorem Wf.header_room {x : Page} (hw : Wf x) {s : Nat} (hs : s < x.slotCount) :
    headerSize + slotBytes * (s + 1) ≤ pageSize :=
  Nat.le_trans (Nat.add_le_add_right x.headerSize_le_frontier _) (hw.slot_room hs)

theorem Wf.of_same {x y : Page} (hw : Wf x) (h : Same x y) : Wf y := by
  have hoff : ∀ {s}, s < y.slotCount → y.slotOff s = x.slotOff s :=
    fun hs => (h.slotOff (hw.header_room (h.slots ▸ hs))).symm
  have hlen : ∀ {s}, s < y.slotCount → y.slotLen s = x.slotLen s :=
    fun hs => (h.slotLen (hw.header_room (h.slots ▸ hs))).symm
  have hlive : ∀ {s}, y.Live s → x.Live s :=
    fun hs => ⟨h.slots ▸ hs.1, hoff hs.1 ▸ hs.2⟩
  refine ⟨?_, ?_, ?_, ?_, ?_⟩
  · rw [← h.front, ← h.slots]
    exact hw.room
  · rw [← h.tombs, hw.tombs, tombstones_congr h.slots.symm fun s hs => hoff hs]
  · intro s hs
    rw [hoff hs.1, hlen hs.1, ← h.front]
    exact hw.bounds s (hlive hs)
  · intro s hs
    rw [hoff hs.1, hlen hs.1, ← rd_congr h.body (hw.bounds s (hlive hs)).1]
    exact hw.sizes s (hlive hs)
  · intro s s' hne hs hs'
    rw [hoff hs.1, hlen hs.1, hoff hs'.1, hlen hs'.1]
    exact hw.apart s s' hne (hlive hs) (hlive hs')

/-- On a well-formed page `read_record` gives the payload of every live slot. -/
theorem readRecord_live {x : Page} (hw : Wf x) {s : Nat} (hs : x.Live s) :
    x.readRecord s = some (slice x.buf (x.slotOff s + 2) (x.slotLen s)) := by
  obtain ⟨h1, h2⟩ := hw.bounds s hs
  have h3 := hw.room
  have h4 : (x.slotOff s + 2 + x.slotLen s) % 2 ^ 32 = x.slotOff s + 2 + x.slotLen s := by
    simp only [pageSize] at h3
    omega
  rw [readRecord, if_neg (by have := hs.1; omega), if_neg hs.2, if_neg (by omega), h4, if_neg (by omega),
    if_neg (by rw [hw.sizes s hs]; simp)]

theorem readRecord_of_not_live {x : Page} {s : Nat} (hs : ¬ x.Live s) : x.readRecord s = none := by
  rw [readRecord]
  split
  · rfl
  · rename_i hlt
    rw [if_pos (by by_contra hne; exact hs ⟨by omega, hne⟩)]

theorem live_iff_read {x : Page} (hw : Wf x) {s : Nat} :
    x.Live s ↔ ∃ old, x.readRecord s = some old := by
  constructor
  · exact fun hs => ⟨_, readRecord_live hw hs⟩
  · rintro ⟨old, ho⟩
    by_contra hs
    rw [readRecord_of_not_live hs] at ho
    cases ho

/-- Pages with the same live slots and the same bytes behind them read the same. -/
theorem read_congr {x y : Page} (hx : Wf x) (hy : Wf y) {s : Nat} (hlive : x.Live s ↔ y.Live s)
    (h : x.Live s → slice x.buf (x.slotOff s + 2) (x.slotLen s) =
      slice y.buf (y.slotOff s + 2) (y.slotLen s)) : x.readRecord s = y.readRecord s := by
  by_cases hs : x.Live s
  · rw [readRecord_live hx hs, readRecord_live hy (hlive.mp hs), h hs]
  · rw [readRecord_of_not_live hs, readRecord_of_not_live (fun h' => hs (hlive.mpr h'))]

theorem Same.read {x y : Page} (h : Same x y) (hw : Wf x) (s : Nat) :
    x.readRecord s = y.readRecord s := by
  have hlive : x.Live s ↔ y.Live s := by
    constructor
    · exact fun hs => ⟨h.slots ▸ hs.1, h.slotOff (hw.header_room hs.1) ▸ hs.2⟩
    · intro hs
      have hs1 : s < x.slotCount := h.slots ▸ hs.1
      exact ⟨hs1, h.slotOff (hw.header_room hs1) ▸ hs.2⟩
  refine read_congr hw (hw.of_same h) hlive fun hs => ?_
  have hr := hw.header_room hs.1
  rw [← h.slotOff hr, ← h.slotLen hr]
  exact slice_congr fun i hi _ => h.body i (Nat.le_trans (hw.bounds s hs).1 (by omega))

-- ---------------------------------------------------------------------------
-- Writing a slot entry
-- ---------------------------------------------------------------------------

section WriteSlot

variable {x : Page} {s : Nat} (hs : headerSize + slotBytes * (s + 1) ≤ pageSize) (o l : Nat)

include hs

theorem header_writeSlot : (x.writeSlot s o l).slotCount = x.slotCount ∧
    (x.writeSlot s o l).tombstoneCount = x.tombstoneCount ∧
    (x.writeSlot s o l).freeSpacePtr = x.freeSpacePtr := by
  have ho := headerSize_le_slotOffset hs
  obtain ⟨h1, h2, h3⟩ := header_memcpy x (leBytes 4 o) ho
  obtain ⟨h1', h2', h3'⟩ := header_memcpy (x.wr (slotOffset s) 4 o) (leBytes 2 l)
    (Nat.le_trans ho (Nat.le_add_right _ 4))
  exact ⟨h1'.trans h1, h2'.trans h2, h3'.trans h3⟩

theorem Same.writeSlot {y : Page} (h : Same x y) : Same (x.writeSlot s o l) (y.writeSlot s o l) := by
  have ho := headerSize_le_slotOffset hs
  exact (h.memcpy ho _).memcpy (Nat.le_trans ho (Nat.le_add_right _ 4)) _

omit hs in
theorem rd_writeSlot {off n : Nat} (h : off + n ≤ slotOffset s ∨ slotOffset s + 6 ≤ off) :
    (x.writeSlot s o l).rd off n = x.rd off n := by
  rw [Page.writeSlot, rd_wr (by omega), rd_wr (by omega)]

omit hs in
theorem slice_writeSlot {off n : Nat} (h : off + n ≤ slotOffset s) :
    slice (x.writeSlot s o l).buf off n = slice x.buf off n := by
  rw [Page.writeSlot, slice_wr (by omega), slice_wr (by omega)]

theorem slotOff_writeSlot_self : (x.writeSlot s o l).slotOff s = o % 2 ^ 32 := by
  have h := slotOffset_eq (s := s) (by omega)
  simp only [slotBytes, pageSize, headerSize] at hs h
  rw [Page.slotOff, Page.writeSlot, rd_wr (by omega)]
  exact rd_wr_self (by simp only [pageSize]; omega)

theorem slotLen_writeSlot_self : (x.writeSlot s o l).slotLen s = l % 2 ^ 16 := by
  have h := slotOffset_eq (s := s) (by omega)
  simp only [slotBytes, pageSize, headerSize] at hs h
  rw [Page.slotLen, Page.writeSlot]
  exact rd_wr_self (by simp only [pageSize]; omega)

theorem slot_writeSlot_ne {s' : Nat} (hs' : headerSize + slotBytes * (s' + 1) ≤ pageSize)
    (hne : s' ≠ s) : (x.writeSlot s o l).slotOff s' = x.slotOff s' ∧
    (x.writeSlot s o l).slotLen s' = x.slotLen s' := by
  have h := slotOffset_eq (s := s) (by omega)
  have h' := slotOffset_eq (s := s') (by omega)
  simp only [slotBytes, pageSize, headerSize] at hs hs' h h'
  exact ⟨rd_writeSlot _ _ (by omega), rd_writeSlot _ _ (by omega)⟩

end WriteSlot

/-- The header's own setters leave every byte past the header. -/
theorem body_header_wr {x : Page} {off n v i : Nat} (ho : off + n ≤ headerSize) (hi : headerSize ≤ i) :
    (x.wr off n v).buf i = x.buf i := buf_wr_of_not_mem (Or.inr (Nat.le_trans ho hi))

-- ---------------------------------------------------------------------------
-- `delete_record`
-- ---------------------------------------------------------------------------

/-- `delete_record` on a live slot, before the stamp. -/
def deleted (x : Page) (s : Nat) : Page :=
  (x.markTombstone s).setTombstoneCount ((x.markTombstone s).tombstoneCount + 1)

theorem deleteRecord_eq (x : Page) (s l : Nat) : (x.deleteRecord s l).1 =
    if s < x.slotCount ∧ x.slotOff s ≠ slotTombstone then (x.deleted s).stamp l else x := by
  rw [deleteRecord]
  split
  · rw [if_neg (by omega)]
  · split
    · rename_i h
      rw [if_neg (fun h' => h'.2 h)]
    · rename_i h1 h2
      rw [if_pos ⟨by omega, h2⟩]
      rfl

theorem Same.deleted {x y : Page} (h : Same x y) {s : Nat}
    (hs : headerSize + slotBytes * (s + 1) ≤ pageSize) : Same (x.deleted s) (y.deleted s) := by
  have hm : Same (x.markTombstone s) (y.markTombstone s) := Same.writeSlot hs _ _ h
  rw [Page.deleted, Page.deleted, hm.tombs]
  exact hm.setTombstoneCount _

section Deleted

variable {x : Page} (hw : Wf x) {s : Nat} (hs : x.Live s)

include hw hs

theorem slots_deleted : (x.deleted s).slotCount = x.slotCount ∧
    (x.deleted s).frontier = x.frontier ∧ ∀ s', s' < x.slotCount →
      (x.deleted s).slotOff s' = (if s' = s then slotTombstone else x.slotOff s') ∧
      (s' ≠ s → (x.deleted s).slotLen s' = x.slotLen s') := by
  have hr := hw.header_room hs.1
  obtain ⟨h1, h2, h3⟩ := header_writeSlot (x := x) hr slotTombstone 0
  refine ⟨by rw [deleted, slotCount_setTombstoneCount]; exact h1, ?_, fun s' hs' => ?_⟩
  · rw [frontier, deleted, freeSpacePtr_setTombstoneCount]
    simp only [markTombstone, h3]
    rfl
  · have hr' := hw.header_room hs'
    have hoff : (x.deleted s).slotOff s' = (x.writeSlot s slotTombstone 0).slotOff s' :=
      rd_congr (fun i => body_header_wr (by decide)) (headerSize_le_slotOffset hr')
    have hlen : (x.deleted s).slotLen s' = (x.writeSlot s slotTombstone 0).slotLen s' :=
      rd_congr (fun i => body_header_wr (by decide))
        (Nat.le_trans (headerSize_le_slotOffset hr') (Nat.le_add_right _ _))
    refine ⟨?_, fun hne => ?_⟩
    · rw [hoff]
      split
      · rename_i heq
        subst heq
        rw [slotOff_writeSlot_self hr']
        rfl
      · rename_i hne
        exact (slot_writeSlot_ne hr _ _ hr' hne).1
    · rw [hlen]
      exact (slot_writeSlot_ne hr _ _ hr' hne).2

theorem live_deleted {s' : Nat} : (x.deleted s).Live s' ↔ s' ≠ s ∧ x.Live s' := by
  obtain ⟨h1, -, h3⟩ := slots_deleted hw hs
  constructor
  · rintro ⟨hlt, hoff⟩
    rw [h1] at hlt
    rw [(h3 s' hlt).1] at hoff
    split at hoff
    · exact absurd rfl hoff
    · rename_i hne
      exact ⟨hne, hlt, hoff⟩
  · rintro ⟨hne, hlt, hoff⟩
    refine ⟨by rw [h1]; exact hlt, ?_⟩
    rw [(h3 s' hlt).1, if_neg hne]
    exact hoff

/-- The data region of a page is not touched by `delete_record`. -/
theorem data_deleted {off n : Nat} (h1 : headerSize ≤ off) (h2 : off + n ≤ x.frontier) :
    (x.deleted s).rd off n = x.rd off n ∧ slice (x.deleted s).buf off n = slice x.buf off n := by
  have hr := hw.slot_room hs.1
  have ho := slotOffset_eq (s := s) (by omega)
  have hd : off + n ≤ slotOffset s := by omega
  have hbody : ∀ i, headerSize ≤ i → (x.deleted s).buf i = (x.markTombstone s).buf i :=
    fun i => body_header_wr (by decide)
  constructor
  · rw [rd_congr hbody h1]
    exact rd_writeSlot _ _ (Or.inl hd)
  · rw [slice_congr fun i hi _ => hbody i (by omega)]
    exact slice_writeSlot _ _ hd

theorem tombstones_deleted : (x.deleted s).tombstoneCount = (x.deleted s).tombstones.card := by
  obtain ⟨h1, -, h3⟩ := slots_deleted hw hs
  have hset : (x.deleted s).tombstones = insert s x.tombstones := by
    ext s'
    simp only [tombstones, Finset.mem_filter, Finset.mem_range, Finset.mem_insert, h1]
    constructor
    · rintro ⟨hlt, hoff⟩
      rw [(h3 s' hlt).1] at hoff
      split at hoff
      · exact Or.inl (by assumption)
      · exact Or.inr ⟨hlt, hoff⟩
    · rintro (rfl | ⟨hlt, hoff⟩)
      · exact ⟨hs.1, by rw [(h3 s' hs.1).1, if_pos rfl]⟩
      · refine ⟨hlt, ?_⟩
        rw [(h3 s' hlt).1]
        split
        · rfl
        · exact hoff
  have hnot : s ∉ x.tombstones := by
    simp only [tombstones, Finset.mem_filter, not_and]
    exact fun _ => hs.2
  have hle : x.tombstones.card ≤ x.slotCount := by
    have := Finset.card_filter_le (Finset.range x.slotCount) fun s => x.slotOff s = slotTombstone
    rwa [Finset.card_range] at this
  have hroom := hw.room
  simp only [slotBytes, pageSize] at hroom
  have htc : (x.markTombstone s).tombstoneCount = x.tombstoneCount :=
    (header_writeSlot (hw.header_room hs.1) _ _).2.1
  rw [hset, Finset.card_insert_of_notMem hnot, deleted, tombstoneCount_setTombstoneCount, htc,
    hw.tombs, Nat.mod_eq_of_lt (by omega)]

theorem wf_deleted : Wf (x.deleted s) := by
  obtain ⟨h1, h2, h3⟩ := slots_deleted hw hs
  have key : ∀ {s'}, (x.deleted s).Live s' → x.Live s' ∧
      (x.deleted s).slotOff s' = x.slotOff s' ∧ (x.deleted s).slotLen s' = x.slotLen s' := by
    intro s' hl
    obtain ⟨hne, hl'⟩ := (live_deleted hw hs).mp hl
    obtain ⟨ho, hlen⟩ := h3 s' hl'.1
    rw [if_neg hne] at ho
    exact ⟨hl', ho, hlen hne⟩
  refine ⟨by rw [h1, h2]; exact hw.room, tombstones_deleted hw hs, ?_, ?_, ?_⟩
  · intro s' hl
    obtain ⟨hl', ho, hlen⟩ := key hl
    rw [ho, hlen, h2]
    exact hw.bounds s' hl'
  · intro s' hl
    obtain ⟨hl', ho, hlen⟩ := key hl
    obtain ⟨hb1, hb2⟩ := hw.bounds s' hl'
    rw [ho, hlen, (data_deleted hw hs hb1 (by omega)).1]
    exact hw.sizes s' hl'
  · intro s' s'' hne hl hl'
    obtain ⟨k1, k2, k3⟩ := key hl
    obtain ⟨k1', k2', k3'⟩ := key hl'
    rw [k2, k3, k2', k3']
    exact hw.apart s' s'' hne k1 k1'

theorem read_deleted (s' : Nat) :
    (x.deleted s).readRecord s' = if s' = s then none else x.readRecord s' := by
  split
  · rename_i heq
    rw [readRecord_of_not_live]
    exact fun h => ((live_deleted hw hs).mp h).1 heq
  · rename_i hne
    have hlive : (x.deleted s).Live s' ↔ x.Live s' :=
      (live_deleted hw hs).trans (and_iff_right hne)
    refine read_congr (wf_deleted hw hs) hw hlive fun hl => ?_
    have hl' := hlive.mp hl
    obtain ⟨ho, hlen⟩ := (slots_deleted hw hs).2.2 s' hl'.1
    obtain ⟨hb1, hb2⟩ := hw.bounds s' hl'
    rw [if_neg hne] at ho
    rw [ho, hlen hne, (data_deleted hw hs (by omega) (by omega)).2]

end Deleted

-- ---------------------------------------------------------------------------
-- `update_record`
-- ---------------------------------------------------------------------------

/-- `update_record` on a live slot, before the stamp. -/
def updated (x : Page) (s : Nat) (data : Bytes) : Page :=
  x.memcpy (x.slotOff s + 2) (data.take (data.length % 2 ^ 16))

theorem updateRecord_eq (x : Page) (s : Nat) (data : Bytes) (l : Nat) : x.updateRecord s data l =
    if s < x.slotCount ∧ x.slotOff s ≠ slotTombstone ∧ data.length % 2 ^ 16 = x.slotLen s then
      ((x.updated s data).stamp l, true) else (x, false) := by
  rw [updateRecord]
  split
  · rw [if_neg (by omega)]
  · split
    · rename_i h
      rw [if_neg (fun h' => h'.2.1 h)]
    · split
      · rename_i h
        rw [if_neg (fun h' => h h'.2.2)]
      · rename_i h1 h2 h3
        rw [if_pos ⟨by omega, h2, not_not.mp h3⟩]
        rfl

section Updated

variable {x : Page} (hw : Wf x) {s : Nat} (hs : x.Live s) {data : Bytes}
  (hlen : data.length % 2 ^ 16 = x.slotLen s)

include hw hs hlen

omit hw hs in
/-- What `update_record` writes stays inside the record. -/
theorem rd_updated {off n : Nat}
    (h : off + n ≤ x.slotOff s + 2 ∨ x.slotOff s + 2 + x.slotLen s ≤ off) :
    (x.updated s data).rd off n = x.rd off n ∧
    slice (x.updated s data).buf off n = slice x.buf off n := by
  have hd : (data.take (data.length % 2 ^ 16)).length ≤ x.slotLen s := by
    rw [List.length_take]
    omega
  exact ⟨rd_memcpy (by omega), slice_memcpy (by omega)⟩

theorem slots_updated : (x.updated s data).slotCount = x.slotCount ∧
    (x.updated s data).tombstoneCount = x.tombstoneCount ∧
    (x.updated s data).frontier = x.frontier ∧ ∀ s', s' < x.slotCount →
      (x.updated s data).slotOff s' = x.slotOff s' ∧
      (x.updated s data).slotLen s' = x.slotLen s' := by
  obtain ⟨hb1, hb2⟩ := hw.bounds s hs
  have ho : headerSize ≤ x.slotOff s + 2 := by omega
  obtain ⟨h1, h2, h3⟩ := header_memcpy x (data.take (data.length % 2 ^ 16)) ho
  refine ⟨h1, h2, by rw [frontier, updated, h3]; rfl, fun s' hs' => ?_⟩
  have hr := hw.slot_room hs'
  have ho := slotOffset_eq (s := s') (by omega)
  exact ⟨(rd_updated hlen (by omega)).1, (rd_updated hlen (by omega)).1⟩

theorem live_updated {s' : Nat} : (x.updated s data).Live s' ↔ x.Live s' := by
  obtain ⟨h1, -, -, h4⟩ := slots_updated hw hs hlen
  constructor
  · rintro ⟨hlt, hoff⟩
    rw [h1] at hlt
    exact ⟨hlt, (h4 s' hlt).1 ▸ hoff⟩
  · rintro ⟨hlt, hoff⟩
    exact ⟨h1 ▸ hlt, by rw [(h4 s' hlt).1]; exact hoff⟩

theorem wf_updated : Wf (x.updated s data) := by
  obtain ⟨h1, h2, h3, h4⟩ := slots_updated hw hs hlen
  have hlive := @live_updated x hw s hs data hlen
  refine ⟨by rw [h1, h3]; exact hw.room, ?_, ?_, ?_, ?_⟩
  · rw [h2, hw.tombs, tombstones_congr h1 fun s' hs' => (h4 s' (h1 ▸ hs')).1]
  · intro s' hl
    have hl' := hlive.mp hl
    rw [(h4 s' hl'.1).1, (h4 s' hl'.1).2, h3]
    exact hw.bounds s' hl'
  · intro s' hl
    have hl' := hlive.mp hl
    rw [(h4 s' hl'.1).1, (h4 s' hl'.1).2, (rd_updated hlen ?_).1]
    · exact hw.sizes s' hl'
    · by_cases heq : s' = s
      · exact Or.inl (by rw [heq])
      · rcases hw.apart s' s heq hl' hs with h | h
        · exact Or.inl (by omega)
        · exact Or.inr h
  · intro s' s'' hne hl hl'
    have k := hlive.mp hl
    have k' := hlive.mp hl'
    rw [(h4 s' k.1).1, (h4 s' k.1).2, (h4 s'' k'.1).1, (h4 s'' k'.1).2]
    exact hw.apart s' s'' hne k k'

theorem read_updated (hsize : data.length < 2 ^ 16) (s' : Nat) :
    (x.updated s data).readRecord s' = if s' = s then some data else x.readRecord s' := by
  obtain ⟨h1, -, -, h4⟩ := slots_updated hw hs hlen
  have hwu := wf_updated hw hs hlen
  split
  · rename_i heq
    subst heq
    rw [readRecord_live hwu ((live_updated hw hs hlen).mpr hs), (h4 s' hs.1).1, (h4 s' hs.1).2,
      ← hlen, Nat.mod_eq_of_lt hsize]
    have hb := (hw.bounds s' hs).2
    have hroom := hw.room
    rw [Nat.mod_eq_of_lt hsize] at hlen
    rw [updated, Nat.mod_eq_of_lt hsize, List.take_length, slice_memcpy_self (by omega)]
  · rename_i hne
    refine read_congr hwu hw (live_updated hw hs hlen) fun hl => ?_
    have hl' := (live_updated hw hs hlen).mp hl
    rw [(h4 s' hl'.1).1, (h4 s' hl'.1).2, (rd_updated hlen ?_).2]
    rcases hw.apart s' s hne hl' hs with h | h
    · exact Or.inl (by omega)
    · exact Or.inr (by omega)

end Updated

-- ---------------------------------------------------------------------------
-- `redo_insert`
-- ---------------------------------------------------------------------------

/-- The guard of `redo_insert`. -/
def guarded (x : Page) : Page :=
  if x.freeSpacePtr < headerSize then x.setFreeSpacePtr headerSize else x

theorem freeSpacePtr_guarded (x : Page) : x.guarded.freeSpacePtr = x.frontier := by
  rw [guarded, frontier]
  split
  · rw [freeSpacePtr_setFreeSpacePtr, Nat.max_eq_right (by omega)]
    rfl
  · rw [Nat.max_eq_left (by omega)]

theorem same_guarded (x : Page) : Same x.guarded x := by
  refine ⟨?_, ?_, ?_, fun i hi => ?_⟩
  · rw [guarded]
    split
    · rw [slotCount_setFreeSpacePtr]
    · rfl
  · rw [guarded]
    split
    · rw [tombstoneCount_setFreeSpacePtr]
    · rfl
  · rw [frontier, freeSpacePtr_guarded, frontier]
    omega
  · rw [guarded]
    split
    · exact body_header_wr (by decide) hi
    · rfl

theorem pageLsn_guarded (x : Page) : x.guarded.pageLsn = x.pageLsn := by
  rw [guarded]
  split
  · exact pageLsn_wr (by decide)
  · rfl

/-- `slot_count` and `tombstone_count` as `redo_insert` leaves them. -/
def counted (y : Page) (s : Nat) : Page :=
  if s ≥ y.slotCount then y.setSlotCount (s + 1)
  else if y.slotOff s = slotTombstone then
    y.setTombstoneCount ((y.tombstoneCount + 2 ^ 16 - 1) % 2 ^ 16)
  else y

/-- `redo_insert` before the stamp. -/
def placed (x : Page) (s : Nat) (data : Bytes) : Page :=
  ((x.guarded.writeData data (data.length % 2 ^ 16)).counted s).writeSlot s x.guarded.freeSpacePtr
    (data.length % 2 ^ 16)

theorem redoInsert_eq (x : Page) (s : Nat) (data : Bytes) (l : Nat) :
    x.redoInsert s data l = (x.placed s data).stamp l := rfl

theorem fits_iff {x : Page} {s : Nat} {data : Bytes} : x.fits s data = true ↔ s ≤ x.slotCount ∧
    x.frontier + 2 + data.length + slotBytes * max x.slotCount (s + 1) ≤ pageSize := by
  rw [fits, decide_eq_true_eq]

theorem buf_counted (y : Page) (s : Nat) {i : Nat} (hi : headerSize ≤ i) :
    (y.counted s).buf i = y.buf i := by
  rw [counted]
  split
  · exact body_header_wr (by decide) hi
  · split
    · exact body_header_wr (by decide) hi
    · rfl

theorem freeSpacePtr_counted (y : Page) (s : Nat) :
    (y.counted s).freeSpacePtr = y.freeSpacePtr := by
  rw [counted]
  split
  · rw [freeSpacePtr_setSlotCount]
  · split
    · rw [freeSpacePtr_setTombstoneCount]
    · rfl

theorem frontier_of_freeSpacePtr {x : Page} {v : Nat} (h : x.freeSpacePtr = v)
    (hv : headerSize ≤ v) : x.frontier = v := by
  rw [frontier, h, Nat.max_eq_left hv]

section WriteData

variable {x : Page} (hF : headerSize ≤ x.freeSpacePtr) (data : Bytes)
  (hroom : x.freeSpacePtr + 2 + data.length ≤ pageSize)

include hF

theorem header_writeData : (x.writeData data data.length).slotCount = x.slotCount ∧
    (x.writeData data data.length).tombstoneCount = x.tombstoneCount ∧
    (x.writeData data data.length).pageLsn = x.pageLsn := by
  have hF' : headerSize ≤ x.freeSpacePtr + 2 := by omega
  obtain ⟨h1, h2, -⟩ := header_memcpy x (leBytes 2 data.length) hF
  obtain ⟨h1', h2', -⟩ := header_memcpy (x.wr x.freeSpacePtr 2 data.length)
    (data.take data.length) hF'
  refine ⟨?_, ?_, ?_⟩
  · rw [writeData, slotCount_setFreeSpacePtr, h1']
    exact h1
  · rw [writeData, tombstoneCount_setFreeSpacePtr, h2']
    exact h2
  · rw [writeData, setFreeSpacePtr, pageLsn_wr (by decide), pageLsn_memcpy (by omega),
      pageLsn_wr (Or.inr hF)]

omit hF in
theorem rd_writeData {off n : Nat} (h1 : headerSize ≤ off)
    (h : off + n ≤ x.freeSpacePtr ∨ x.freeSpacePtr + 2 + data.length ≤ off) :
    (x.writeData data data.length).rd off n = x.rd off n ∧
    slice (x.writeData data data.length).buf off n = slice x.buf off n := by
  have hbody : ∀ i, headerSize ≤ i → (x.writeData data data.length).buf i =
      ((x.wr x.freeSpacePtr 2 data.length).memcpy (x.freeSpacePtr + 2)
        (data.take data.length)).buf i := fun i => body_header_wr (by decide)
  rw [List.take_length] at hbody
  constructor
  · rw [rd_congr hbody h1, rd_memcpy (by omega), rd_wr (by omega)]
  · rw [slice_congr fun i hi _ => hbody i (by omega), slice_memcpy (by omega), slice_wr (by omega)]

include hroom

omit hF in
theorem freeSpacePtr_writeData :
    (x.writeData data data.length).freeSpacePtr = x.freeSpacePtr + 2 + data.length := by
  simp only [pageSize] at hroom
  rw [writeData, freeSpacePtr_setFreeSpacePtr, Nat.mod_eq_of_lt (by omega)]

theorem rd_writeData_self : (x.writeData data data.length).rd x.freeSpacePtr 2 = data.length ∧
    slice (x.writeData data data.length).buf (x.freeSpacePtr + 2) data.length = data := by
  have hbody : ∀ i, headerSize ≤ i → (x.writeData data data.length).buf i =
      ((x.wr x.freeSpacePtr 2 data.length).memcpy (x.freeSpacePtr + 2)
        (data.take data.length)).buf i := fun i => body_header_wr (by decide)
  rw [List.take_length] at hbody
  constructor
  · rw [rd_congr hbody hF, rd_memcpy (by omega), rd_wr_self (by omega), Nat.mod_eq_of_lt]
    simp only [pageSize] at hroom
    omega
  · rw [slice_congr fun i hi _ => hbody i (by omega), slice_memcpy_self (by omega)]

end WriteData

section Placed

variable {x : Page} (hw : Wf x) {s : Nat} {data : Bytes} (hf : x.fits s data = true)

include hf

/-- The slot's entry lies in the page, above what is written for it. -/
theorem fits_room : x.frontier + 2 + data.length ≤ slotOffset s ∧
    headerSize + slotBytes * (s + 1) ≤ pageSize ∧ data.length % 2 ^ 16 = data.length := by
  obtain ⟨-, h⟩ := fits_iff.mp hf
  have hF := x.headerSize_le_frontier
  have hmax : slotBytes * (s + 1) ≤ slotBytes * max x.slotCount (s + 1) :=
    Nat.mul_le_mul_left _ (Nat.le_max_right _ _)
  have hbound : data.length < 2 ^ 16 := by
    simp only [pageSize] at h
    omega
  rw [slotOffset_eq (by omega)]
  exact ⟨by omega, by omega, Nat.mod_eq_of_lt hbound⟩

/-- Below the entries of the page with the slot in it. -/
theorem fits_slot_room {s' : Nat} (hs' : s' < max x.slotCount (s + 1)) :
    x.frontier + 2 + data.length ≤ slotOffset s' ∧ headerSize + slotBytes * (s' + 1) ≤ pageSize := by
  obtain ⟨-, h⟩ := fits_iff.mp hf
  have hF := x.headerSize_le_frontier
  have hmax : slotBytes * (s' + 1) ≤ slotBytes * max x.slotCount (s + 1) :=
    Nat.mul_le_mul_left _ hs'
  rw [slotOffset_eq (by omega)]
  exact ⟨by omega, by omega⟩

theorem placed_eq : x.placed s data =
    ((x.guarded.writeData data data.length).counted s).writeSlot s x.frontier data.length := by
  rw [placed, (fits_room hf).2.2, freeSpacePtr_guarded]

theorem rd_placed {off n : Nat} (h1 : headerSize ≤ off) (h2 : off + n ≤ slotOffset s)
    (h : off + n ≤ x.frontier ∨ x.frontier + 2 + data.length ≤ off) :
    (x.placed s data).rd off n = x.rd off n ∧
    slice (x.placed s data).buf off n = slice x.buf off n := by
  have hbody := fun i => buf_counted (x.guarded.writeData data data.length) s (i := i)
  obtain ⟨k1, k2⟩ := rd_writeData (x := x.guarded) data (n := n) h1
    (by rw [freeSpacePtr_guarded]; exact h)
  rw [placed_eq hf]
  constructor
  · rw [rd_writeSlot _ _ (Or.inl h2), rd_congr hbody h1, k1, rd_congr (same_guarded x).body h1]
  · rw [slice_writeSlot _ _ h2, slice_congr fun i hi _ => hbody i (by omega), k2,
      slice_congr fun i hi _ => (same_guarded x).body i (by omega)]

theorem rd_placed_self : (x.placed s data).rd x.frontier 2 = data.length ∧
    slice (x.placed s data).buf (x.frontier + 2) data.length = data := by
  obtain ⟨hr1, hr2, -⟩ := fits_room hf
  have hso := slotOffset_eq (s := s) (by omega)
  have hF := x.headerSize_le_frontier
  have hbody := fun i => buf_counted (x.guarded.writeData data data.length) s (i := i)
  obtain ⟨k1, k2⟩ := rd_writeData_self (x := x.guarded)
    (by rw [freeSpacePtr_guarded]; exact hF) data (by rw [freeSpacePtr_guarded]; omega)
  rw [freeSpacePtr_guarded] at k1 k2
  rw [placed_eq hf]
  constructor
  · rw [rd_writeSlot _ _ (Or.inl (by omega)), rd_congr hbody hF, k1]
  · rw [slice_writeSlot _ _ hr1, slice_congr fun i hi _ => hbody i (by omega), k2]

theorem slot_placed_self : (x.placed s data).slotOff s = x.frontier ∧
    (x.placed s data).slotLen s = data.length := by
  obtain ⟨hr1, hr2, hr3⟩ := fits_room hf
  have hso := slotOffset_eq (s := s) (by omega)
  rw [placed_eq hf, slotOff_writeSlot_self hr2, slotLen_writeSlot_self hr2, hr3]
  simp only [pageSize] at hso
  exact ⟨Nat.mod_eq_of_lt (by omega), rfl⟩

theorem slot_placed_ne {s' : Nat} (hs' : s' < max x.slotCount (s + 1)) (hne : s' ≠ s) :
    (x.placed s data).slotOff s' = x.slotOff s' ∧ (x.placed s data).slotLen s' = x.slotLen s' := by
  obtain ⟨hr1, hr2, -⟩ := fits_room hf
  obtain ⟨hq1, hq2⟩ := fits_slot_room hf hs'
  have hF := x.headerSize_le_frontier
  have hbody := fun i => buf_counted (x.guarded.writeData data data.length) s (i := i)
  -- the entry is above the data region
  have key : ∀ {off n : Nat}, x.frontier + 2 + data.length ≤ off →
      ((x.guarded.writeData data data.length).counted s).rd off n = x.rd off n := by
    intro off n ho
    rw [rd_congr hbody (by omega), (rd_writeData (x := x.guarded) data (by omega)
      (by rw [freeSpacePtr_guarded]; exact Or.inr ho)).1, rd_congr (same_guarded x).body (by omega)]
  obtain ⟨k1, k2⟩ := slot_writeSlot_ne (x := (x.guarded.writeData data data.length).counted s) hr2
    x.frontier data.length hq2 hne
  rw [placed_eq hf, k1, k2]
  exact ⟨key hq1, key (by omega)⟩

theorem header_placed : (x.placed s data).slotCount = max x.slotCount (s + 1) ∧
    (x.placed s data).frontier = x.frontier + 2 + data.length := by
  obtain ⟨hr1, hr2, -⟩ := fits_room hf
  obtain ⟨hsn, -⟩ := fits_iff.mp hf
  have hso := slotOffset_eq (s := s) (by omega)
  have hF := x.headerSize_le_frontier
  have hg : headerSize ≤ x.guarded.freeSpacePtr := by rwa [freeSpacePtr_guarded]
  obtain ⟨k1, -, -⟩ := header_writeData hg data
  have k4 := freeSpacePtr_writeData (x := x.guarded) data
    (by rw [freeSpacePtr_guarded]; omega)
  rw [freeSpacePtr_guarded] at k4
  rw [(same_guarded x).slots] at k1
  obtain ⟨w1, -, w3⟩ := header_writeSlot (x := (x.guarded.writeData data data.length).counted s) hr2
    x.frontier data.length
  have hfree : (x.placed s data).freeSpacePtr = x.frontier + 2 + data.length := by
    rw [placed_eq hf, w3, freeSpacePtr_counted, k4]
  refine ⟨?_, frontier_of_freeSpacePtr hfree (by omega)⟩
  simp only [pageSize, slotBytes, headerSize] at hr2
  rw [placed_eq hf, w1, counted, k1]
  split
  · rw [slotCount_setSlotCount, Nat.mod_eq_of_lt (by omega)]
    omega
  · split
    · rw [slotCount_setTombstoneCount, k1]
      omega
    · rw [k1]
      omega

theorem live_placed {s' : Nat} : (x.placed s data).Live s' ↔ s' = s ∨ x.Live s' := by
  obtain ⟨h1, -⟩ := header_placed hf
  obtain ⟨hr1, hr2, -⟩ := fits_room hf
  obtain ⟨hsn, -⟩ := fits_iff.mp hf
  have hso := slotOffset_eq (s := s) (by omega)
  by_cases heq : s' = s
  · subst heq
    refine iff_of_true ⟨by rw [h1]; omega, ?_⟩ (Or.inl rfl)
    rw [(slot_placed_self hf).1]
    simp only [pageSize, slotTombstone] at hso ⊢
    omega
  · rw [or_iff_right heq]
    constructor
    · rintro ⟨hlt, hoff⟩
      rw [h1] at hlt
      exact ⟨by omega, (slot_placed_ne hf hlt heq).1 ▸ hoff⟩
    · rintro ⟨hlt, hoff⟩
      refine ⟨by rw [h1]; omega, ?_⟩
      rw [(slot_placed_ne hf (by omega) heq).1]
      exact hoff

include hw

theorem tombstones_placed :
    (x.placed s data).tombstoneCount = (x.placed s data).tombstones.card := by
  obtain ⟨h1, -⟩ := header_placed hf
  obtain ⟨hr1, hr2, -⟩ := fits_room hf
  obtain ⟨hsn, -⟩ := fits_iff.mp hf
  have hF := x.headerSize_le_frontier
  have hg : headerSize ≤ x.guarded.freeSpacePtr := by rwa [freeSpacePtr_guarded]
  obtain ⟨k1, k2, -⟩ := header_writeData hg data
  rw [(same_guarded x).slots] at k1
  rw [(same_guarded x).tombs] at k2
  obtain ⟨-, w2, -⟩ := header_writeSlot (x := (x.guarded.writeData data data.length).counted s) hr2
    x.frontier data.length
  have hset : (x.placed s data).tombstones = x.tombstones.erase s := by
    ext s'
    have hl : (x.placed s data).Live s' ↔ s' = s ∨ x.Live s' := live_placed hf
    simp only [Live, h1] at hl
    simp only [tombstones, Finset.mem_filter, Finset.mem_range, Finset.mem_erase, h1]
    by_cases heq : s' = s
    · have := hl.mpr (Or.inl heq)
      exact iff_of_false (fun h => this.2 h.2) (fun h => h.1 heq)
    · constructor
      · rintro ⟨hlt, hoff⟩
        exact ⟨heq, by omega, (slot_placed_ne hf hlt heq).1 ▸ hoff⟩
      · rintro ⟨-, hlt, hoff⟩
        refine ⟨by omega, ?_⟩
        rw [(slot_placed_ne hf (by omega) heq).1]
        exact hoff
  rw [placed_eq hf, w2, ← placed_eq hf, hset, counted, k1]
  split
  · rename_i hge
    rw [tombstoneCount_setSlotCount, k2, hw.tombs, Finset.erase_eq_of_notMem]
    simp only [tombstones, Finset.mem_filter, Finset.mem_range]
    omega
  · rename_i hlt
    have hoff : (x.guarded.writeData data data.length).slotOff s = x.slotOff s := by
      have hge : headerSize ≤ slotOffset s := headerSize_le_slotOffset hr2
      rw [slotOff, (rd_writeData data hge (by rw [freeSpacePtr_guarded]; exact Or.inr hr1)).1,
        rd_congr (same_guarded x).body hge]
      rfl
    rw [hoff]
    split
    · rename_i htomb
      have hmem : s ∈ x.tombstones := by
        simp only [tombstones, Finset.mem_filter, Finset.mem_range]
        exact ⟨by omega, htomb⟩
      have hpos := Finset.card_pos.mpr ⟨s, hmem⟩
      have hle : x.tombstoneCount < 2 ^ 16 := load_lt _ _ _
      have htc := hw.tombs
      rw [tombstoneCount_setTombstoneCount, k2, Finset.card_erase_of_mem hmem]
      omega
    · rename_i hlive
      rw [k2, hw.tombs, Finset.erase_eq_of_notMem]
      simp only [tombstones, Finset.mem_filter, not_and]
      exact fun _ => hlive

/-- A record that was there before is where it was. -/
theorem live_before {s' : Nat} (hne : s' ≠ s) (hl : (x.placed s data).Live s') : x.Live s' ∧
    (x.placed s data).slotOff s' = x.slotOff s' ∧ (x.placed s data).slotLen s' = x.slotLen s' ∧
    headerSize ≤ x.slotOff s' ∧ x.slotOff s' + 2 + x.slotLen s' ≤ x.frontier := by
  have hl' : x.Live s' := ((live_placed hf).mp hl).resolve_left hne
  obtain ⟨ho, hlen⟩ := slot_placed_ne hf (by have := hl'.1; omega) hne
  obtain ⟨hb1, hb2⟩ := hw.bounds s' hl'
  exact ⟨hl', ho, hlen, hb1, hb2⟩

theorem wf_placed : Wf (x.placed s data) := by
  obtain ⟨h1, h2⟩ := header_placed hf
  obtain ⟨hr1, hr2, -⟩ := fits_room hf
  obtain ⟨ho, hl⟩ := slot_placed_self hf
  have hF := x.headerSize_le_frontier
  refine ⟨by rw [h1, h2]; exact (fits_iff.mp hf).2, tombstones_placed hw hf, ?_, ?_, ?_⟩
  · intro s' hs'
    by_cases heq : s' = s
    · subst heq
      rw [ho, hl, h2]
      exact ⟨hF, Nat.le_refl _⟩
    · obtain ⟨-, ho', hl', hb1, hb2⟩ := live_before hw hf heq hs'
      rw [ho', hl', h2]
      exact ⟨hb1, by omega⟩
  · intro s' hs'
    by_cases heq : s' = s
    · subst heq
      rw [ho, hl]
      exact (rd_placed_self hf).1
    · obtain ⟨hlive, ho', hl', hb1, hb2⟩ := live_before hw hf heq hs'
      rw [ho', hl', (rd_placed hf hb1 (by omega) (Or.inl (by omega))).1]
      exact hw.sizes s' hlive
  · intro s' s'' hne hs' hs''
    by_cases heq : s' = s
    · subst heq
      obtain ⟨-, ho', hl', -, hb2⟩ := live_before hw hf (Ne.symm hne) hs''
      rw [ho, hl, ho', hl']
      exact Or.inr hb2
    · obtain ⟨hlive, ho', hl', -, hb2⟩ := live_before hw hf heq hs'
      by_cases heq' : s'' = s
      · subst heq'
        rw [ho', hl', ho]
        exact Or.inl hb2
      · obtain ⟨hlive', ho'', hl'', -⟩ := live_before hw hf heq' hs''
        rw [ho', hl', ho'', hl'']
        exact hw.apart s' s'' hne hlive hlive'

theorem read_placed (s' : Nat) :
    (x.placed s data).readRecord s' = if s' = s then some data else x.readRecord s' := by
  have hwp := wf_placed hw hf
  obtain ⟨hr1, -, -⟩ := fits_room hf
  split
  · rename_i heq
    subst heq
    obtain ⟨ho, hl⟩ := slot_placed_self hf
    rw [readRecord_live hwp ((live_placed hf).mpr (Or.inl rfl)), ho, hl, (rd_placed_self hf).2]
  · rename_i hne
    refine read_congr hwp hw ((live_placed hf).trans (or_iff_right hne)) fun hs' => ?_
    obtain ⟨-, ho', hl', hb1, hb2⟩ := live_before hw hf hne hs'
    rw [ho', hl', (rd_placed hf (by omega) (by omega) (Or.inl hb2)).2]

end Placed

-- ---------------------------------------------------------------------------
-- `insert_record`
-- ---------------------------------------------------------------------------

theorem findFreeSlot_spec {x : Page} {u : Nat} (hu : u < x.slotCount)
    (ht : x.slotOff u = slotTombstone) :
    x.findFreeSlot < x.slotCount ∧ x.slotOff x.findFreeSlot = slotTombstone := by
  rw [findFreeSlot]
  cases h : (List.range x.slotCount).find? fun s => x.slotOff s == slotTombstone with
  | none =>
    have := List.find?_eq_none.mp h u (List.mem_range.mpr hu)
    simp [ht] at this
  | some v =>
    have h1 := List.mem_range.mp (List.mem_of_find?_eq_some h)
    have h2 := List.find?_some h
    simp only [beq_iff_eq] at h2
    exact ⟨h1, h2⟩

theorem slotDirStart_eq {x : Page} (hw : Wf x) :
    x.slotDirStart = pageSize - slotBytes * x.slotCount := by
  have hroom := hw.room
  rw [slotDirStart]
  split
  · rename_i h
    rw [h]
    rfl
  · rename_i h
    have hsub : x.slotCount - 1 + 1 = x.slotCount := by omega
    rw [slotOffset_eq (by rw [hsub]; omega), hsub]

/-- `can_insert` is right about a tombstone, and about the next slot when there is none. -/
theorem fits_of_canInsert {x : Page} (hw : Wf x) (hi : headerSize ≤ x.freeSpacePtr) {s : Nat}
    {data : Bytes} (hc : x.canInsert data.length = true)
    (hs : if x.tombstoneCount > 0 then s < x.slotCount else s = x.slotCount) :
    x.fits s data = true := by
  have hroom := hw.room
  have hfront : x.frontier = x.freeSpacePtr := Nat.max_eq_left hi
  rw [fits_iff]
  rw [canInsert, decide_eq_true_eq, freeSpace, slotDirStart_eq hw] at hc
  rw [hfront] at hroom ⊢
  rw [if_pos (by omega)] at hc
  simp only [slotBytes] at hc hroom ⊢
  split at hs
  · rw [if_neg (by omega)] at hc
    exact ⟨by omega, by omega⟩
  · rw [if_pos (by omega)] at hc
    exact ⟨by omega, by omega⟩

/-- Where it goes through, `insert_record` does what `redo_insert` does at the
slot it picks, and that slot is free. -/
theorem insertRecord_eq {x x' : Page} {data : Bytes} {l s : Nat} (hw : Wf x)
    (hi : headerSize ≤ x.freeSpacePtr) (hsize : data.length < 2 ^ 16)
    (h : x.insertRecord data l = some (x', s)) :
    x.fits s data = true ∧ ¬ x.Live s ∧ x' = x.redoInsert s data l := by
  have hfront : x.frontier = x.freeSpacePtr := Nat.max_eq_left hi
  have hguard : x.guarded = x := by rw [guarded, if_neg (by omega)]
  rw [insertRecord, Nat.mod_eq_of_lt hsize] at h
  simp only at h
  split at h
  · rename_i hc
    have hspace := hc
    rw [canInsert, decide_eq_true_eq, freeSpace, slotDirStart_eq hw] at hspace
    have hdata : x.freeSpacePtr + 2 + data.length ≤ pageSize - slotBytes * x.slotCount := by
      split at hspace <;> omega
    obtain ⟨k1, k2, -⟩ := header_writeData hi data
    -- the directory is above what has been written
    have hoff : ∀ {u}, u < x.slotCount →
        (x.writeData data data.length).slotOff u = x.slotOff u := by
      intro u hu
      have hr := hw.header_room hu
      have ho := slotOffset_eq (s := u) (by omega)
      refine (rd_writeData data (headerSize_le_slotOffset hr) (Or.inr ?_)).1
      simp only [slotBytes] at ho hdata
      omega
    rw [k1, k2] at h
    by_cases htc : x.tombstoneCount > 0
    · rw [if_pos htc] at h
      simp only [Option.some.injEq, Prod.mk.injEq] at h
      obtain ⟨rfl, rfl⟩ := h
      have hcard := hw.tombs
      obtain ⟨u, hu⟩ := Finset.card_pos.mp (hcard ▸ htc)
      simp only [tombstones, Finset.mem_filter, Finset.mem_range] at hu
      obtain ⟨hlt, ht⟩ := findFreeSlot_spec (x := x.writeData data data.length)
        (by rw [k1]; exact hu.1) (by rw [hoff hu.1]; exact hu.2)
      have hlt' := k1 ▸ hlt
      refine ⟨fits_of_canInsert hw hi hc (by rw [if_pos htc]; exact hlt'), fun hl => ?_, ?_⟩
      · exact hl.2 (hoff hlt' ▸ ht)
      · have htc' : x.tombstoneCount < 2 ^ 16 := load_lt _ _ _
        have hdec : (x.tombstoneCount + 2 ^ 16 - 1) % 2 ^ 16 = x.tombstoneCount - 1 := by omega
        rw [redoInsert_eq, placed, hguard, Nat.mod_eq_of_lt hsize, counted, if_neg (by omega),
          if_pos ht, k2, hdec]
    · rw [if_neg htc] at h
      simp only [Option.some.injEq, Prod.mk.injEq] at h
      obtain ⟨rfl, rfl⟩ := h
      refine ⟨fits_of_canInsert hw hi hc (by rw [if_neg htc]), fun hl => ?_, ?_⟩
      · exact Nat.lt_irrefl _ hl.1
      · rw [redoInsert_eq, placed, hguard, Nat.mod_eq_of_lt hsize, counted, if_pos (by omega)]
  · cases h

-- ---------------------------------------------------------------------------
-- The laws
-- ---------------------------------------------------------------------------

/-- Equal but for page id, page type and the guard on the free space pointer. -/
def Eqv (x y : Page) : Prop := Same x y ∧ x.pageLsn = y.pageLsn

theorem pageLsn_stamp (x : Page) (l : Nat) : (x.stamp l).pageLsn = max l x.pageLsn := by
  rw [stamp]
  split
  · rw [pageLsn_setPageLsn]
    omega
  · omega

theorem Eqv.stamp {x y : Page} (h : Same x y) (hl : x.pageLsn = y.pageLsn) (l : Nat) :
    Eqv (x.stamp l) (y.stamp l) :=
  ⟨(same_stamp x l).trans (h.trans (same_stamp y l).symm), by rw [pageLsn_stamp, pageLsn_stamp, hl]⟩

theorem pageLsn_writeSlot {x : Page} {s o l : Nat}
    (hs : headerSize + slotBytes * (s + 1) ≤ pageSize) :
    (x.writeSlot s o l).pageLsn = x.pageLsn := by
  have ho := headerSize_le_slotOffset hs
  rw [writeSlot, pageLsn_wr (by omega), pageLsn_wr (Or.inr ho)]

theorem pageLsn_deleted {x : Page} {s : Nat} (hs : headerSize + slotBytes * (s + 1) ≤ pageSize) :
    (x.deleted s).pageLsn = x.pageLsn := by
  rw [deleted, setTombstoneCount, pageLsn_wr (by decide), markTombstone, pageLsn_writeSlot hs]

theorem pageLsn_placed {x : Page} {s : Nat} {data : Bytes} (hf : x.fits s data = true) :
    (x.placed s data).pageLsn = x.pageLsn := by
  obtain ⟨-, hr, -⟩ := fits_room hf
  have hc : ∀ y : Page, (y.counted s).pageLsn = y.pageLsn := by
    intro y
    rw [counted]
    split
    · exact pageLsn_wr (by decide)
    · split
      · exact pageLsn_wr (by decide)
      · rfl
  rw [placed_eq hf, pageLsn_writeSlot hr, hc, (header_writeData (by
    rw [freeSpacePtr_guarded]; exact x.headerSize_le_frontier) data).2.2, pageLsn_guarded]

theorem Same.placed {x y : Page} (h : Same x y) {s : Nat} {data : Bytes}
    (hf : x.fits s data = true) : Same (x.placed s data) (y.placed s data) := by
  obtain ⟨-, hr, hlen⟩ := fits_room hf
  have hF := x.headerSize_le_frontier
  have hw : Same (x.guarded.writeData data data.length) (y.guarded.writeData data data.length) := by
    have hg : Same x.guarded y.guarded :=
      (same_guarded x).trans (h.trans (same_guarded y).symm)
    rw [writeData, writeData, freeSpacePtr_guarded, freeSpacePtr_guarded, ← h.front]
    exact ((hg.memcpy hF _).memcpy (by omega) _).setFreeSpacePtr _
  have hc : Same ((x.guarded.writeData data data.length).counted s)
      ((y.guarded.writeData data data.length).counted s) := by
    rw [counted, counted, hw.slots, hw.tombs, hw.slotOff hr]
    split
    · exact hw.setSlotCount _
    · split
      · exact hw.setTombstoneCount _
      · exact hw
  rw [Page.placed, Page.placed, hlen, freeSpacePtr_guarded, freeSpacePtr_guarded, ← h.front]
  exact Same.writeSlot hr _ _ hc

theorem same_init (p : Nat) : Same (init p) zero := by
  refine ⟨?_, ?_, ?_, fun i hi => ?_⟩
  · rw [init, slotCount_setPageLsn, slotCount_setFreeSpacePtr, slotCount_setTombstoneCount,
      slotCount_setSlotCount]
    rfl
  · rw [init, tombstoneCount_setPageLsn, tombstoneCount_setFreeSpacePtr,
      tombstoneCount_setTombstoneCount]
    rfl
  · rw [init, frontier, freeSpacePtr_setPageLsn, freeSpacePtr_setFreeSpacePtr]
    rfl
  · simp only [headerSize] at hi
    rw [init, ((same_setPageLsn _ 0).body i hi), setFreeSpacePtr, buf_wr_of_not_mem (by omega),
      setTombstoneCount, buf_wr_of_not_mem (by omega), setSlotCount, buf_wr_of_not_mem (by omega),
      setPageType, buf_wr_of_not_mem (by omega), setPageId, buf_wr_of_not_mem (by omega)]

theorem wf_zero : Wf zero := by
  have hn : zero.slotCount = 0 := rfl
  have hnone : ∀ s, ¬ zero.Live s := by
    rintro s ⟨hs, -⟩
    rw [hn] at hs
    omega
  refine ⟨by decide, ?_, fun s h => absurd h (hnone s), fun s h => absurd h (hnone s),
    fun s _ _ h => absurd h (hnone s)⟩
  rw [tombstones, hn]
  rfl

theorem eqv_updateRecord_bytes {x y : Page} (s : Nat) (data : Bytes) (l : Nat) (hw : Wf x)
    (h : Eqv x y) : Eqv (x.updateRecord s data l).1 (y.updateRecord s data l).1 ∧
      (x.updateRecord s data l).2 = (y.updateRecord s data l).2 := by
  obtain ⟨hsame, hlsn⟩ := h
  rw [updateRecord_eq, updateRecord_eq]
  by_cases hs : s < x.slotCount
  · have hr := hw.header_room hs
    rw [← hsame.slots, ← hsame.slotOff hr, ← hsame.slotLen hr]
    split
    · rename_i hc
      have hb := (hw.bounds s ⟨hs, hc.2.1⟩).1
      have hu : Same (x.updated s data) (y.updated s data) := by
        rw [updated, updated, ← hsame.slotOff hr]
        exact hsame.memcpy (by omega) _
      refine ⟨Eqv.stamp hu ?_ l, rfl⟩
      rw [updated, updated, ← hsame.slotOff hr, pageLsn_memcpy (by omega), pageLsn_memcpy (by omega),
        hlsn]
    · exact ⟨⟨hsame, hlsn⟩, rfl⟩
  · rw [if_neg (fun hc => hs hc.1), if_neg (fun hc => hs (hsame.slots ▸ hc.1))]
    exact ⟨⟨hsame, hlsn⟩, rfl⟩

theorem eqv_deleteRecord_bytes {x y : Page} (s l : Nat) (hw : Wf x) (h : Eqv x y) :
    Eqv (x.deleteRecord s l).1 (y.deleteRecord s l).1 := by
  obtain ⟨hsame, hlsn⟩ := h
  rw [deleteRecord_eq, deleteRecord_eq]
  by_cases hs : s < x.slotCount
  · have hr := hw.header_room hs
    rw [← hsame.slots, ← hsame.slotOff hr]
    split
    · exact Eqv.stamp (hsame.deleted hr) (by rw [pageLsn_deleted hr, pageLsn_deleted hr, hlsn]) l
    · exact ⟨hsame, hlsn⟩
  · rw [if_neg (fun hc => hs hc.1), if_neg (fun hc => hs (hsame.slots ▸ hc.1))]
    exact ⟨hsame, hlsn⟩

theorem deleteRecord_bytes_spec {x : Page} (s l : Nat) (hw : Wf x) : Wf (x.deleteRecord s l).1 ∧
    ∀ s', (x.deleteRecord s l).1.readRecord s' = if s' = s then none else x.readRecord s' := by
  rw [deleteRecord_eq]
  split
  · rename_i hs
    have hwd := wf_deleted hw hs
    have hst := (same_stamp (x.deleted s) l).symm
    exact ⟨hwd.of_same hst, fun s' => by rw [← hst.read hwd, read_deleted hw hs]⟩
  · rename_i hs
    refine ⟨hw, fun s' => ?_⟩
    split
    · rename_i heq
      rw [heq, readRecord_of_not_live hs]
    · rfl

theorem freeSpacePtr_deleteRecord {x : Page} {s l : Nat} (hw : Wf x) :
    (x.deleteRecord s l).1.freeSpacePtr = x.freeSpacePtr := by
  have hst : ∀ y : Page, (y.stamp l).freeSpacePtr = y.freeSpacePtr := by
    intro y
    rw [stamp]
    split
    · rw [freeSpacePtr_setPageLsn]
    · rfl
  rw [deleteRecord_eq]
  split
  · rename_i hs
    rw [hst, deleted, freeSpacePtr_setTombstoneCount]
    exact (header_writeSlot (hw.header_room hs.1) _ _).2.2
  · rfl

theorem updateRecord_ok_iff {x : Page} {s : Nat} {data : Bytes} {l : Nat} :
    (x.updateRecord s data l).2 = true ↔
      x.Live s ∧ data.length % 2 ^ 16 = x.slotLen s := by
  rw [updateRecord_eq]
  split
  · rename_i h
    exact iff_of_true rfl ⟨⟨h.1, h.2.1⟩, h.2.2⟩
  · rename_i h
    exact iff_of_false (by simp) fun h' => h ⟨h'.1.1, h'.1.2, h'.2⟩

instance : LawfulPageOps Page where
  Wf := Wf
  Eqv := Eqv
  eqv_refl x := ⟨Same.refl x, rfl⟩
  eqv_symm h := ⟨h.1.symm, h.2.symm⟩
  eqv_trans h h' := ⟨h.1.trans h'.1, h.2.trans h'.2⟩
  eqv_init p := ⟨same_init p, by
    show (init p).pageLsn = 0
    rw [init, pageLsn_setPageLsn]⟩
  eqv_lsn h := h.2
  eqv_read s hw h := h.1.read hw s
  eqv_fits s d h := by
    show fits _ s d = fits _ s d
    rw [fits, fits, h.1.slots, h.1.front]
  eqv_wf h hw := hw.of_same h.1
  eqv_setPageLsn {x y} l h :=
    ⟨(same_setPageLsn x l).trans (h.1.trans (same_setPageLsn y l).symm), by
      show (x.setPageLsn l).pageLsn = (y.setPageLsn l).pageLsn
      rw [pageLsn_setPageLsn, pageLsn_setPageLsn]⟩
  eqv_redoInsert {x y s d} l _ h hf := by
    have hf' : y.fits s d = true := by
      rw [fits, ← h.1.slots, ← h.1.front]
      exact hf
    exact Eqv.stamp (h.1.placed hf) (by rw [pageLsn_placed hf, pageLsn_placed hf', h.2]) l
  eqv_deleteRecord s l hw h := eqv_deleteRecord_bytes s l hw h
  eqv_updateRecord s d l hw h := eqv_updateRecord_bytes s d l hw h
  wf_zero := wf_zero
  read_zero s := readRecord_of_not_live fun h => absurd h.1 (Nat.not_lt_zero s)
  lsn_zero := rfl
  wf_setPageLsn {x} l hw := hw.of_same (same_setPageLsn x l).symm
  read_setPageLsn {x} l s hw := ((same_setPageLsn x l).symm.read hw s).symm
  lsn_setPageLsn := pageLsn_setPageLsn
  stamp_redoInsert x s d l l' k := by
    show (redoInsert x s d l).setPageLsn k = (redoInsert x s d l').setPageLsn k
    rw [redoInsert_eq, redoInsert_eq, setPageLsn_stamp, setPageLsn_stamp]
  stamp_deleteRecord x s l l' k := by
    show (deleteRecord x s l).1.setPageLsn k = (deleteRecord x s l').1.setPageLsn k
    rw [deleteRecord_eq, deleteRecord_eq]
    split
    · rw [setPageLsn_stamp, setPageLsn_stamp]
    · rfl
  stamp_updateRecord x s d l l' k := by
    show (updateRecord x s d l).1.setPageLsn k = (updateRecord x s d l').1.setPageLsn k ∧
      (updateRecord x s d l).2 = (updateRecord x s d l').2
    rw [updateRecord_eq, updateRecord_eq]
    split
    · exact ⟨by rw [setPageLsn_stamp, setPageLsn_stamp], rfl⟩
    · exact ⟨rfl, rfl⟩
  redoInsert_spec {x s d} l hw _ hf := by
    have hwp := wf_placed hw hf
    have hst := (same_stamp (x.placed s d) l).symm
    exact ⟨hwp.of_same hst, fun s' => (hst.read hwp s').symm.trans (read_placed hw hf s')⟩
  deleteRecord_spec s l hw := deleteRecord_bytes_spec s l hw
  deleteRecord_none {x s} l hw hr := by
    show (x.deleteRecord s l).1 = x
    rw [deleteRecord_eq, if_neg]
    intro hs
    have := readRecord_live hw hs
    rw [show x.readRecord s = none from hr] at this
    cases this
  updateRecord_live l hw h := (live_iff_read hw).mp (updateRecord_ok_iff.mp h).1
  updateRecord_ok {x s d} l hw hsize h := by
    obtain ⟨hs, hlen⟩ := updateRecord_ok_iff.mp h
    have hwu := wf_updated hw hs hlen
    have hst := (same_stamp (x.updated s d) l).symm
    have heq : (x.updateRecord s d l).1 = (x.updated s d).stamp l := by
      rw [updateRecord_eq, if_pos ⟨hs.1, hs.2, hlen⟩]
    show Wf (x.updateRecord s d l).1 ∧ ∀ s', (x.updateRecord s d l).1.readRecord s' = _
    rw [heq]
    exact ⟨hwu.of_same hst, fun s' => (hst.read hwu s').symm.trans
      (read_updated hw hs hlen (of_decide_eq_true hsize) s')⟩
  updateRecord_fail {x s d} l h := by
    show (x.updateRecord s d l).1 = x
    replace h : (x.updateRecord s d l).2 = false := h
    rw [updateRecord_eq] at h ⊢
    split at h
    · cases h
    · rename_i hc
      rw [if_neg hc]
  inited_deleteRecord {x} s l hw := by
    show decide (headerSize ≤ (x.deleteRecord s l).1.freeSpacePtr) =
      decide (headerSize ≤ x.freeSpacePtr)
    rw [freeSpacePtr_deleteRecord hw]
  insertRecord_spec hw hi _ hsize h := by
    obtain ⟨h1, h2, h3⟩ := insertRecord_eq hw (of_decide_eq_true hi) (of_decide_eq_true hsize) h
    exact ⟨h1, readRecord_of_not_live h2, h3⟩

end Page

end PersistX
