import PersistX.Page.Laws
import Mathlib.Algebra.BigOperators.Group.Finset.Basic
import Mathlib.Algebra.Order.BigOperators.Group.Finset
import Mathlib.Order.Interval.Finset.Nat

/-!
# PersistX — compaction

`compact` empties the header and replays the slots of a snapshot in index
order: a live record goes to the new data frontier, as `redo_insert` would put
it into the next slot, a tombstone stays a tombstone. That the records fit
while they are replayed rests on their extents being disjoint: together they
are not longer than the data region they came from (`dataSize_le`).

Main result: `compacted` — compaction keeps the page well-formed, every
record, the page id, the type and the LSN, and leaves no gap between records.
-/

namespace PersistX

open Bytes

namespace Page

-- ---------------------------------------------------------------------------
-- Page id, type and LSN
-- ---------------------------------------------------------------------------

/-- The header fields that `compact` leaves alone. -/
def ident (x : Page) : Nat × Nat × Nat := (x.pageId, x.pageType, x.pageLsn)

theorem ident_memcpy {x : Page} {off : Nat} {data : Bytes}
    (h : 5 ≤ off ∧ off + data.length ≤ 13 ∨ headerSize ≤ off) :
    (x.memcpy off data).ident = x.ident := by
  simp only [headerSize] at h
  simp only [ident, pageId, pageType, pageLsn]
  rw [rd_memcpy (by omega), rd_memcpy (by omega), rd_memcpy (by omega)]
  rfl

theorem ident_wr {x : Page} {off n v : Nat} (h : 5 ≤ off ∧ off + n ≤ 13 ∨ headerSize ≤ off) :
    (x.wr off n v).ident = x.ident :=
  ident_memcpy (by rwa [length_leBytes])

@[simp] theorem ident_setSlotCount (x : Page) (v : Nat) : (x.setSlotCount v).ident = x.ident :=
  ident_wr (by decide)

@[simp] theorem ident_setTombstoneCount (x : Page) (v : Nat) :
    (x.setTombstoneCount v).ident = x.ident :=
  ident_wr (by decide)

@[simp] theorem ident_setFreeSpacePtr (x : Page) (v : Nat) :
    (x.setFreeSpacePtr v).ident = x.ident :=
  ident_wr (by decide)

theorem ident_writeSlot {x : Page} {s o l : Nat}
    (hs : headerSize + slotBytes * (s + 1) ≤ pageSize) : (x.writeSlot s o l).ident = x.ident := by
  have ho := headerSize_le_slotOffset hs
  rw [writeSlot, ident_wr (by omega), ident_wr (Or.inr ho)]

theorem ident_writeData {x : Page} (hF : headerSize ≤ x.freeSpacePtr) (data : Bytes) (n : Nat) :
    (x.writeData data n).ident = x.ident := by
  rw [writeData, ident_setFreeSpacePtr, ident_memcpy (by omega), ident_wr (Or.inr hF)]

-- ---------------------------------------------------------------------------
-- The live records together
-- ---------------------------------------------------------------------------

/-- The live slots below `k`. -/
def liveBelow (x : Page) (k : Nat) : Finset Nat :=
  (Finset.range k).filter fun s => x.slotOff s ≠ slotTombstone

/-- The bytes that the records of the live slots below `k` take. -/
def dataSize (x : Page) (k : Nat) : Nat := ∑ s ∈ x.liveBelow k, (2 + x.slotLen s)

theorem dataSize_succ (x : Page) (k : Nat) : x.dataSize (k + 1)
    = x.dataSize k + if x.slotOff k = slotTombstone then 0 else 2 + x.slotLen k := by
  have hnot : k ∉ x.liveBelow k := by simp [liveBelow]
  unfold dataSize
  by_cases ht : x.slotOff k = slotTombstone
  · have hset : x.liveBelow (k + 1) = x.liveBelow k := by
      simp [liveBelow, Finset.range_add_one, Finset.filter_insert, ht]
    rw [hset, if_pos ht]
    rfl
  · have hset : x.liveBelow (k + 1) = insert k (x.liveBelow k) := by
      simp [liveBelow, Finset.range_add_one, Finset.filter_insert, ht]
    rw [hset, if_neg ht, Finset.sum_insert hnot, Nat.add_comm]

theorem dataSize_mono (x : Page) {j k : Nat} (h : j ≤ k) : x.dataSize j ≤ x.dataSize k := by
  refine Finset.sum_le_sum_of_subset fun s hs => ?_
  simp only [liveBelow, Finset.mem_filter, Finset.mem_range] at hs ⊢
  exact ⟨by omega, hs.2⟩

/-- The records are not longer together than the data region. -/
theorem dataSize_le {x : Page} (hw : Wf x) : headerSize + x.dataSize x.slotCount ≤ x.frontier := by
  have hlive : ∀ s ∈ x.liveBelow x.slotCount, x.Live s := by
    intro s hs
    simp only [liveBelow, Finset.mem_filter, Finset.mem_range] at hs
    exact hs
  let extent := fun s => Finset.Ico (x.slotOff s) (x.slotOff s + (2 + x.slotLen s))
  have hcard : ((x.liveBelow x.slotCount).biUnion extent).card = x.dataSize x.slotCount := by
    rw [Finset.card_biUnion]
    · exact Finset.sum_congr rfl fun s _ => by simp [extent]
    · intro s hs s' hs' hne
      rw [Function.onFun, Finset.disjoint_left]
      intro i hi hi'
      simp only [extent, Finset.mem_Ico] at hi hi'
      rcases hw.apart s s' hne (hlive s hs) (hlive s' hs') with h | h
      · omega
      · omega
  have hsub : (x.liveBelow x.slotCount).biUnion extent ⊆ Finset.Ico headerSize x.frontier := by
    intro i hi
    obtain ⟨s, hs, hi⟩ := Finset.mem_biUnion.mp hi
    obtain ⟨h1, h2⟩ := hw.bounds s (hlive s hs)
    simp only [extent, Finset.mem_Ico] at hi ⊢
    omega
  have hle := Finset.card_le_card hsub
  rw [hcard, Nat.card_Ico] at hle
  have := x.headerSize_le_frontier
  omega

-- ---------------------------------------------------------------------------
-- One round of the loop
-- ---------------------------------------------------------------------------

/-- Writes to different places commute. -/
theorem memcpy_comm {x : Page} {off off' : Nat} {data data' : Bytes}
    (h : off + data.length ≤ off' ∨ off' + data'.length ≤ off) :
    (x.memcpy off data).memcpy off' data' = (x.memcpy off' data').memcpy off data := by
  have hlen : (data.take (pageSize - off)).length ≤ data.length := List.length_take_le' _ _
  have hlen' : (data'.take (pageSize - off')).length ≤ data'.length := List.length_take_le' _ _
  simp only [memcpy, Page.mk.injEq, and_true]
  funext i
  simp only [blit]
  split
  · split
    · omega
    · rfl
  · rfl

theorem setSlotCount_writeData {x : Page} (hF : headerSize ≤ x.freeSpacePtr) (k : Nat)
    (data : Bytes) (n : Nat) :
    (x.setSlotCount k).writeData data n = (x.writeData data n).setSlotCount k := by
  have h1 : ∀ (y : Page) (o : Nat) (d : Bytes), headerSize ≤ o →
      (y.setSlotCount k).memcpy o d = (y.memcpy o d).setSlotCount k := by
    intro y o d ho
    refine memcpy_comm (Or.inl ?_)
    rw [length_leBytes]
    simp only [headerSize] at ho
    omega
  have h2 : ∀ (y : Page) (v : Nat),
      (y.setSlotCount k).setFreeSpacePtr v = (y.setFreeSpacePtr v).setSlotCount k := by
    intro y v
    refine memcpy_comm (Or.inl ?_)
    rw [length_leBytes]
    omega
  simp only [writeData, freeSpacePtr_setSlotCount, wr]
  rw [h1 _ _ _ hF, h1 _ _ _ (by omega), h2]

/-- A live slot is replayed as `redo_insert` puts a record into the next slot. -/
theorem compactSlot_live {x y : Page} {s : Nat} (hF : headerSize ≤ y.freeSpacePtr)
    (ht : x.slotOff s ≠ slotTombstone) (hlen : x.slotLen s < 2 ^ 16) :
    compactSlot x y s
      = y.placed y.slotCount (slice x.buf (x.slotOff s + 2) (x.slotLen s)) := by
  have hguard : y.guarded = y := by rw [guarded, if_neg (by omega)]
  unfold compactSlot placed counted
  simp only [if_neg ht, hguard, length_slice, Nat.mod_eq_of_lt hlen, freeSpacePtr_setSlotCount]
  have hcount := (header_writeData hF (slice x.buf (x.slotOff s + 2) (x.slotLen s))).1
  rw [length_slice] at hcount
  rw [hcount, if_pos (Nat.le_refl _), setSlotCount_writeData hF]

/-- A tombstone is replayed as a new slot that is a tombstone. -/
def buried (y : Page) : Page :=
  let z := (y.setSlotCount (y.slotCount + 1)).markTombstone y.slotCount
  z.setTombstoneCount (z.tombstoneCount + 1)

theorem compactSlot_tombstone {x y : Page} {s : Nat} (ht : x.slotOff s = slotTombstone) :
    compactSlot x y s = y.buried := by
  unfold compactSlot
  rw [if_pos ht]
  rfl

section Buried

variable {y : Page} (hw : Wf y)
  (hroom : y.frontier + slotBytes * (y.slotCount + 1) ≤ pageSize)

include hroom

/-- The new entry lies past the data region, and past the header. -/
theorem buried_room : headerSize + slotBytes * (y.slotCount + 1) ≤ pageSize := by
  have := y.headerSize_le_frontier
  omega

theorem header_buried : y.buried.slotCount = y.slotCount + 1 ∧
    y.buried.freeSpacePtr = y.freeSpacePtr ∧ y.buried.ident = y.ident ∧
    y.buried.tombstoneCount = (y.tombstoneCount + 1) % 2 ^ 16 := by
  have hr := buried_room hroom
  obtain ⟨h1, h2, h3⟩ :=
    header_writeSlot (x := y.setSlotCount (y.slotCount + 1)) hr slotTombstone 0
  have hsmall : y.slotCount + 1 < 2 ^ 16 := by
    simp only [slotBytes, pageSize] at hr
    omega
  unfold buried markTombstone
  refine ⟨?_, ?_, ?_, ?_⟩
  · rw [slotCount_setTombstoneCount, h1, slotCount_setSlotCount, Nat.mod_eq_of_lt hsmall]
  · rw [freeSpacePtr_setTombstoneCount, h3, freeSpacePtr_setSlotCount]
  · rw [ident_setTombstoneCount, ident_writeSlot hr, ident_setSlotCount]
  · rw [tombstoneCount_setTombstoneCount, h2, tombstoneCount_setSlotCount]

omit hroom in
/-- Past the header only the new entry is written. -/
theorem body_buried {i : Nat} (hi : headerSize ≤ i) :
    y.buried.buf i = (y.writeSlot y.slotCount slotTombstone 0).buf i := by
  unfold buried
  rw [setTombstoneCount, body_header_wr (by decide) hi]
  have hcount : (y.setSlotCount (y.slotCount + 1)).buf i = y.buf i := body_header_wr (by decide) hi
  unfold markTombstone writeSlot wr
  simp only [memcpy, blit, hcount]

theorem slots_buried : y.buried.slotOff y.slotCount = slotTombstone ∧
    ∀ s, s < y.slotCount → y.buried.slotOff s = y.slotOff s ∧ y.buried.slotLen s = y.slotLen s := by
  have hr := buried_room hroom
  have hbody := fun i => body_buried (y := y) (i := i)
  constructor
  · unfold slotOff
    rw [rd_congr hbody (headerSize_le_slotOffset hr)]
    exact slotOff_writeSlot_self hr slotTombstone 0
  · intro s hs
    have hr' : headerSize + slotBytes * (s + 1) ≤ pageSize := by
      simp only [slotBytes] at hr ⊢
      omega
    have ho := headerSize_le_slotOffset hr'
    unfold slotOff slotLen
    rw [rd_congr hbody ho, rd_congr hbody (by omega)]
    exact slot_writeSlot_ne hr slotTombstone 0 hr' (by omega)

theorem live_buried {s : Nat} : y.buried.Live s ↔ y.Live s := by
  obtain ⟨hn, -⟩ := header_buried hroom
  obtain ⟨hself, hother⟩ := slots_buried hroom
  unfold Live
  rw [hn]
  constructor
  · rintro ⟨hs, ho⟩
    have hne : s ≠ y.slotCount := by
      rintro rfl
      exact ho hself
    have hlt : s < y.slotCount := by omega
    exact ⟨hlt, (hother s hlt).1 ▸ ho⟩
  · rintro ⟨hs, ho⟩
    exact ⟨by omega, by rw [(hother s hs).1]; exact ho⟩

theorem data_buried {off n : Nat} (h1 : headerSize ≤ off) (h2 : off + n ≤ y.frontier) :
    y.buried.rd off n = y.rd off n ∧ slice y.buried.buf off n = slice y.buf off n := by
  have ho := slotOffset_eq (s := y.slotCount) (by omega)
  have hd : off + n ≤ slotOffset y.slotCount := by omega
  have hbody := fun i => body_buried (y := y) (i := i)
  constructor
  · rw [rd_congr hbody h1]
    exact rd_writeSlot _ _ (Or.inl hd)
  · rw [slice_congr fun i hi _ => hbody i (by omega)]
    exact slice_writeSlot _ _ hd

include hw

theorem wf_buried : Wf y.buried := by
  obtain ⟨hn, hfsp, -, htc⟩ := header_buried hroom
  obtain ⟨hself, hother⟩ := slots_buried hroom
  have hfront : y.buried.frontier = y.frontier := by rw [frontier, hfsp, frontier]
  have hlive := fun s => live_buried hroom (s := s)
  refine ⟨by rw [hn, hfront]; exact hroom, ?_, ?_, ?_, ?_⟩
  · have hset : y.buried.tombstones = insert y.slotCount y.tombstones := by
      ext s
      simp only [tombstones, Finset.mem_filter, Finset.mem_range, Finset.mem_insert, hn]
      constructor
      · rintro ⟨hs, ho⟩
        by_cases heq : s = y.slotCount
        · exact Or.inl heq
        · have hlt : s < y.slotCount := by omega
          exact Or.inr ⟨hlt, (hother s hlt).1 ▸ ho⟩
      · rintro (rfl | ⟨hs, ho⟩)
        · exact ⟨by omega, hself⟩
        · exact ⟨by omega, by rw [(hother s hs).1]; exact ho⟩
    have hnot : y.slotCount ∉ y.tombstones := by simp [tombstones]
    have hle : y.tombstones.card ≤ y.slotCount := by
      have := Finset.card_filter_le (Finset.range y.slotCount) fun s => y.slotOff s = slotTombstone
      rwa [Finset.card_range] at this
    simp only [slotBytes, pageSize] at hroom
    rw [htc, hset, Finset.card_insert_of_notMem hnot, hw.tombs, Nat.mod_eq_of_lt (by omega)]
  · intro s hs
    have hl := (hlive s).mp hs
    rw [(hother s hl.1).1, (hother s hl.1).2, hfront]
    exact hw.bounds s hl
  · intro s hs
    have hl := (hlive s).mp hs
    obtain ⟨hb1, hb2⟩ := hw.bounds s hl
    rw [(hother s hl.1).1, (hother s hl.1).2, (data_buried hroom hb1 (by omega)).1]
    exact hw.sizes s hl
  · intro s s' hne hs hs'
    have hl := (hlive s).mp hs
    have hl' := (hlive s').mp hs'
    rw [(hother s hl.1).1, (hother s hl.1).2, (hother s' hl'.1).1, (hother s' hl'.1).2]
    exact hw.apart s s' hne hl hl'

theorem read_buried (s : Nat) : y.buried.readRecord s = y.readRecord s := by
  have hlive := live_buried hroom (s := s)
  refine read_congr (wf_buried hw hroom) hw hlive fun hs => ?_
  have hl := hlive.mp hs
  obtain ⟨ho, hlen⟩ := (slots_buried hroom).2 s hl.1
  obtain ⟨hb1, hb2⟩ := hw.bounds s hl
  rw [ho, hlen, (data_buried hroom (by omega) (by omega)).2]

end Buried

-- ---------------------------------------------------------------------------
-- The loop
-- ---------------------------------------------------------------------------

/-- The page `y` after the slots of `x` below `k` have been replayed. -/
structure Compacting (x y : Page) (k : Nat) : Prop where
  wf : Wf y
  slots : y.slotCount = k
  front : y.freeSpacePtr = headerSize + x.dataSize k
  read : ∀ s, y.readRecord s = if s < k then x.readRecord s else none
  ident : y.ident = x.ident

theorem compacting_emptied (x : Page) : Compacting x x.emptied 0 := by
  have hn : x.emptied.slotCount = 0 := by
    unfold emptied
    rw [slotCount_setFreeSpacePtr, slotCount_setTombstoneCount, slotCount_setSlotCount,
      Nat.zero_mod]
  have hfsp : x.emptied.freeSpacePtr = headerSize := freeSpacePtr_setFreeSpacePtr _ _
  have hnone : ∀ s, ¬ x.emptied.Live s := by
    rintro s ⟨hs, -⟩
    omega
  refine ⟨⟨?_, ?_, fun s h => absurd h (hnone s), fun s h => absurd h (hnone s),
    fun s _ _ h => absurd h (hnone s)⟩, hn, hfsp, fun s => readRecord_of_not_live (hnone s), ?_⟩
  · rw [hn, frontier, hfsp]
    decide
  · have htc : x.emptied.tombstoneCount = 0 := by
      unfold emptied
      rw [tombstoneCount_setFreeSpacePtr, tombstoneCount_setTombstoneCount, Nat.zero_mod]
    rw [htc, tombstones, hn]
    rfl
  · unfold emptied
    rw [ident_setFreeSpacePtr, ident_setTombstoneCount, ident_setSlotCount]

theorem ident_placed {x : Page} {s : Nat} {data : Bytes} (hf : x.fits s data = true) :
    (x.placed s data).ident = x.ident := by
  obtain ⟨-, hr, -⟩ := fits_room hf
  have hg : headerSize ≤ x.guarded.freeSpacePtr := by
    rw [freeSpacePtr_guarded]
    exact x.headerSize_le_frontier
  have hguard : x.guarded.ident = x.ident := by
    rw [guarded]
    split
    · exact ident_setFreeSpacePtr _ _
    · rfl
  have hc : ∀ y : Page, (y.counted s).ident = y.ident := by
    intro y
    rw [counted]
    split
    · exact ident_setSlotCount _ _
    · split
      · exact ident_setTombstoneCount _ _
      · rfl
  rw [placed, ident_writeSlot hr, hc, ident_writeData hg, hguard]

theorem freeSpacePtr_placed {x : Page} {s : Nat} {data : Bytes} (hf : x.fits s data = true) :
    (x.placed s data).freeSpacePtr = x.frontier + 2 + data.length := by
  have h := (header_placed hf).2
  have hF := x.headerSize_le_frontier
  rw [frontier] at h
  omega

/-- One more slot is replayed. -/
theorem Compacting.step {x y : Page} {k : Nat} (hw : Wf x) (hk : k < x.slotCount)
    (h : Compacting x y k) : Compacting x (compactSlot x y k) (k + 1) := by
  have hall := dataSize_le hw
  have hmono : x.dataSize (k + 1) ≤ x.dataSize x.slotCount := x.dataSize_mono hk
  have hroom := hw.slot_room hk
  have hsucc := x.dataSize_succ k
  have hF : headerSize ≤ y.freeSpacePtr := by
    rw [h.front]
    omega
  have hfront : y.frontier = headerSize + x.dataSize k := by
    rw [frontier, h.front, Nat.max_eq_left (Nat.le_add_right _ _)]
  by_cases ht : x.slotOff k = slotTombstone
  · rw [if_pos ht] at hsucc
    have hr : y.frontier + slotBytes * (y.slotCount + 1) ≤ pageSize := by
      rw [hfront, h.slots]
      omega
    obtain ⟨hn, hfsp, hid, -⟩ := header_buried hr
    rw [compactSlot_tombstone ht]
    refine ⟨wf_buried h.wf hr, by rw [hn, h.slots], by rw [hfsp, h.front, hsucc]; rfl, fun s => ?_,
      hid.trans h.ident⟩
    rw [read_buried h.wf hr, h.read]
    by_cases hs : s = k
    · subst hs
      rw [if_neg (Nat.lt_irrefl s), if_pos (Nat.lt_succ_self s), readRecord_of_not_live]
      exact fun hl => hl.2 ht
    · have hiff : s < k + 1 ↔ s < k := by omega
      simp only [hiff]
  · have hlive : x.Live k := ⟨hk, ht⟩
    rw [if_neg ht] at hsucc
    have hlen : x.slotLen k < 2 ^ 16 := load_lt _ _ _
    have hfits : y.fits y.slotCount (slice x.buf (x.slotOff k + 2) (x.slotLen k)) = true := by
      rw [fits_iff, length_slice, hfront, h.slots]
      refine ⟨Nat.le_refl k, ?_⟩
      have hmax : max k (k + 1) = k + 1 := Nat.max_eq_right (Nat.le_succ k)
      rw [hmax]
      omega
    rw [compactSlot_live hF ht hlen]
    obtain ⟨hn, -⟩ := header_placed hfits
    refine ⟨wf_placed h.wf hfits, ?_, ?_, fun s => ?_, (ident_placed hfits).trans h.ident⟩
    · rw [hn, h.slots]
      exact Nat.max_eq_right (Nat.le_succ k)
    · rw [freeSpacePtr_placed hfits, hfront, length_slice, hsucc]
      omega
    · rw [read_placed h.wf hfits, h.read, h.slots]
      by_cases hs : s = k
      · subst hs
        rw [if_pos rfl, if_pos (Nat.lt_succ_self s), readRecord_live hw hlive]
      · have hiff : s < k + 1 ↔ s < k := by omega
        rw [if_neg hs]
        simp only [hiff]

theorem compacting_loop {x : Page} (hw : Wf x) (k : Nat) (hk : k ≤ x.slotCount) :
    Compacting x ((List.range k).foldl (compactSlot x) x.emptied) k := by
  induction k with
  | zero => exact compacting_emptied x
  | succ k ih =>
    rw [List.range_succ, List.foldl_append]
    exact (ih (Nat.le_of_succ_le hk)).step hw hk

/-- **Compaction.** The page stays well-formed with the same slots, and the data
region is exactly as long as its live records. -/
theorem compacted {x : Page} (hw : Wf x) : Compacting x x.compact x.slotCount :=
  compacting_loop hw x.slotCount (Nat.le_refl _)

/-- No record changes. -/
theorem readRecord_compact {x : Page} (hw : Wf x) (s : Nat) :
    x.compact.readRecord s = x.readRecord s := by
  rw [(compacted hw).read]
  split
  · rfl
  · rename_i hs
    rw [readRecord_of_not_live]
    exact fun hl => hs hl.1

end Page

end PersistX
