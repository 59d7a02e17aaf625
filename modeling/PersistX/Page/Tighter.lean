import PersistX.Page.DataPage
import PersistX.Page.Restore

/-!
# PersistX — the page that redo gives, and the page that was lost

`update` deletes its record and inserts the new one, which goes to the end of the
data region; redo overwrites a record of the same length in place. So a page
that is recovered need not be the page that was lost: it has the same slots, and
its data region may be shorter (`Tighter`). What has room on the page has room
on a tighter one, and redo keeps the relation.

Main results: `Tighter.redoRecord` — redo keeps it; `Redoes.insert`,
`Redoes.delete`, `Redoes.replace` — what the shell does to a page is what redo of
its UPDATE does to every tighter one.
-/

namespace PersistX

open PageOps LawfulPageOps

namespace Page

/-- The slots of `y`, and no more room taken than there. -/
structure Tighter (x y : Page) : Prop where
  left : Page.Wf x
  right : Page.Wf y
  slots : x.slotCount = y.slotCount
  read : ∀ s, x.readRecord s = y.readRecord s
  frontier : x.frontier ≤ y.frontier

variable {x y z x' y' : Page} {s l l' : Nat} {data old new : Bytes}

theorem Tighter.refl (h : Page.Wf x) : Tighter x x := ⟨h, h, rfl, fun _ => rfl, Nat.le_refl _⟩

theorem Tighter.of_same (h : Tighter x y) (hx : Same x x') (hy : Same y y') : Tighter x' y' where
  left := h.left.of_same hx
  right := h.right.of_same hy
  slots := by rw [← hx.slots, h.slots, hy.slots]
  read s := by rw [← hx.read h.left, h.read, hy.read h.right]
  frontier := by
    have hfx : x.frontier = x'.frontier := hx.front
    have hfy : y.frontier = y'.frontier := hy.front
    rw [← hfx, ← hfy]
    exact h.frontier

theorem Tighter.setPageLsn (h : Tighter x y) (l l' : Nat) : Tighter (x.setPageLsn l) (y.setPageLsn l') :=
  h.of_same (same_setPageLsn x l).symm (same_setPageLsn y l').symm

-- ---------------------------------------------------------------------------
-- The operations
-- ---------------------------------------------------------------------------

theorem Tighter.live (h : Tighter x y) (s : Nat) : x.Live s ↔ y.Live s := by
  rw [live_iff_read h.left, live_iff_read h.right, h.read]

theorem Tighter.slotLen (h : Tighter x y) (hs : y.Live s) : x.slotLen s = y.slotLen s := by
  have hread := h.read s
  rw [readRecord_live h.left ((h.live s).mpr hs), readRecord_live h.right hs, Option.some.injEq] at hread
  have := congrArg List.length hread
  rwa [Bytes.length_slice, Bytes.length_slice] at this

theorem Tighter.fits (h : Tighter x y) (hf : y.fits s data = true) : x.fits s data = true := by
  rw [fits_iff] at hf ⊢
  have := h.frontier
  rw [h.slots]
  exact ⟨hf.1, by omega⟩

theorem Tighter.redoInsert (h : Tighter x y) (hf : y.fits s data = true) (l l' : Nat) :
    Tighter (x.redoInsert s data l) (y.redoInsert s data l') := by
  have hfx := h.fits hf
  have hplaced : Tighter (x.placed s data) (y.placed s data) := by
    refine ⟨wf_placed h.left hfx, wf_placed h.right hf, ?_, fun u => ?_, ?_⟩
    · rw [(header_placed hfx).1, (header_placed hf).1, h.slots]
    · rw [read_placed h.left hfx, read_placed h.right hf, h.read]
    · rw [(header_placed hfx).2, (header_placed hf).2]
      have := h.frontier
      omega
  rw [redoInsert_eq, redoInsert_eq]
  exact hplaced.of_same (same_stamp _ l).symm (same_stamp _ l').symm

theorem frontier_deleteRecord (h : Page.Wf x) (s l : Nat) : (x.deleteRecord s l).1.frontier = x.frontier := by
  rw [Page.frontier, freeSpacePtr_deleteRecord h]
  rfl

theorem slotCount_deleteRecord (h : Page.Wf x) (s l : Nat) :
    (x.deleteRecord s l).1.slotCount = x.slotCount := by
  rw [deleteRecord_eq]
  split
  · rename_i hs
    rw [(same_stamp _ l).slots, (slots_deleted h hs).1]
  · rfl

theorem Tighter.deleteRecord (h : Tighter x y) (s l l' : Nat) :
    Tighter (x.deleteRecord s l).1 (y.deleteRecord s l').1 := by
  obtain ⟨hwx, hrx⟩ := deleteRecord_bytes_spec s l h.left
  obtain ⟨hwy, hry⟩ := deleteRecord_bytes_spec s l' h.right
  refine ⟨hwx, hwy, ?_, fun u => ?_, ?_⟩
  · rw [slotCount_deleteRecord h.left, slotCount_deleteRecord h.right, h.slots]
  · rw [hrx, hry, h.read]
  · rw [frontier_deleteRecord h.left, frontier_deleteRecord h.right]
    exact h.frontier

/-- A record that was overwritten in place: the page is as full as before. -/
theorem updateRecord_header (h : Page.Wf x) (s : Nat) (data : Bytes) (l : Nat) :
    (x.updateRecord s data l).1.slotCount = x.slotCount ∧
      (x.updateRecord s data l).1.frontier = x.frontier := by
  rw [updateRecord_eq]
  split
  · rename_i hc
    have hb := (h.bounds s ⟨hc.1, hc.2.1⟩).1
    have hoff : headerSize ≤ x.slotOff s + 2 := by omega
    have hhead := header_memcpy x (data.take (data.length % 2 ^ 16)) hoff
    have hst := same_stamp (x.updated s data) l
    refine ⟨hst.slots.trans hhead.1, ?_⟩
    have hfront : ((x.updated s data).stamp l).frontier = (x.updated s data).frontier := hst.front
    rw [hfront, Page.frontier, Page.frontier, show (x.updated s data).freeSpacePtr = x.freeSpacePtr from
      hhead.2.2]
  · exact ⟨rfl, rfl⟩

theorem Tighter.updateRecord_ok (h : Tighter x y) (s : Nat) (data : Bytes) (l l' : Nat) :
    (x.updateRecord s data l).2 = (y.updateRecord s data l').2 := by
  rw [Bool.eq_iff_iff, updateRecord_ok_iff, updateRecord_ok_iff, h.live]
  exact and_congr_right fun hs => by rw [h.slotLen hs]

/-- In place on the one page; on the other one the record is gone and comes in again at the end. -/
theorem Tighter.updateRecord_replace (h : Tighter x y) (hok : (x.updateRecord s data l).2 = true)
    (hf : (y.deleteRecord s 0).1.fits s data = true) (l' : Nat) :
    Tighter (x.updateRecord s data l).1 ((y.deleteRecord s 0).1.redoInsert s data l') := by
  have hlive := (h.live s).mp (updateRecord_ok_iff.mp hok).1
  have hslots := slotCount_deleteRecord h.right s 0
  obtain ⟨hwd, hrd⟩ := deleteRecord_bytes_spec s 0 h.right
  have hfits := fits_iff.mp hf
  have hsize : data.length < 2 ^ 16 := by
    have hlen := hfits.2
    simp only [pageSize] at hlen
    omega
  obtain ⟨hwx, hrx⟩ := LawfulPageOps.updateRecord_ok (P := Page) l h.left (decide_eq_true hsize) hok
  obtain ⟨hux, hfx⟩ := updateRecord_header h.left s data l
  have hplaced : Tighter (x.updateRecord s data l).1 ((y.deleteRecord s 0).1.placed s data) := by
    refine ⟨hwx, wf_placed hwd hf, ?_, fun u => ?_, ?_⟩
    · rw [hux, (header_placed hf).1, hslots, h.slots, Nat.max_eq_left hlive.1]
    · rw [read_placed hwd hf, hrd]
      refine (hrx u).trans ?_
      split
      · rfl
      · exact h.read u
    · rw [hfx, (header_placed hf).2, frontier_deleteRecord h.right]
      have := h.frontier
      omega
  rw [redoInsert_eq]
  exact hplaced.of_same (.refl _) (same_stamp _ l').symm

theorem Tighter.updateRecord (h : Tighter x y) (hok : (y.updateRecord s data l').2 = true)
    (hsize : data.length < 2 ^ 16) :
    Tighter (x.updateRecord s data l).1 (y.updateRecord s data l').1 := by
  have hok' : (x.updateRecord s data l).2 = true := by rw [h.updateRecord_ok s data l l', hok]
  obtain ⟨hwx, hrx⟩ := LawfulPageOps.updateRecord_ok (P := Page) l h.left (decide_eq_true hsize) hok'
  obtain ⟨hwy, hry⟩ := LawfulPageOps.updateRecord_ok (P := Page) l' h.right (decide_eq_true hsize) hok
  obtain ⟨hux, hfx⟩ := updateRecord_header h.left s data l
  obtain ⟨huy, hfy⟩ := updateRecord_header h.right s data l'
  refine ⟨hwx, hwy, by rw [hux, huy, h.slots], fun u => ?_, by rw [hfx, hfy]; exact h.frontier⟩
  refine (hrx u).trans (Eq.trans ?_ (hry u).symm)
  split
  · rfl
  · exact h.read u

-- ---------------------------------------------------------------------------
-- Redo
-- ---------------------------------------------------------------------------

/-- On a tighter page an overwrite has room, and gives a page that is tighter than the one on
which the record was deleted and inserted again. -/
theorem Tighter.overwrite_replace (h : Tighter x y) (hf : (y.deleteRecord s 0).1.fits s data = true)
    (l l' : Nat) : overwriteFits x s data = true ∧
      Tighter (overwriteRecord x s data l) ((y.deleteRecord s 0).1.redoInsert s data l') := by
  have hsame : (PageOps.updateRecord x s data 0).2 = (PageOps.updateRecord x s data l).2 :=
    h.updateRecord_ok (y := y) s data 0 0 |>.trans (h.updateRecord_ok (y := y) s data l 0).symm
  have hfits := fits_iff.mp hf
  cases hok : (PageOps.updateRecord x s data l).2 with
  | true =>
    refine ⟨?_, ?_⟩
    · rw [overwriteFits, hsame, hok, if_pos rfl]
      refine decide_eq_true ?_
      have hlen := hfits.2
      simp only [pageSize] at hlen
      omega
    · simp only [overwriteRecord, hok, if_true]
      exact h.updateRecord_replace hok hf l'
  | false =>
    have hdel := h.deleteRecord s 0 0
    refine ⟨?_, ?_⟩
    · rw [overwriteFits, hsame, hok, if_neg (by simp)]
      exact hdel.fits hf
    · simp only [overwriteRecord, hok, Bool.false_eq_true, if_false, updateRecord_fail l hok]
      exact hdel.redoInsert hf l l'

theorem Tighter.overwriteRecord (h : Tighter x y) (hf : overwriteFits y s data = true) (l l' : Nat) :
    overwriteFits x s data = true ∧
      Tighter (overwriteRecord x s data l) (overwriteRecord y s data l') := by
  have hsx : (PageOps.updateRecord x s data 0).2 = (PageOps.updateRecord y s data 0).2 :=
    h.updateRecord_ok s data 0 0
  have hsy : (PageOps.updateRecord y s data 0).2 = (PageOps.updateRecord y s data l').2 :=
    (Tighter.refl h.right).updateRecord_ok s data 0 l'
  have hsl : (PageOps.updateRecord x s data l).2 = (PageOps.updateRecord y s data l').2 :=
    h.updateRecord_ok s data l l'
  rw [overwriteFits, hsy] at hf
  cases hok : (PageOps.updateRecord y s data l').2 with
  | true =>
    rw [hok, if_pos rfl] at hf
    refine ⟨by rw [overwriteFits, hsx, hsy, hok, if_pos rfl, hf], ?_⟩
    simp only [PersistX.overwriteRecord, hsl, hok, if_true]
    exact h.updateRecord hok (of_decide_eq_true hf)
  | false =>
    rw [hok, if_neg (by simp)] at hf
    have hdel := h.deleteRecord s 0 0
    refine ⟨?_, ?_⟩
    · rw [overwriteFits, hsx, hsy, hok, if_neg (by simp)]
      exact hdel.fits hf
    · simp only [PersistX.overwriteRecord, hsl, hok, Bool.false_eq_true, if_false,
        updateRecord_fail l (hsl.trans hok), updateRecord_fail l' hok]
      exact hdel.redoInsert hf l l'

/-- **Redo keeps the relation**, and a record that has room on the page has room on a tighter one. -/
theorem Tighter.redoRecord {b : RecordBody} (h : Tighter x y) (hf : redoFits y b = true) (l : Nat) :
    redoFits x b = true ∧ Tighter (redoRecord x b l) (redoRecord y b l) := by
  cases b with
  | update p s old new key =>
    simp only [redoFits] at hf
    simp only [redoFits, PersistX.redoRecord]
    by_cases ho : old = []
    · rw [if_pos ho] at hf
      simp only [if_pos ho]
      exact ⟨h.fits hf, (h.redoInsert hf l l).setPageLsn l l⟩
    · rw [if_neg ho] at hf
      simp only [if_neg ho]
      by_cases hn : new = []
      · simp only [if_pos hn]
        exact ⟨trivial, (h.deleteRecord s l l).setPageLsn l l⟩
      · rw [if_neg hn] at hf
        simp only [if_neg hn]
        obtain ⟨h₁, h₂⟩ := h.overwriteRecord hf l l
        exact ⟨h₁, h₂.setPageLsn l l⟩
  | clr p s new un =>
    simp only [redoFits] at hf
    simp only [redoFits, PersistX.redoRecord]
    by_cases hn : new = []
    · simp only [if_pos hn]
      exact ⟨trivial, (h.deleteRecord s l l).setPageLsn l l⟩
    · rw [if_neg hn] at hf
      simp only [if_neg hn]
      obtain ⟨h₁, h₂⟩ := h.overwriteRecord hf l l
      exact ⟨h₁, h₂.setPageLsn l l⟩
  | _ => exact ⟨rfl, h.setPageLsn l l⟩

-- ---------------------------------------------------------------------------
-- What the shell does to a page
-- ---------------------------------------------------------------------------

/-- Redo of the UPDATE, on any page tighter than `x`, gives one tighter than `y` with the LSN. -/
def Redoes (x y : Page) (s : Nat) (old new : Bytes) : Prop :=
  ∀ z p key lsn, Tighter z x → redoFits z (.update p s old new key) = true ∧
    Tighter (PersistX.redoRecord z (.update p s old new key) lsn) (y.setPageLsn lsn)

/-- `insert_record`. -/
theorem Redoes.insert (hf : x.fits s data = true) : Redoes x (x.redoInsert s data 0) s [] data := by
  intro z p key lsn h
  exact ⟨by rw [redoFits, if_pos rfl]; exact h.fits hf, (h.redoInsert hf lsn 0).setPageLsn lsn lsn⟩

/-- `delete_record`. -/
theorem Redoes.delete (hold : old ≠ []) : Redoes x (x.deleteRecord s 0).1 s old [] := by
  intro z p key lsn h
  refine ⟨by rw [redoFits, if_neg hold, if_pos rfl], ?_⟩
  simp only [PersistX.redoRecord, if_neg hold, if_true]
  exact (h.deleteRecord s lsn 0).setPageLsn lsn lsn

/-- `delete_record`, and `insert_record` into the slot that has become free. -/
theorem Redoes.replace (hold : old ≠ []) (hnew : new ≠ [])
    (hf : (x.deleteRecord s 0).1.fits s new = true) :
    Redoes x ((x.deleteRecord s 0).1.redoInsert s new 0) s old new := by
  intro z p key lsn h
  obtain ⟨h₁, h₂⟩ := h.overwrite_replace hf lsn 0
  refine ⟨by rw [redoFits, if_neg hold, if_neg hnew, h₁], ?_⟩
  simp only [PersistX.redoRecord, if_neg hold, if_neg hnew]
  exact h₂.setPageLsn lsn lsn

-- ---------------------------------------------------------------------------
-- Pages with a record have been through `init`, or have lost the need
-- ---------------------------------------------------------------------------

/-- A page with a record has its data frontier past the header. -/
theorem inited_of_live (hw : Page.Wf x) (hs : x.Live s) : PageOps.inited x = true := by
  obtain ⟨h₁, h₂⟩ := hw.bounds s hs
  refine decide_eq_true ?_
  rw [Page.frontier] at h₂
  omega

/-- A page that a record was redone on can take records. -/
theorem inited_redoRecord {b : RecordBody} {p : Nat} (hw : Page.Wf x) (hb : b.write? = some (p, s, new))
    (hne : ∀ q u o k, b = .update q u o [] k → o ≠ []) (hf : redoFits x b = true)
    (hlive : new = [] → x.readRecord s ≠ none) (l : Nat) :
    PageOps.inited (PersistX.redoRecord x b l) = true := by
  obtain ⟨hwr, hread⟩ := redoRecord_spec l (show LawfulPageOps.Wf x from hw) hb hne hf
  by_cases hn : new = []
  · -- a delete leaves the frontier where it is
    obtain ⟨d, hd⟩ := Option.ne_none_iff_exists'.mp (hlive hn)
    have hi := inited_of_live hw ((live_iff_read hw).mpr ⟨d, hd⟩)
    subst hn
    cases b with
    | update q u o n k =>
      simp only [RecordBody.write?, Option.some.injEq, Prod.mk.injEq] at hb
      obtain ⟨-, -, rfl⟩ := hb
      have ho : o ≠ [] := hne q u o k rfl
      simp only [PersistX.redoRecord, if_neg ho, if_true]
      rw [DataPageOps.inited_setPageLsn, inited_deleteRecord _ _ hw, hi]
    | clr q u n un =>
      simp only [RecordBody.write?, Option.some.injEq, Prod.mk.injEq] at hb
      obtain ⟨-, -, rfl⟩ := hb
      simp only [PersistX.redoRecord, if_true]
      rw [DataPageOps.inited_setPageLsn, inited_deleteRecord _ _ hw, hi]
    | _ => cases hb
  · have hself : (PersistX.redoRecord x b l).readRecord s = some new := by
      have := hread s
      rwa [if_pos rfl, image_of_ne hn] at this
    exact inited_of_live hwr ((live_iff_read hwr).mpr ⟨new, hself⟩)

end Page

end PersistX
