import PersistX.Page.SlotMap
import PersistX.Page.SlotPage

/-!
# PersistX — data pages

A page that has been through `init` has its data frontier behind the header, and
no operation moves it back there; `insert_record` relies on it. A page fresh
from `init` has room for any record of at most `maxRecordLen` bytes.
-/

namespace PersistX

open PageOps LawfulPageOps

/-- The longest record that an empty page has room for: what header, length
prefix and one slot of the directory leave of the page. -/
def maxRecordLen : Nat := pageSize - Page.headerSize - 2 - Page.slotBytes

/-- Pages whose operations leave an initialised page initialised, with room when empty. -/
class DataPageOps (P : Type) extends LawfulPageOps P where
  inited_init : ∀ p, inited (PageOps.init p : P) = true
  inited_setPageLsn : ∀ (x : P) l, inited (setPageLsn x l) = inited x
  inited_redoInsert : ∀ {x : P} {s d} l, Wf x → fits x s d = true → inited (redoInsert x s d l) = true
  inited_updateRecord : ∀ {x : P} {s d} l, Wf x → inited x = true →
    inited (updateRecord x s d l).1 = true
  sizeOk_of_le : ∀ {d : Bytes}, d.length ≤ maxRecordLen → PageOps.sizeOk P d = true
  insertRecord_init : ∀ {d : Bytes} p, d.length ≤ maxRecordLen →
    ∃ x s, insertRecord (PageOps.init p : P) d 0 = some (x, s)

instance : DataPageOps SlotPage where
  inited_init _ := rfl
  inited_setPageLsn _ _ := rfl
  inited_redoInsert _ _ _ := rfl
  inited_updateRecord _ _ _ := rfl
  sizeOk_of_le _ := rfl
  insertRecord_init _ _ := ⟨_, _, rfl⟩

theorem Page.freeSpace_init (p : Nat) : (Page.init p).freeSpace = 4075 := by
  have hwf : Page.Wf (Page.init p) := eqv_wf (eqv_symm (eqv_init (P := Page) p)) wf_zero
  have hfsp : (Page.init p).freeSpacePtr = Page.headerSize := by
    rw [Page.init, Page.freeSpacePtr_setPageLsn, Page.freeSpacePtr_setFreeSpacePtr]
    rfl
  rw [Page.freeSpace, Page.slotDirStart_eq hwf, hfsp, (Page.same_init p).slots]
  rfl

namespace Page

theorem inited_init_bytes (p : Nat) : PageOps.inited (init p) = true := by
  show decide (headerSize ≤ (init p).freeSpacePtr) = true
  rw [init, freeSpacePtr_setPageLsn, freeSpacePtr_setFreeSpacePtr]
  rfl

theorem inited_setPageLsn_bytes (x : Page) (l : Nat) :
    PageOps.inited (x.setPageLsn l) = PageOps.inited x := by
  show decide (headerSize ≤ (x.setPageLsn l).freeSpacePtr) = decide (headerSize ≤ x.freeSpacePtr)
  rw [freeSpacePtr_setPageLsn]

theorem inited_updateRecord_bytes {x : Page} {s : Nat} {d : Bytes} (l : Nat) (hw : Page.Wf x)
    (hi : PageOps.inited x = true) : PageOps.inited (x.updateRecord s d l).1 = true := by
  show decide (headerSize ≤ (x.updateRecord s d l).1.freeSpacePtr) = true
  rw [updateRecord_eq]
  split
  · rename_i hc
    have hb := (hw.bounds s ⟨hc.1, hc.2.1⟩).1
    have hfsp : (x.updated s d).freeSpacePtr = x.freeSpacePtr :=
      (header_memcpy x _ (by omega)).2.2
    rw [freeSpacePtr_stamp, hfsp]
    exact hi
  · exact hi

theorem sizeOk_bytes {d : Bytes} (hd : d.length ≤ maxRecordLen) : PageOps.sizeOk Page d = true := by
  have hmax : maxRecordLen = 4067 := rfl
  show decide (d.length < 2 ^ 16) = true
  rw [decide_eq_true_eq]
  omega

theorem insertRecord_init_bytes {d : Bytes} (p : Nat) (hd : d.length ≤ maxRecordLen) :
    ∃ x s, (init p).insertRecord d 0 = some (x, s) := by
  have hmax : maxRecordLen = 4067 := rfl
  have hmod : d.length % 2 ^ 16 = d.length := Nat.mod_eq_of_lt (by omega)
  have hcan : (init p).canInsert (d.length % 2 ^ 16) = true := by
    rw [hmod, canInsert, freeSpace_init, decide_eq_true_eq, slotBytes]
    split <;> omega
  rw [insertRecord, if_pos hcan]
  exact ⟨_, _, rfl⟩

end Page

instance : DataPageOps Page where
  inited_init := Page.inited_init_bytes
  inited_setPageLsn := Page.inited_setPageLsn_bytes
  inited_redoInsert l hw hf :=
    decide_eq_true (Page.Kept.redoInsert hw (fun _ => rfl) hf l).inited
  inited_updateRecord := Page.inited_updateRecord_bytes
  sizeOk_of_le := Page.sizeOk_bytes
  insertRecord_init := Page.insertRecord_init_bytes

section

variable {P : Type} [DataPageOps P]

open DataPageOps

/-- Undoing an UPDATE leaves an initialised page initialised. -/
theorem inited_undoRecord {x : P} {s : Nat} {old new : Bytes} (lsn : Nat) (hw : Wf x)
    (hi : inited x = true) (hf : undoFits x s old new = true) :
    inited (undoRecord x s old new lsn) = true := by
  rw [undoRecord, inited_setPageLsn]
  simp only [undoFits] at hf
  split
  · rw [inited_deleteRecord _ _ hw, hi]
  · rename_i ho
    rw [if_neg ho] at hf
    split
    · rename_i hn
      rw [if_pos hn] at hf
      exact inited_redoInsert 0 hw hf
    · rename_i hn
      rw [if_neg hn, overwriteFits] at hf
      cases hok : (updateRecord x s old 0).2 with
      | true =>
        simp only [overwriteRecord, hok, if_true]
        exact inited_updateRecord 0 hw hi
      | false =>
        rw [hok, if_neg (by simp)] at hf
        simp only [overwriteRecord, hok, Bool.false_eq_true, if_false, updateRecord_fail 0 hok]
        exact inited_redoInsert 0 (deleteRecord_spec s 0 hw).1 hf

end

end PersistX
