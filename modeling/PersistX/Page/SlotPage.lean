import PersistX.Page.Interface

/-!
# PersistX — a page as a slot map

The reading of a page in which only the slots count: payloads by slot number
and the page LSN, with no bound on the space. Slots behave as in `page.cpp`:
`insert_record` reuses the lowest tombstone and otherwise appends a slot,
`update_record` insists on the length, a stamp never lowers the page LSN.
-/

namespace PersistX

/-- The slots of a page (`none` = tombstone) and its `page_lsn`. -/
structure SlotPage where
  slots : List (Option Bytes)
  lsn : Nat
  deriving DecidableEq, Repr

namespace SlotPage

/-- `read_record`. -/
def readRecord (x : SlotPage) (s : Nat) : Option Bytes := (x.slots[s]?).join

/-- `if (lsn > get_page_lsn()) set_page_lsn(lsn)`. -/
def stamp (x : SlotPage) (lsn : Nat) : SlotPage := { x with lsn := max lsn x.lsn }

/-- `redo_insert`: the slot table grows to cover the slot. -/
def redoInsert (x : SlotPage) (s : Nat) (data : Bytes) (lsn : Nat) : SlotPage :=
  { x with
    slots :=
      if s < x.slots.length then x.slots.set s (some data)
      else x.slots ++ List.replicate (s - x.slots.length) none ++ [some data] }.stamp lsn

/-- `find_free_slot`: the lowest tombstone. -/
def findFreeSlot (slots : List (Option Bytes)) : Nat := slots.findIdx Option.isNone

/-- `insert_record`: the lowest tombstone, or a new slot at the end. -/
def insertRecord (x : SlotPage) (data : Bytes) (lsn : Nat) : Option (SlotPage × Nat) :=
  let s := findFreeSlot x.slots
  some ({ x with
    slots := if s < x.slots.length then x.slots.set s (some data) else x.slots ++ [some data] }.stamp
      lsn, s)

/-- `delete_record`. -/
def deleteRecord (x : SlotPage) (s : Nat) (lsn : Nat) : SlotPage × Bool :=
  match x.readRecord s with
  | none => (x, false)
  | some _ => ({ x with slots := x.slots.set s none }.stamp lsn, true)

/-- `update_record`. -/
def updateRecord (x : SlotPage) (s : Nat) (data : Bytes) (lsn : Nat) : SlotPage × Bool :=
  match x.readRecord s with
  | none => (x, false)
  | some old =>
    if data.length = old.length then ({ x with slots := x.slots.set s (some data) }.stamp lsn, true)
    else (x, false)

instance : PageOps SlotPage where
  zero := ⟨[], 0⟩
  init _ := ⟨[], 0⟩
  inited _ := true
  pageLsn := SlotPage.lsn
  setPageLsn x l := { x with lsn := l }
  readRecord := readRecord
  insertRecord := insertRecord
  redoInsert := redoInsert
  deleteRecord := deleteRecord
  updateRecord := updateRecord
  fits _ _ _ := true
  sizeOk _ := true

@[simp] theorem readRecord_stamp (x : SlotPage) (l s : Nat) :
    (x.stamp l).readRecord s = x.readRecord s := rfl

theorem lt_of_readRecord {x : SlotPage} {s : Nat} {d : Bytes} (h : x.readRecord s = some d) :
    s < x.slots.length := by
  by_contra hge
  rw [readRecord, List.getElem?_eq_none (Nat.le_of_not_lt hge)] at h
  cases h

theorem readRecord_set {x : SlotPage} {s : Nat} (v : Option Bytes) (hs : s < x.slots.length)
    (s' : Nat) : readRecord { x with slots := x.slots.set s v } s' =
      if s' = s then v else x.readRecord s' := by
  simp only [readRecord, List.getElem?_set]
  split
  · rename_i h
    subst h
    rw [if_pos rfl]
    simp
  · rename_i h
    rw [if_neg (Ne.symm h)]

theorem readRecord_redoInsert (x : SlotPage) (s : Nat) (d : Bytes) (l s' : Nat) :
    (x.redoInsert s d l).readRecord s' = if s' = s then some d else x.readRecord s' := by
  rw [redoInsert, readRecord_stamp]
  split
  · rename_i hs
    exact readRecord_set (some d) hs s'
  · rename_i hs
    simp only [readRecord]
    rcases Nat.lt_or_ge s' x.slots.length with h | h
    · rw [List.append_assoc, List.getElem?_append_left h, if_neg (by omega)]
    · have hnone : x.slots[s']? = none := List.getElem?_eq_none h
      rw [hnone, List.append_assoc, List.getElem?_append_right h]
      split
      · rename_i heq
        subst heq
        simp
      · rename_i hne
        rcases Nat.lt_or_ge s' s with hlt | hge
        · rw [List.getElem?_append_left (by simp; omega), List.getElem?_replicate]
          split <;> rfl
        · rw [List.getElem?_eq_none (by simp; omega)]

theorem readRecord_deleteRecord (x : SlotPage) (s l s' : Nat) :
    (x.deleteRecord s l).1.readRecord s' = if s' = s then none else x.readRecord s' := by
  rw [deleteRecord]
  cases h : x.readRecord s with
  | none =>
    simp only
    split
    · rename_i heq
      rw [heq, h]
    · rfl
  | some d => exact readRecord_set none (lt_of_readRecord h) s'

theorem readRecord_updateRecord {x : SlotPage} {s l : Nat} {d : Bytes}
    (h : (x.updateRecord s d l).2 = true) : (∃ old, x.readRecord s = some old) ∧
    ∀ s', (x.updateRecord s d l).1.readRecord s' = if s' = s then some d else x.readRecord s' := by
  rw [updateRecord] at h ⊢
  cases hr : x.readRecord s with
  | none => simp [hr] at h
  | some old =>
    simp only [hr] at h ⊢
    split at h
    · rename_i hlen
      rw [if_pos hlen]
      exact ⟨⟨old, rfl⟩, readRecord_set (some d) (lt_of_readRecord hr)⟩
    · simp at h

/-- `insert_record` does what `redo_insert` does at the slot it picks, and that slot is free. -/
theorem insertRecord_eq {x x' : SlotPage} {d : Bytes} {l s : Nat}
    (h : x.insertRecord d l = some (x', s)) : x.readRecord s = none ∧ x' = x.redoInsert s d l := by
  simp only [insertRecord, Option.some.injEq, Prod.mk.injEq] at h
  obtain ⟨rfl, rfl⟩ := h
  rcases Nat.lt_or_ge (findFreeSlot x.slots) x.slots.length with hs | hs
  · refine ⟨?_, by simp only [redoInsert, if_pos hs]⟩
    have := List.findIdx_getElem (w := hs)
    simp only [Option.isNone_iff_eq_none] at this
    rw [readRecord, List.getElem?_eq_getElem hs]
    exact this
  · have heq : findFreeSlot x.slots = x.slots.length := Nat.le_antisymm List.findIdx_le_length hs
    refine ⟨by rw [readRecord, List.getElem?_eq_none hs]; rfl, ?_⟩
    simp only [redoInsert, heq, Nat.sub_self, List.replicate_zero, List.append_nil]

instance : LawfulPageOps SlotPage where
  Wf _ := True
  Eqv := Eq
  eqv_refl _ := rfl
  eqv_symm h := h.symm
  eqv_trans h h' := h.trans h'
  eqv_init _ := rfl
  eqv_lsn h := by rw [h]
  eqv_read _ _ h := by rw [h]
  eqv_fits _ _ _ := rfl
  eqv_wf _ _ := trivial
  eqv_setPageLsn _ h := by rw [h]
  eqv_redoInsert _ _ h _ := by rw [h]
  eqv_deleteRecord _ _ _ h := by rw [h]
  eqv_updateRecord _ _ _ _ h := by rw [h]; exact ⟨rfl, rfl⟩
  wf_zero := trivial
  read_zero _ := rfl
  lsn_zero := rfl
  wf_setPageLsn _ _ := trivial
  read_setPageLsn _ _ _ := rfl
  lsn_setPageLsn _ _ := rfl
  stamp_redoInsert _ _ _ _ _ _ := rfl
  stamp_deleteRecord x s l l' k := by
    simp only [PageOps.deleteRecord, PageOps.setPageLsn, deleteRecord]
    cases x.readRecord s <;> rfl
  stamp_updateRecord x s d l l' k := by
    simp only [PageOps.updateRecord, PageOps.setPageLsn, updateRecord]
    cases x.readRecord s with
    | none => exact ⟨rfl, rfl⟩
    | some old =>
      simp only
      split <;> exact ⟨rfl, rfl⟩
  redoInsert_spec l _ _ _ := ⟨trivial, readRecord_redoInsert _ _ _ l⟩
  deleteRecord_spec s l _ := ⟨trivial, readRecord_deleteRecord _ s l⟩
  deleteRecord_none l _ h := by
    simp only [PageOps.readRecord] at h
    simp only [PageOps.deleteRecord, deleteRecord, h]
  updateRecord_live _ _ h := (readRecord_updateRecord h).1
  updateRecord_ok _ _ _ h := ⟨trivial, (readRecord_updateRecord h).2⟩
  updateRecord_fail {x s d} l h := by
    simp only [PageOps.updateRecord, updateRecord] at h ⊢
    cases hr : x.readRecord s with
    | none => rfl
    | some old =>
      simp only [hr] at h ⊢
      split at h
      · simp at h
      · rename_i hlen
        rw [if_neg hlen]
  inited_deleteRecord _ _ _ := rfl
  insertRecord_spec _ _ _ _ h := ⟨rfl, insertRecord_eq h⟩

end SlotPage

end PersistX
