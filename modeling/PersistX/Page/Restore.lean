import PersistX.Page.SlotMap

/-!
# PersistX — room for what undo and redo put back

`abort`, `undo` and `redo` put a record into its slot with `redo_insert`, which
writes at the end of the data region and does not look at the free space. The
bytes of a deleted record are not used again, so what counts is everything that was
ever put into the page: `History` is a page with the records that were, and the
data region ends where their total says (`Filled`).

Main result: `restores_iff_room` — a record that is put back can be read, and no
other is touched, exactly if the page has room for all that was ever put into it,
the record once more, and the directory.
-/

namespace PersistX

open Bytes Transition

namespace Page

-- ---------------------------------------------------------------------------
-- The calls of `redo_insert`
-- ---------------------------------------------------------------------------

/-- The fallback of an overwrite: the page, slot and image of its `redo_insert`, if it comes to
that. -/
def overwriteCall (x : Page) (s : Nat) (data : Bytes) (lsn : Nat) : Option (Page × Nat × Bytes) :=
  let (x', ok) := x.updateRecord s data lsn
  if ok then none else some ((x'.deleteRecord s 0).1, s, data)

/-- A change of a data page. -/
inductive Change
  | insertRecord (data : Bytes) (lsn : Nat)
  | deleteRecord (s lsn : Nat)
  | updateRecord (s : Nat) (data : Bytes) (lsn : Nat)
  /-- The undo of an UPDATE, in `abort` and in `undo`. -/
  | undo (s : Nat) (old new : Bytes) (clrLsn : Nat)
  | redo (b : RecordBody) (lsn : Nat)

/-- The call of `redo_insert` that a change makes: page, slot and image. -/
def call (x : Page) : Change → Option (Page × Nat × Bytes)
  | .undo s old new _ =>
    if old = [] then none
    else if new = [] then some (x, s, old)
    else x.overwriteCall s old 0
  | .redo (.update _ s old new _) lsn =>
    if old = [] then some (x, s, new)
    else if new = [] then none
    else x.overwriteCall s new lsn
  | .redo (.clr _ s new _) lsn => if new = [] then none else x.overwriteCall s new lsn
  | _ => none

/-- The page after a change. -/
def change (x : Page) : Change → Page
  | .insertRecord data lsn => ((x.insertRecord data lsn).map Prod.fst).getD x
  | .deleteRecord s lsn => (x.deleteRecord s lsn).1
  | .updateRecord s data lsn => (x.updateRecord s data lsn).1
  | .undo s old new clrLsn => undoRecord x s old new clrLsn
  | .redo b lsn => redoRecord x b lsn

/-- The record that a change puts at the end of the data region. -/
def put (x : Page) : Change → Option Bytes
  | .insertRecord data lsn => if (x.insertRecord data lsn).isSome then some data else none
  | c => (x.call c).map fun (_, _, data) => data

/-- A page, and the records that were ever put into it. -/
abbrev History := Page × List Bytes

/-- One change. -/
def historyStep : History → Change → Option History
  | (x, stored), c => some (x.change c, (x.put c).toList ++ stored)

/-- What records take in the data region, with their size prefixes. -/
def volume (stored : List Bytes) : Nat := stored.foldr (fun data n => 2 + data.length + n) 0

/-- Header, all records ever put into the page, one more for slot `s`, and the directory fit. -/
def room (x : Page) (stored : List Bytes) (s : Nat) (data : Bytes) : Bool :=
  decide (headerSize + volume stored + (2 + data.length) + slotBytes * max x.slotCount (s + 1)
    ≤ pageSize)

/-- What callers see to: `insert_record` is for pages that went through `init` and has a
`uint16_t` size, and a record goes back into a slot that exists, or the next one. -/
def CallerRules : History → Change → Prop
  | (x, _), .insertRecord data _ => data.length < 2 ^ 16 ∧ headerSize ≤ x.freeSpacePtr
  | (x, _), c => ∀ y s data, x.call c = some (y, s, data) → s ≤ x.slotCount

/-- Every record that is put back has room. -/
def HasRoom : History → Change → Prop
  | (x, stored), c => ∀ y s data, x.call c = some (y, s, data) → x.room stored s data = true

/-- A page of the file: fresh from `init`, or zeros. -/
inductive Blank : History → Prop
  | init (p : Nat) : Blank (init p, [])
  | zero : Blank (zero, [])

/-- What `redo_insert` is to do: prefix and payload stay below the directory (which has the slot
then), the slot reads the record, every other slot what it read before. -/
structure Restores (y : Page) (s : Nat) (data : Bytes) (lsn : Nat) : Prop where
  below : max y.freeSpacePtr headerSize + 2 + data.length
    ≤ pageSize - slotBytes * max y.slotCount (s + 1)
  read : (y.redoInsert s data lsn).readRecord s = some data
  others : ∀ s', s' ≠ s → (y.redoInsert s data lsn).readRecord s' = y.readRecord s'

-- ---------------------------------------------------------------------------
-- The data region ends where the history says
-- ---------------------------------------------------------------------------

/-- The page is well formed, and its data region holds everything that was ever put there. -/
structure Filled (x : Page) (stored : List Bytes) : Prop where
  wf : Wf x
  frontier : x.frontier = headerSize + volume stored

variable {x y : Page} {stored : List Bytes} {s : Nat} {data : Bytes}

theorem volume_cons (data : Bytes) (stored : List Bytes) :
    volume (data :: stored) = 2 + data.length + volume stored := rfl

theorem Filled.of_same (h : Filled x stored) (hs : Same x y) : Filled y stored :=
  ⟨h.wf.of_same hs, hs.front.symm.trans h.frontier⟩

theorem Filled.fits (h : Filled x stored) (hs : s ≤ x.slotCount) (hroom : x.room stored s data = true) :
    x.fits s data = true := by
  rw [room, decide_eq_true_eq] at hroom
  rw [fits_iff, h.frontier]
  exact ⟨hs, by omega⟩

theorem Filled.redoInsert (h : Filled x stored) (hf : x.fits s data = true) (lsn : Nat) :
    Filled (x.redoInsert s data lsn) (data :: stored) := by
  rw [redoInsert_eq]
  have hplaced : Filled (x.placed s data) (data :: stored) := by
    refine ⟨wf_placed h.wf hf, ?_⟩
    rw [(header_placed hf).2, h.frontier, volume_cons]
    omega
  exact hplaced.of_same (same_stamp _ lsn).symm

theorem Filled.deleteRecord (h : Filled x stored) (s lsn : Nat) :
    Filled (x.deleteRecord s lsn).1 stored ∧ (x.deleteRecord s lsn).1.slotCount = x.slotCount := by
  refine ⟨⟨(deleteRecord_bytes_spec s lsn h.wf).1, ?_⟩, ?_⟩
  · rw [Page.frontier, freeSpacePtr_deleteRecord h.wf]
    exact h.frontier
  · rw [deleteRecord_eq]
    split
    · rename_i hs
      rw [(same_stamp _ lsn).slots, (slots_deleted h.wf hs).1]
    · rfl

theorem Filled.updateRecord (h : Filled x stored) (s : Nat) (data : Bytes) (lsn : Nat) :
    Filled (x.updateRecord s data lsn).1 stored := by
  rw [updateRecord_eq]
  split
  · rename_i hc
    have hlive : x.Live s := ⟨hc.1, hc.2.1⟩
    have hb := (h.wf.bounds s hlive).1
    have hfsp : (x.updated s data).freeSpacePtr = x.freeSpacePtr :=
      (header_memcpy x _ (by omega)).2.2
    have hupd : Filled (x.updated s data) stored := by
      refine ⟨wf_updated h.wf hlive hc.2.2, ?_⟩
      rw [Page.frontier, hfsp]
      exact h.frontier
    exact hupd.of_same (same_stamp _ lsn).symm
  · exact h

/-- The page on which an overwrite falls back to `redo_insert`. -/
theorem Filled.overwriteCall (h : Filled x stored) {lsn s' : Nat} {data' : Bytes}
    (hcall : x.overwriteCall s data lsn = some (y, s', data')) :
    Filled y stored ∧ y.slotCount = x.slotCount ∧ s' = s ∧ data' = data ∧
      overwriteRecord x s data lsn = y.redoInsert s data lsn := by
  unfold Page.overwriteCall at hcall
  cases hok : (x.updateRecord s data lsn).2 with
  | true => simp [hok] at hcall
  | false =>
    have hsame := updateRecord_fail_eq hok
    simp only [hok, Bool.false_eq_true, if_false, hsame, Option.some.injEq, Prod.mk.injEq] at hcall
    obtain ⟨rfl, rfl, rfl⟩ := hcall
    obtain ⟨hdel, hslots⟩ := h.deleteRecord s 0
    refine ⟨hdel, hslots, rfl, rfl, ?_⟩
    have hok' : (PageOps.updateRecord x s data lsn).2 = false := hok
    have hsame' : (PageOps.updateRecord x s data lsn).1 = x := hsame
    simp only [overwriteRecord, hok', Bool.false_eq_true, if_false, hsame']
    rfl

theorem overwriteCall_none {lsn : Nat} (hcall : x.overwriteCall s data lsn = none) :
    overwriteRecord x s data lsn = (x.updateRecord s data lsn).1 := by
  unfold Page.overwriteCall at hcall
  cases hok : (x.updateRecord s data lsn).2 with
  | false => simp [hok] at hcall
  | true =>
    have hok' : (PageOps.updateRecord x s data lsn).2 = true := hok
    simp only [overwriteRecord, hok', if_true]
    rfl

/-- The page on which a change calls `redo_insert` is as full as the page before it. -/
theorem Filled.call (h : Filled x stored) {c : Change} (hcall : x.call c = some (y, s, data)) :
    Filled y stored ∧ y.slotCount = x.slotCount := by
  have hover : ∀ {s₀ lsn : Nat} {d : Bytes}, x.overwriteCall s₀ d lsn = some (y, s, data) →
      Filled y stored ∧ y.slotCount = x.slotCount := fun ho =>
    ⟨(h.overwriteCall ho).1, (h.overwriteCall ho).2.1⟩
  have hself : ∀ {s₀ : Nat} {d : Bytes}, some (x, s₀, d) = some (y, s, data) →
      Filled y stored ∧ y.slotCount = x.slotCount := by
    intro s₀ d heq
    obtain ⟨rfl, -⟩ := Prod.mk.inj (Option.some.inj heq)
    exact ⟨h, rfl⟩
  unfold Page.call at hcall
  split at hcall
  · split at hcall
    · cases hcall
    · split at hcall
      · exact hself hcall
      · exact hover hcall
  · split at hcall
    · exact hself hcall
    · split at hcall
      · cases hcall
      · exact hover hcall
  · split at hcall
    · cases hcall
    · exact hover hcall
  · cases hcall

/-- An overwrite, with what it puts at the end of the data region. -/
theorem Filled.overwriteRecord (h : Filled x stored) {lsn : Nat}
    (hroom : ∀ y s' data', x.overwriteCall s data lsn = some (y, s', data') →
      s' ≤ x.slotCount ∧ x.room stored s' data' = true) :
    Filled (overwriteRecord x s data lsn)
      (((x.overwriteCall s data lsn).map fun c => c.2.2).toList ++ stored) := by
  cases hcall : x.overwriteCall s data lsn with
  | none =>
    rw [overwriteCall_none hcall]
    exact h.updateRecord s data lsn
  | some c =>
    obtain ⟨y, s', data'⟩ := c
    obtain ⟨hy, hslots, rfl, rfl, heq⟩ := h.overwriteCall hcall
    obtain ⟨hs, hr⟩ := hroom y s' data' hcall
    rw [heq]
    have hroom' : y.room stored s' data' = true := by
      rw [room, hslots]
      exact hr
    exact hy.redoInsert (hy.fits (hslots ▸ hs) hroom') lsn

theorem Filled.setPageLsn (h : Filled x stored) (lsn : Nat) : Filled (x.setPageLsn lsn) stored :=
  h.of_same (same_setPageLsn x lsn).symm

theorem Filled.undo (h : Filled x stored) {old new : Bytes} {clrLsn : Nat}
    (hroom : ∀ y s' data, x.call (.undo s old new clrLsn) = some (y, s', data) →
      s' ≤ x.slotCount ∧ x.room stored s' data = true) :
    Filled (undoRecord x s old new clrLsn)
      (((x.call (.undo s old new clrLsn)).map fun c => c.2.2).toList ++ stored) := by
  refine Filled.setPageLsn ?_ clrLsn
  simp only [Page.call] at hroom ⊢
  split
  · exact (h.deleteRecord s 0).1
  · rename_i hold
    rw [if_neg hold] at hroom
    split
    · rename_i hnew
      rw [if_pos hnew] at hroom
      obtain ⟨hs, hr⟩ := hroom x s old rfl
      exact h.redoInsert (h.fits hs hr) 0
    · rename_i hnew
      rw [if_neg hnew] at hroom
      exact h.overwriteRecord hroom

theorem Filled.redo (h : Filled x stored) {b : RecordBody} {lsn : Nat}
    (hroom : ∀ y s' data, x.call (.redo b lsn) = some (y, s', data) →
      s' ≤ x.slotCount ∧ x.room stored s' data = true) :
    Filled (redoRecord x b lsn)
      (((x.call (.redo b lsn)).map fun c => c.2.2).toList ++ stored) := by
  refine Filled.setPageLsn ?_ lsn
  cases b with
  | update p s old new key =>
    simp only [Page.call] at hroom ⊢
    split
    · rename_i hold
      rw [if_pos hold] at hroom
      obtain ⟨hs, hr⟩ := hroom x s new rfl
      exact h.redoInsert (h.fits hs hr) lsn
    · rename_i hold
      rw [if_neg hold] at hroom
      split
      · exact (h.deleteRecord s lsn).1
      · rename_i hnew
        rw [if_neg hnew] at hroom
        exact h.overwriteRecord hroom
  | clr p s new un =>
    simp only [Page.call] at hroom ⊢
    split
    · exact (h.deleteRecord s lsn).1
    · rename_i hnew
      rw [if_neg hnew] at hroom
      exact h.overwriteRecord hroom
  | _ => exact h

/-- Every change keeps the invariant. -/
theorem filled_step (a : History) (c : Change) (a' : History) (h : Filled a.1 a.2)
    (hok : CallerRules a c ∧ HasRoom a c) (hs : historyStep a c = some a') : Filled a'.1 a'.2 := by
  obtain ⟨x, stored⟩ := a
  obtain ⟨hrules, hroom⟩ := hok
  obtain rfl := Option.some.inj hs
  cases c with
  | insertRecord data lsn =>
    simp only [change, put]
    cases hi : x.insertRecord data lsn with
    | none => exact h
    | some r =>
      obtain ⟨x', s⟩ := r
      obtain ⟨hf, -, rfl⟩ := insertRecord_eq h.wf hrules.2 hrules.1 hi
      exact h.redoInsert hf lsn
  | deleteRecord s lsn => exact (h.deleteRecord s lsn).1
  | updateRecord s data lsn => exact h.updateRecord s data lsn
  | undo s old new clrLsn =>
    exact h.undo fun y s' data hcall => ⟨hrules y s' data hcall, hroom y s' data hcall⟩
  | redo b lsn => exact h.redo fun y s' data hcall => ⟨hrules y s' data hcall, hroom y s' data hcall⟩

theorem filled_blank {a : History} (h : Blank a) : Filled a.1 a.2 := by
  have hzero : Filled zero [] := ⟨wf_zero, rfl⟩
  cases h with
  | init p => exact hzero.of_same (same_init p).symm
  | zero => exact hzero

-- ---------------------------------------------------------------------------
-- Putting a record back
-- ---------------------------------------------------------------------------

theorem Filled.restores_iff (h : Filled y stored) (hs : s ≤ y.slotCount) (lsn : Nat) :
    Restores y s data lsn ↔ y.room stored s data = true := by
  have hfront : max y.freeSpacePtr headerSize = headerSize + volume stored := h.frontier
  constructor
  · intro hr
    have hbelow := hr.below
    rw [hfront] at hbelow
    rw [room, decide_eq_true_eq]
    simp only [pageSize, slotBytes, headerSize] at hbelow ⊢
    omega
  · intro hroom
    have hf := h.fits hs hroom
    have hread : ∀ s', (y.redoInsert s data lsn).readRecord s'
        = if s' = s then some data else y.readRecord s' := by
      intro s'
      rw [redoInsert_eq, (same_stamp _ lsn).read ((wf_placed h.wf hf).of_same (same_stamp _ lsn).symm),
        read_placed h.wf hf]
    refine ⟨?_, by rw [hread, if_pos rfl], fun s' hs' => by rw [hread, if_neg hs']⟩
    rw [room, decide_eq_true_eq] at hroom
    rw [hfront]
    omega

/-- **Undo overruns a page exactly if its history leaves no room.** Behind any changes of a data
page, those that put records back having had room: the next undo or redo step that
calls `redo_insert` restores its record, and touches no other, exactly if header,
everything ever put into the page, the record, and the directory fit into the page. -/
theorem restores_iff_room {a : History} (ha : Blank a)
    (hrun : Steps historyStep (fun a c => CallerRules a c ∧ HasRoom a c) a (x, stored))
    {c : Change} (hcall : x.call c = some (y, s, data)) (hs : s ≤ x.slotCount) (lsn : Nat) :
    Restores y s data lsn ↔ x.room stored s data = true := by
  have hinv := hrun.invariant filled_step (filled_blank ha)
  have hx : Filled x stored := hinv
  obtain ⟨hy, hslots⟩ := hx.call hcall
  rw [hy.restores_iff (by omega) lsn, room, room, hslots]

/-- A deleted record goes back into its slot. -/
theorem restores_deleted_record :
    ∃ x stored, Steps historyStep (fun a c => CallerRules a c ∧ HasRoom a c) (init 0, []) (x, stored) ∧
      x.readRecord 0 = none ∧ Restores x 0 [1, 2] 0 := by
  have hstart : Steps historyStep (fun a c => CallerRules a c ∧ HasRoom a c) (init 0, []) (init 0, []) :=
    .refl
  have hrun := hstart.next (.insertRecord [1, 2] 1)
      ⟨⟨by decide, by decide⟩, fun _ _ _ hcall => by cases hcall⟩ rfl
    |>.next (.deleteRecord 0 2)
      ⟨fun _ _ _ hcall => (by cases hcall), fun _ _ _ hcall => (by cases hcall)⟩ rfl
  have hcall : ∀ y : Page, y.call (.undo 0 [1, 2] [] 3) = some (y, 0, [1, 2]) := fun _ => rfl
  refine ⟨_, _, hrun, by decide, ?_⟩
  exact (restores_iff_room (.init 0) hrun (hcall _) (Nat.zero_le _) 0).mpr (by decide)

/-- A record of 2100 bytes. -/
def longRecord : Bytes := List.replicate 2100 1

/-- A record of 2100 bytes is inserted into an empty page and deleted, and the delete is undone: the
record does not fit behind its own dead bytes, and its slot cannot be read. -/
theorem undo_overruns_page :
    ∃ x stored, Steps historyStep CallerRules (init 0, []) (x, stored) ∧
      x.call (.undo 0 longRecord [] 3) = some (x, 0, longRecord) ∧
      (x.redoInsert 0 longRecord 0).readRecord 0 = none ∧ ¬ Restores x 0 longRecord 0 := by
  have hstart : Steps historyStep CallerRules (init 0, []) (init 0, []) := .refl
  have hrun := hstart.next (.insertRecord longRecord 1) ⟨by decide +kernel, by decide⟩ rfl
    |>.next (.deleteRecord 0 2) (fun _ _ _ hcall => by cases hcall) rfl
  have hnone : ((((((init 0).change (.insertRecord longRecord 1))).change (.deleteRecord 0 2))).redoInsert 0
      longRecord 0).readRecord 0 = none := by
    decide +kernel
  refine ⟨_, _, hrun, rfl, hnone, fun h => ?_⟩
  have hread := h.read
  rw [hnone] at hread
  cases hread

end Page

end PersistX
