import PersistX.Common
import PersistX.Lib.File
import PersistX.Lib.Transition
import Mathlib.Logic.Function.Basic

/-!
# PersistX — the disk manager

`disk_manager.cpp` over the bytes of its file. Reads give zeros for what lies
behind the end of the file, writes go to `page_id * PAGE_SIZE`, and the page
counter comes from the length of the file.

The stream may give up in the middle of a write: `done` says how many bytes of
the page it took. Other failures, and `flush`, which moves nothing that a read
can see, are left out; so is the mutex.

Main results:

* `DiskManager.answers_eq` — over any calls, torn writes and reopenings
  included, the disk manager answers like `PageStore`, a map from ids to pages.
* `DiskManager.careful_run` — `allocate_page` gives out pages that the file does
  not have and that read as zeros, as long as pages are allocated before they
  are written and no write is torn at the end of the file.
-/

namespace PersistX

open Bytes Transition

/-- The bytes of a page. -/
abbrev Image := { b : Bytes // b.length = pageSize }

namespace Image

/-- `memset(.., 0, PAGE_SIZE)`. -/
def zeros : Image := ⟨List.replicate pageSize 0, List.length_replicate⟩

/-- The first bytes of a page over another page. -/
def tear (src old : Image) (done : Nat) : Image :=
  ⟨src.val.take done ++ old.val.drop done, by
    rw [List.length_append, List.length_take, List.length_drop, src.2, old.2]
    omega⟩

end Image

structure DiskManager where
  /-- What is in the file. -/
  file : Bytes
  nextPageId : Nat

/-- The calls of the disk manager. -/
inductive DiskCall where
  | readPage (p : Nat)
  | writePage (p : Nat) (src : Image) (done : Nat)
  | allocatePage
  | getNumPages
  | setNumPages (n : Nat)
  /-- The destructor, and the constructor on the same file. -/
  | reopen

/-- What a call gives. -/
inductive DiskAnswer where
  | page (x : Image)
  | success (ok : Bool)
  | id (n : Nat)
  | nothing
  deriving DecidableEq

namespace DiskManager

/-- The constructor, on what is in the file; a file that is not there is created. -/
def new (file : Bytes) : DiskManager := ⟨file, file.length / pageSize % 2 ^ 32⟩

/-- `read_page`. -/
def readPage (dm : DiskManager) (p : Nat) : Image :=
  ⟨padded pageSize (readAt dm.file (p * pageSize) pageSize), length_padded (by
    rw [length_readAt]
    exact Nat.min_le_left _ _)⟩

/-- `write_page`; the result is `false` when the stream failed. -/
def writePage (dm : DiskManager) (p : Nat) (src : Image) (done : Nat) : DiskManager × Bool :=
  ({ dm with file := writeAt dm.file (p * pageSize) (src.val.take done) }, decide (pageSize ≤ done))

/-- `allocate_page`. -/
def allocatePage (dm : DiskManager) : DiskManager × Nat :=
  ({ dm with nextPageId := (dm.nextPageId + 1) % 2 ^ 32 }, dm.nextPageId)

/-- `set_num_pages`. -/
def setNumPages (dm : DiskManager) (n : Nat) : DiskManager :=
  if n > dm.nextPageId then { dm with nextPageId := n } else dm

def call (dm : DiskManager) : DiskCall → DiskManager × DiskAnswer
  | .readPage p => (dm, .page (dm.readPage p))
  | .writePage p src done => ((dm.writePage p src done).1, .success (dm.writePage p src done).2)
  | .allocatePage => (dm.allocatePage.1, .id dm.allocatePage.2)
  | .getNumPages => (dm, .id dm.nextPageId)
  | .setNumPages n => (dm.setNumPages n, .nothing)
  | .reopen => (new dm.file, .nothing)

end DiskManager

-- ---------------------------------------------------------------------------
-- What it is for
-- ---------------------------------------------------------------------------

/-- Pages under their ids. `count` is how many whole pages there are when the store is opened. -/
structure PageStore where
  pages : Nat → Image
  count : Nat
  nextPageId : Nat

namespace PageStore

/-- Where the pages end behind a write: a torn page at the end is not counted. -/
def countAfter (count p done : Nat) : Nat :=
  if done = 0 then count else if pageSize ≤ done then max count (p + 1) else max count p

def call (st : PageStore) : DiskCall → PageStore × DiskAnswer
  | .readPage p => (st, .page (st.pages p))
  | .writePage p src done =>
    ({ st with
      pages := Function.update st.pages p (src.tear (st.pages p) done)
      count := countAfter st.count p done }, .success (decide (pageSize ≤ done)))
  | .allocatePage => ({ st with nextPageId := (st.nextPageId + 1) % 2 ^ 32 }, .id st.nextPageId)
  | .getNumPages => (st, .id st.nextPageId)
  | .setNumPages n => ({ st with nextPageId := max st.nextPageId n }, .nothing)
  | .reopen => ({ st with nextPageId := st.count % 2 ^ 32 }, .nothing)

end PageStore

namespace DiskManager

/-- The store that a file is. -/
def store (dm : DiskManager) : PageStore := ⟨dm.readPage, dm.file.length / pageSize, dm.nextPageId⟩

variable {dm dm' : DiskManager} {p q n done : Nat} {src : Image}

-- ---------------------------------------------------------------------------
-- Pages of the file
-- ---------------------------------------------------------------------------

theorem readPage_val (dm : DiskManager) (p : Nat) :
    (dm.readPage p).val = slice (byteAt dm.file) (p * pageSize) pageSize :=
  padded_readAt

theorem readPage_congr (h : dm.file = dm'.file) : dm.readPage p = dm'.readPage p := by
  rw [readPage, readPage]
  simp only [h]

/-- Pages do not overlap. -/
theorem page_disjoint (h : q ≠ p) :
    q * pageSize + pageSize ≤ p * pageSize ∨ p * pageSize + pageSize ≤ q * pageSize := by
  rw [← Nat.succ_mul, ← Nat.succ_mul]
  rcases Nat.lt_or_gt_of_ne h with hlt | hgt
  · exact .inl (Nat.mul_le_mul_right _ hlt)
  · exact .inr (Nat.mul_le_mul_right _ hgt)

/-- Another page is as it was. -/
theorem readPage_writePage_of_ne (h : q ≠ p) :
    (dm.writePage p src done).1.readPage q = dm.readPage q := by
  apply Subtype.ext
  rw [readPage_val, readPage_val, writePage, byteAt_writeAt]
  apply slice_blit_disjoint
  have hlen : (src.val.take done).length ≤ pageSize := by
    rw [List.length_take, src.2]
    exact Nat.min_le_right _ _
  rcases page_disjoint h with h | h
  · exact .inl h
  · exact .inr (by omega)

/-- The page itself has the bytes that were taken, and the old ones behind them. -/
theorem readPage_writePage_self :
    (dm.writePage p src done).1.readPage p = src.tear (dm.readPage p) done := by
  apply Subtype.ext
  have hlen : (src.val.take done).length = min done pageSize := by rw [List.length_take, src.2]
  have hread : ((dm.writePage p src done).1.readPage p).val.length = pageSize :=
    ((dm.writePage p src done).1.readPage p).2
  have htear : (src.tear (dm.readPage p) done).val.length = pageSize :=
    (src.tear (dm.readPage p) done).2
  refine List.ext_getElem (hread.trans htear.symm) fun i hi hi' => ?_
  rw [hread] at hi
  simp only [readPage_val, writePage, byteAt_writeAt, Image.tear, slice, List.getElem_map,
    List.getElem_range, List.getElem_append]
  split
  · rename_i hin
    rw [blit, if_pos ⟨by omega, by omega⟩, Nat.add_sub_cancel_left, List.getD_eq_getElem _ _ hin]
  · rename_i hout
    rw [blit_of_not_mem (.inr (by omega)), List.getElem_drop, List.getElem_map, List.getElem_range]
    congr 1
    omega

/-- How many pages the file has behind a write. -/
theorem count_writePage : (dm.writePage p src done).1.file.length / pageSize =
    PageStore.countAfter (dm.file.length / pageSize) p done := by
  have hpos : 0 < pageSize := by decide
  rw [PageStore.countAfter, writePage]
  split
  · rename_i h
    rw [h, List.take_zero, writeAt_nil]
  · rename_i hdone
    have hlen : (src.val.take done).length = min done pageSize := by rw [List.length_take, src.2]
    have hne : src.val.take done ≠ [] := by
      intro h
      rw [h, List.length_nil] at hlen
      omega
    have hmax : ∀ a b : Nat, max a b / pageSize = max (a / pageSize) (b / pageSize) := by
      intro a b
      rcases Nat.le_total a b with h | h
      · rw [Nat.max_eq_right h, Nat.max_eq_right (Nat.div_le_div_right h)]
      · rw [Nat.max_eq_left h, Nat.max_eq_left (Nat.div_le_div_right h)]
    rw [length_writeAt hne, hlen, hmax]
    split
    · rename_i hall
      rw [Nat.min_eq_right hall, ← Nat.succ_mul, Nat.mul_div_cancel _ hpos]
    · rename_i hpart
      rw [Nat.min_eq_left (by omega), Nat.mul_comm, Nat.mul_add_div hpos,
        Nat.div_eq_of_lt (show done < pageSize by omega), Nat.add_zero]

-- ---------------------------------------------------------------------------
-- The file is the store
-- ---------------------------------------------------------------------------

theorem store_writePage : (dm.writePage p src done).1.store =
    (dm.store.call (.writePage p src done)).1 := by
  have hpages : (dm.writePage p src done).1.readPage =
      Function.update dm.readPage p (src.tear (dm.readPage p) done) := by
    funext q
    by_cases hq : q = p
    · subst hq
      rw [Function.update_self, readPage_writePage_self]
    · rw [Function.update_of_ne hq, readPage_writePage_of_ne hq]
  rw [store, hpages, count_writePage]
  rfl

/-- One call. -/
theorem store_call (dm : DiskManager) (c : DiskCall) :
    (dm.call c).1.store = (dm.store.call c).1 ∧ (dm.call c).2 = (dm.store.call c).2 := by
  cases c with
  | readPage p => exact ⟨rfl, rfl⟩
  | writePage p src done => exact ⟨store_writePage, rfl⟩
  | allocatePage => exact ⟨rfl, rfl⟩
  | getNumPages => exact ⟨rfl, rfl⟩
  | setNumPages n =>
    refine ⟨?_, rfl⟩
    rw [call, setNumPages]
    split
    · rename_i h
      show PageStore.mk _ _ _ = PageStore.mk _ _ (max dm.nextPageId n)
      rw [Nat.max_eq_right (Nat.le_of_lt h)]
      rfl
    · rename_i h
      show PageStore.mk _ _ _ = PageStore.mk _ _ (max dm.nextPageId n)
      rw [Nat.max_eq_left (Nat.le_of_not_lt h)]
      rfl
  | reopen => exact ⟨rfl, rfl⟩

/-- Whatever is called, the disk manager answers like a map from ids to pages. -/
theorem answers_eq (dm : DiskManager) (calls : List DiskCall) :
    answers DiskManager.call dm calls = answers PageStore.call dm.store calls :=
  answers_eq_of_map store store_call dm calls

-- ---------------------------------------------------------------------------
-- Fresh pages
-- ---------------------------------------------------------------------------

def step (dm : DiskManager) (c : DiskCall) : Option DiskManager := some (dm.call c).1

/-- Only pages that have been allocated are written, and a write that does not get to its end is
not at the end of the file. There are ids left. -/
def Careful (dm : DiskManager) : DiskCall → Prop
  | .writePage p _ done => p < dm.nextPageId ∧
    (done = 0 ∨ pageSize ≤ done ∨ p < dm.file.length / pageSize)
  | .allocatePage => dm.nextPageId + 1 < 2 ^ 32
  | .setNumPages n => n < 2 ^ 32
  | _ => True

instance (dm : DiskManager) : (c : DiskCall) → Decidable (dm.Careful c)
  | .writePage _ _ _ => inferInstanceAs (Decidable (_ ∧ _))
  | .allocatePage => inferInstanceAs (Decidable (_ < _))
  | .setNumPages _ => inferInstanceAs (Decidable (_ < _))
  | .readPage _ | .getNumPages | .reopen => inferInstanceAs (Decidable True)

/-- The file ends with a page, and no page of it is behind the counter. -/
structure Counted (dm : DiskManager) : Prop where
  whole : dm.file.length % pageSize = 0
  below : dm.file.length / pageSize ≤ dm.nextPageId
  bound : dm.nextPageId < 2 ^ 32

theorem counted_new {file : Bytes} (hwhole : file.length % pageSize = 0)
    (hbound : file.length / pageSize < 2 ^ 32) : Counted (new file) where
  whole := hwhole
  below := Nat.le_of_eq (Nat.mod_eq_of_lt hbound).symm
  bound := Nat.mod_lt _ (by decide)

theorem Counted.writePage (h : Counted dm) (hp : p < dm.nextPageId)
    (hdone : done = 0 ∨ pageSize ≤ done ∨ p < dm.file.length / pageSize) :
    Counted (dm.writePage p src done).1 where
  whole := by
    have hlen : (src.val.take done).length = min done pageSize := by rw [List.length_take, src.2]
    rw [DiskManager.writePage]
    by_cases hne : src.val.take done = []
    · rw [hne, writeAt_nil]
      exact h.whole
    · have hend : p < dm.file.length / pageSize → (p + 1) * pageSize ≤ dm.file.length := fun hlt =>
        (Nat.le_div_iff_mul_le (by decide)).mp hlt
      rw [length_writeAt hne, hlen]
      rcases hdone with h0 | hall | hlt
      · rw [h0, List.take_zero] at hne
        exact absurd rfl hne
      · rw [Nat.min_eq_right hall, ← Nat.succ_mul]
        rcases Nat.le_total dm.file.length (p.succ * pageSize) with hle | hle
        · rw [Nat.max_eq_right hle, Nat.mul_mod_left]
        · rw [Nat.max_eq_left hle]
          exact h.whole
      · have hin : p * pageSize + min done pageSize ≤ dm.file.length := by
          have := hend hlt
          rw [Nat.succ_mul] at this
          omega
        rw [Nat.max_eq_left hin]
        exact h.whole
  below := by
    have hb := h.below
    rw [count_writePage, PageStore.countAfter]
    show _ ≤ dm.nextPageId
    split
    · exact hb
    · split
      · omega
      · omega
  bound := h.bound

theorem Counted.call (h : Counted dm) {c : DiskCall} (hc : dm.Careful c) : Counted (dm.call c).1 := by
  cases c with
  | readPage p => exact h
  | writePage p src done => exact h.writePage hc.1 hc.2
  | allocatePage =>
    have hnext : (dm.nextPageId + 1) % 2 ^ 32 = dm.nextPageId + 1 := Nat.mod_eq_of_lt hc
    refine ⟨h.whole, ?_, Nat.mod_lt _ (by decide)⟩
    show _ ≤ (dm.nextPageId + 1) % 2 ^ 32
    rw [hnext]
    exact Nat.le_succ_of_le h.below
  | getNumPages => exact h
  | setNumPages n =>
    rw [DiskManager.call, setNumPages]
    split
    · rename_i hn
      exact ⟨h.whole, Nat.le_trans h.below (Nat.le_of_lt hn), hc⟩
    · exact h
  | reopen => exact counted_new h.whole (Nat.lt_of_le_of_lt h.below h.bound)

/-- Pages behind the end of the file read as zeros. -/
theorem readPage_of_le (h : dm.file.length ≤ p * pageSize) : dm.readPage p = Image.zeros := by
  apply Subtype.ext
  have hnil : readAt dm.file (p * pageSize) pageSize = [] := by
    apply List.eq_nil_of_length_eq_zero
    rw [length_readAt]
    omega
  rw [readPage, Image.zeros]
  simp only [hnil, padded, List.nil_append, List.length_nil, Nat.sub_zero]

/-- In a careful run, the next id that `allocate_page` gives is behind every page that the file
has, and reads as zeros, like all ids after it. -/
theorem careful_run {file : Bytes} (hwhole : file.length % pageSize = 0)
    (hbound : file.length / pageSize < 2 ^ 32) (h : Steps step Careful (new file) dm) :
    (∀ q, q * pageSize < dm.file.length → q < dm.allocatePage.2) ∧
      ∀ p, dm.allocatePage.2 ≤ p → dm.readPage p = Image.zeros := by
  have hinv : Counted dm := h.invariant (I := Counted) (by
    intro s c s' hs hc hstep
    cases hstep
    exact hs.call hc) (counted_new hwhole hbound)
  have hlen : dm.file.length ≤ dm.nextPageId * pageSize := by
    have hdiv := Nat.div_add_mod dm.file.length pageSize
    rw [hinv.whole, Nat.add_zero] at hdiv
    rw [← hdiv, Nat.mul_comm]
    exact Nat.mul_le_mul_right _ hinv.below
  constructor
  · intro q hq
    exact Nat.lt_of_mul_lt_mul_right (Nat.lt_of_lt_of_le hq hlen)
  · intro p hp
    exact readPage_of_le (Nat.le_trans hlen (Nat.mul_le_mul_right _ hp))

/-- Two ids are handed out and the second page is written; the file is opened again. -/
def reopened : DiskManager :=
  new ((new []).allocatePage.1.allocatePage.1.writePage 1 Image.zeros pageSize).1.file

theorem reopened_allocates_two : reopened.allocatePage.2 = 2 ∧
    reopened.readPage reopened.allocatePage.2 = Image.zeros := by
  have hrun : Steps step Careful (new []) reopened :=
    ((((Steps.refl.next .allocatePage (by decide) rfl).next .allocatePage (by decide) rfl).next
      (.writePage 1 Image.zeros pageSize) ⟨by decide, .inr (.inl (Nat.le_refl _))⟩ rfl).next
      .reopen trivial rfl)
  have hcount : reopened.nextPageId = 2 := by
    rw [reopened, new, count_writePage]
    rfl
  exact ⟨hcount, (careful_run rfl (by decide) hrun).2 _ (Nat.le_refl _)⟩

end DiskManager

end PersistX
