import PersistX.Aries.LogManager
import PersistX.Page.Interface
import Mathlib.Data.List.Nodup
import Mathlib.Logic.Function.Basic

/-!
# PersistX — the buffer manager, frame by frame

`BufferManager` of `buffer_manager.cpp` with its five structures: the frames
(`pages_`, `page_ids_`, `pin_count_`, `dirty_`), the page table, the LRU list of
`replacer.cpp` and the free list, over the file of the disk manager and the
log manager that `enforce_wal` flushes.

A `page_id_t` is an `Option Nat`, `none` being `INVALID_PAGE_ID`, which the
calls accept like any other id. Reads and writes of the file succeed; a page
behind the end of the file reads as zeros. A `Page*` is the number of a frame.

The counter of the disk manager has 32 bits and starts again at 0; its last
number is `INVALID_PAGE_ID`. A pin count is an `int32_t`, whose overflow is
undefined: it is a natural number here. `IdsLeft` and `PinsLeft` are the bounds
under which neither end is met.

`writes` is not part of the program: it lists the `write_page` calls that were
made, with the page's image and the log manager at that moment.
-/

namespace PersistX.Pool

open PageOps

/-- `page_id_t`. -/
abbrev PageId := Option Nat

/-- The id of a number. -/
def pageIdOf (n : Nat) : PageId := if n = invalidPageId then none else some n

/-- One frame: the entries of `page_ids_`, `pages_`, `pin_count_` and `dirty_`. -/
structure Frame (P : Type) where
  pageId : PageId
  page : P
  pinCount : Nat
  dirty : Bool

/-- A `write_page` call of the pool. -/
structure Write (P : Type) where
  pageId : PageId
  image : P
  log : Option LogManager

/-- `BufferManager`, with the pages of the file and `DiskManager::next_page_id_`. -/
structure BufferManager (P : Type) where
  poolSize : Nat
  frames : Nat → Frame P
  pageTable : PageId → Option Nat
  replacer : List Nat
  freeList : List Nat
  disk : PageId → P
  nextPageId : Nat
  log : Option LogManager
  writes : List (Write P)

-- ---------------------------------------------------------------------------
-- Replacer
-- ---------------------------------------------------------------------------

namespace Replacer

/-- `evict`: the least recently used frame, at the back of the list. -/
def evict (l : List Nat) : Option (Nat × List Nat) := l.getLast?.map fun f => (f, l.dropLast)

/-- `record_access`. -/
def recordAccess (l : List Nat) (f : Nat) : List Nat := if f ∈ l then f :: l.erase f else l

/-- `set_evictable`. -/
def setEvictable (l : List Nat) (f : Nat) (evictable : Bool) : List Nat :=
  if evictable then if f ∈ l then l else f :: l else l.erase f

/-- `remove_from_replacer`. -/
def remove (l : List Nat) (f : Nat) : List Nat := l.erase f

end Replacer

namespace BufferManager

variable {P : Type}

/-- Change one frame. -/
def setFrame (bm : BufferManager P) (f : Nat) (fr : Frame P) : BufferManager P :=
  { bm with frames := Function.update bm.frames f fr }

section Ops

variable [PageOps P]

/-- The constructor: every frame is free. -/
def new (poolSize : Nat) (disk : PageId → P) (nextPageId : Nat) (log : Option LogManager) :
    BufferManager P where
  poolSize
  frames _ := ⟨none, zero, 0, false⟩
  pageTable _ := none
  replacer := []
  freeList := List.range poolSize
  disk
  nextPageId
  log
  writes := []

/-- `enforce_wal`. -/
def enforceWal (bm : BufferManager P) (f : Nat) : BufferManager P :=
  { bm with log := bm.log.map fun lm => lm.flush (pageLsn (bm.frames f).page) }

end Ops

/-- `write_page(page_ids_[f], pages_[f])`. -/
def writePage (bm : BufferManager P) (f : Nat) : BufferManager P :=
  { bm with
    disk := Function.update bm.disk (bm.frames f).pageId (bm.frames f).page
    writes := ⟨(bm.frames f).pageId, (bm.frames f).page, bm.log⟩ :: bm.writes }

section Ops

variable [PageOps P]

/-- Write a frame behind its log records and clear its dirty bit. -/
def flushFrame (bm : BufferManager P) (f : Nat) : BufferManager P :=
  let bm := (bm.enforceWal f).writePage f
  bm.setFrame f { bm.frames f with dirty := false }

/-- Give up the page in a frame, writing it first if it is dirty. -/
def evictPage (bm : BufferManager P) (f : Nat) : BufferManager P :=
  let bm := if (bm.frames f).dirty then bm.flushFrame f else bm
  { bm with pageTable := Function.update bm.pageTable (bm.frames f).pageId none }

/-- The frame for a page that is not resident: a free one, or the victim of the
replacer. `none`: there is neither. -/
def takeFrame (bm : BufferManager P) : Option (BufferManager P × Nat) :=
  match bm.freeList with
  | f :: fl => some ({ bm with freeList := fl }, f)
  | [] =>
    match Replacer.evict bm.replacer with
    | none => none
    | some (f, r) => some ({ bm with replacer := r }.evictPage f, f)

/-- Put a page into a frame and pin it. -/
def install (bm : BufferManager P) (f : Nat) (p : PageId) (page : P) : BufferManager P :=
  { bm.setFrame f ⟨p, page, 1, false⟩ with
    pageTable := Function.update bm.pageTable p (some f)
    replacer := Replacer.setEvictable (Replacer.recordAccess bm.replacer f) f false }

/-- `fetch_page`; `none`: `nullptr`. -/
def fetchPage (bm : BufferManager P) (p : PageId) : BufferManager P × Option Nat :=
  match bm.pageTable p with
  | some f =>
    let bm := bm.setFrame f { bm.frames f with pinCount := (bm.frames f).pinCount + 1 }
    ({ bm with
      replacer := Replacer.recordAccess (Replacer.setEvictable bm.replacer f false) f }, some f)
  | none =>
    match bm.takeFrame with
    | none => (bm, none)
    | some (bm, f) => (bm.install f p (bm.disk p), some f)

/-- `new_page`; `none`: `nullptr`. -/
def newPage (bm : BufferManager P) : BufferManager P × Option (PageId × Nat) :=
  match bm.takeFrame with
  | none => (bm, none)
  | some (bm, f) =>
    let n := bm.nextPageId
    let bm := { bm with nextPageId := (n + 1) % 2 ^ 32 }
    (bm.install f (pageIdOf n) (init n), some (pageIdOf n, f))

/-- `flush_page`. -/
def flushPage (bm : BufferManager P) (p : PageId) : BufferManager P × Bool :=
  match bm.pageTable p with
  | none => (bm, false)
  | some f => (bm.flushFrame f, true)

/-- `flush_all_pages`. -/
def flushAllPages (bm : BufferManager P) : BufferManager P :=
  (List.range bm.poolSize).foldl
    (fun bm f =>
      if (bm.frames f).pageId ≠ none ∧ (bm.frames f).dirty = true then bm.flushFrame f else bm) bm

end Ops

/-- `unpin_page`. -/
def unpinPage (bm : BufferManager P) (p : PageId) (isDirty : Bool) : BufferManager P × Bool :=
  match bm.pageTable p with
  | none => (bm, false)
  | some f =>
    let fr := bm.frames f
    if fr.pinCount = 0 then (bm, false)
    else
      let fr := { fr with pinCount := fr.pinCount - 1, dirty := fr.dirty || isDirty }
      let bm := bm.setFrame f fr
      if fr.pinCount = 0 then
        ({ bm with replacer := Replacer.setEvictable bm.replacer f true }, true)
      else (bm, true)

/-- `delete_page`. -/
def deletePage (bm : BufferManager P) (p : PageId) : BufferManager P × Bool :=
  match bm.pageTable p with
  | none => (bm, true)
  | some f =>
    if (bm.frames f).pinCount > 0 then (bm, false)
    else
      ({ bm.setFrame f { bm.frames f with pageId := none, dirty := false, pinCount := 0 } with
        pageTable := Function.update bm.pageTable p none
        replacer := Replacer.remove bm.replacer f
        freeList := bm.freeList ++ [f] }, true)

-- ---------------------------------------------------------------------------
-- Bounds
-- ---------------------------------------------------------------------------

/-- The next id that is handed out is not `INVALID_PAGE_ID`, and the counter can go on. -/
def IdsLeft (bm : BufferManager P) : Prop := bm.nextPageId < invalidPageId

/-- The pin count of a page can go up by one. -/
def PinsLeft (bm : BufferManager P) (p : PageId) : Prop :=
  ∀ f, bm.pageTable p = some f → (bm.frames f).pinCount + 1 < 2 ^ 31

variable {bm : BufferManager P}

theorem IdsLeft.pageIdOf (h : bm.IdsLeft) : pageIdOf bm.nextPageId = some bm.nextPageId :=
  if_neg (Nat.ne_of_lt h)

theorem IdsLeft.next (h : bm.IdsLeft) : (bm.nextPageId + 1) % 2 ^ 32 = bm.nextPageId + 1 := by
  unfold IdsLeft invalidPageId at h
  exact Nat.mod_eq_of_lt (by omega)

end BufferManager

end PersistX.Pool
