import PersistX.Page.Interface
import PersistX.Lib.Bytes

/-!
# PersistX — the slotted page, byte for byte

`page.cpp` on the 4096 bytes of a page: a 21-byte header, records growing up
from it, and the slot directory growing down from the end of the page, six
bytes a slot.

An address outside the page is undefined behaviour in the source; here a write
to it is lost and a read gives zero. The widths of the parameters (`uint16_t
size`, `uint32_t offset`) appear as `% 2 ^ w` where a value can exceed them;
fields of the page wrap by being stored in that many bytes.
-/

namespace PersistX

open Bytes

/-- `Page`: `buffer_`. LSNs are natural numbers in this model, so the digits of
`page_lsn` above the 64 bits that the buffer has for it are kept beside it;
they are zero as long as fewer than `2 ^ 64` records are logged. -/
structure Page where
  buf : Nat → UInt8
  lsnHigh : Nat

namespace Page

/-- `PAGE_HEADER_SIZE`. -/
def headerSize : Nat := 21

/-- `SLOT_BYTES`. -/
def slotBytes : Nat := 6

/-- `MAX_SLOTS_PER_PAGE`. -/
def maxSlotsPerPage : Nat := (pageSize - headerSize) / slotBytes

/-- `SLOT_TOMBSTONE`. -/
def slotTombstone : Nat := 2 ^ 32 - 1

/-- `memcpy(buffer_ + off, data, data.size())`. -/
def memcpy (x : Page) (off : Nat) (data : Bytes) : Page :=
  { x with buf := blit x.buf off (data.take (pageSize - off)) }

/-- `wr_u8`, `wr_u16`, `wr_u32`, `wr_u64`: the number's `n` low bytes at `off`. -/
def wr (x : Page) (off n v : Nat) : Page := x.memcpy off (leBytes n v)

/-- `rd_u8`, `rd_u16`, `rd_u32`, `rd_u64`. -/
def rd (x : Page) (off n : Nat) : Nat := load x.buf off n

-- ---------------------------------------------------------------------------
-- Header
-- ---------------------------------------------------------------------------

/-- `get_page_id`. -/
def pageId (x : Page) : Nat := x.rd 0 4

/-- `get_page_type`. -/
def pageType (x : Page) : Nat := x.rd 4 1

/-- `get_slot_count`. -/
def slotCount (x : Page) : Nat := x.rd 5 2

/-- `get_tombstone_count`. -/
def tombstoneCount (x : Page) : Nat := x.rd 7 2

/-- `get_free_space_ptr`. -/
def freeSpacePtr (x : Page) : Nat := x.rd 9 4

/-- `get_page_lsn`. -/
def pageLsn (x : Page) : Nat := x.rd 13 8 + 2 ^ 64 * x.lsnHigh

/-- `set_page_id`. -/
def setPageId (x : Page) (v : Nat) : Page := x.wr 0 4 v

/-- `set_page_type`. -/
def setPageType (x : Page) (v : Nat) : Page := x.wr 4 1 v

/-- `set_slot_count`. -/
def setSlotCount (x : Page) (v : Nat) : Page := x.wr 5 2 v

/-- `set_tombstone_count`. -/
def setTombstoneCount (x : Page) (v : Nat) : Page := x.wr 7 2 v

/-- `set_free_space_ptr`. -/
def setFreeSpacePtr (x : Page) (v : Nat) : Page := x.wr 9 4 v

/-- `set_page_lsn`. -/
def setPageLsn (x : Page) (v : Nat) : Page := { x.wr 13 8 v with lsnHigh := v / 2 ^ 64 }

/-- `if (lsn > get_page_lsn()) set_page_lsn(lsn)`. -/
def stamp (x : Page) (lsn : Nat) : Page := if lsn > x.pageLsn then x.setPageLsn lsn else x

/-- `Page()`. -/
def zero : Page := ⟨fun _ => 0, 0⟩

/-- `init(page_id, PageType::DATA)`. -/
def init (pageId : Nat) : Page :=
  (((((zero.setPageId pageId).setPageType 1).setSlotCount 0).setTombstoneCount 0).setFreeSpacePtr
    headerSize).setPageLsn 0

-- ---------------------------------------------------------------------------
-- Slot directory
-- ---------------------------------------------------------------------------

/-- `slot_offset`, in `uint32_t` arithmetic. -/
def slotOffset (sid : Nat) : Nat := (2 ^ 32 + pageSize - (sid + 1) * slotBytes) % 2 ^ 32

/-- `slot_dir_start`. -/
def slotDirStart (x : Page) : Nat :=
  if x.slotCount = 0 then pageSize else slotOffset (x.slotCount - 1)

/-- The offset half of `read_slot`. -/
def slotOff (x : Page) (sid : Nat) : Nat := x.rd (slotOffset sid) 4

/-- The length half of `read_slot`. -/
def slotLen (x : Page) (sid : Nat) : Nat := x.rd (slotOffset sid + 4) 2

/-- `write_slot`. -/
def writeSlot (x : Page) (sid offset length : Nat) : Page :=
  (x.wr (slotOffset sid) 4 offset).wr (slotOffset sid + 4) 2 length

/-- `mark_tombstone`. -/
def markTombstone (x : Page) (sid : Nat) : Page := x.writeSlot sid slotTombstone 0

/-- `find_free_slot`: the lowest tombstone. -/
def findFreeSlot (x : Page) : Nat :=
  ((List.range x.slotCount).find? fun s => x.slotOff s == slotTombstone).getD invalidSlotId

-- ---------------------------------------------------------------------------
-- Records
-- ---------------------------------------------------------------------------

/-- `free_space`. -/
def freeSpace (x : Page) : Nat :=
  if x.freeSpacePtr ≤ x.slotDirStart then x.slotDirStart - x.freeSpacePtr else 0

/-- `can_insert`. -/
def canInsert (x : Page) (recordLen : Nat) : Bool :=
  decide (x.freeSpace ≥ 2 + recordLen + if x.tombstoneCount = 0 then slotBytes else 0)

/-- Step 1 of `insert_record` and `redo_insert`: `[size prefix][payload]` at
`free_space_ptr`, and the pointer moved past it. -/
def writeData (x : Page) (data : Bytes) (size : Nat) : Page :=
  let offset := x.freeSpacePtr
  ((x.wr offset 2 size).memcpy (offset + 2) (data.take size)).setFreeSpacePtr (offset + 2 + size)

/-- `insert_record`. -/
def insertRecord (x : Page) (data : Bytes) (lsn : Nat) : Option (Page × Nat) :=
  let size := data.length % 2 ^ 16
  if x.canInsert size then
    let offset := x.freeSpacePtr
    let y := x.writeData data size
    let (y, sid) :=
      if y.tombstoneCount > 0 then
        (y.setTombstoneCount (y.tombstoneCount - 1), y.findFreeSlot)
      else (y.setSlotCount (y.slotCount + 1), y.slotCount)
    some ((y.writeSlot sid offset size).stamp lsn, sid)
  else none

/-- `redo_insert`: the record goes into the given slot, without a look at the
free space. -/
def redoInsert (x : Page) (sid : Nat) (data : Bytes) (lsn : Nat) : Page :=
  let size := data.length % 2 ^ 16
  -- the guard for a page that never reached the disk
  let x := if x.freeSpacePtr < headerSize then x.setFreeSpacePtr headerSize else x
  let offset := x.freeSpacePtr
  let y := x.writeData data size
  let y :=
    if sid ≥ y.slotCount then y.setSlotCount (sid + 1)
    else if y.slotOff sid = slotTombstone then
      y.setTombstoneCount ((y.tombstoneCount + 2 ^ 16 - 1) % 2 ^ 16)
    else y
  (y.writeSlot sid offset size).stamp lsn

/-- `read_record`. -/
def readRecord (x : Page) (sid : Nat) : Option Bytes :=
  if sid ≥ x.slotCount then none
  else if x.slotOff sid = slotTombstone then none
  else if x.slotOff sid < headerSize then none
  else if (x.slotOff sid + 2 + x.slotLen sid) % 2 ^ 32 > pageSize then none
  else if x.rd (x.slotOff sid) 2 ≠ x.slotLen sid then none
  else some (slice x.buf (x.slotOff sid + 2) (x.slotLen sid))

/-- `delete_record`. -/
def deleteRecord (x : Page) (sid : Nat) (lsn : Nat) : Page × Bool :=
  if sid ≥ x.slotCount then (x, false)
  else if x.slotOff sid = slotTombstone then (x, false)
  else
    let y := x.markTombstone sid
    ((y.setTombstoneCount (y.tombstoneCount + 1)).stamp lsn, true)

/-- `update_record`. -/
def updateRecord (x : Page) (sid : Nat) (data : Bytes) (lsn : Nat) : Page × Bool :=
  let size := data.length % 2 ^ 16
  if sid ≥ x.slotCount then (x, false)
  else if x.slotOff sid = slotTombstone then (x, false)
  else if size ≠ x.slotLen sid then (x, false)
  else ((x.memcpy (x.slotOff sid + 2) (data.take size)).stamp lsn, true)

/-- One round of the loop of `compact`: the slot `s` of the snapshot becomes the
next slot of the page. -/
def compactSlot (snapshot y : Page) (s : Nat) : Page :=
  let oldOff := snapshot.slotOff s
  let oldLen := snapshot.slotLen s
  let newSid := y.slotCount
  let y := y.setSlotCount (newSid + 1)
  if oldOff = slotTombstone then
    let y := y.markTombstone newSid
    y.setTombstoneCount (y.tombstoneCount + 1)
  else
    let newOff := y.freeSpacePtr
    let y := y.writeData (slice snapshot.buf (oldOff + 2) oldLen) oldLen
    y.writeSlot newSid newOff oldLen

/-- The header of `compact` before its loop: no slots, no data. -/
def emptied (x : Page) : Page :=
  ((x.setSlotCount 0).setTombstoneCount 0).setFreeSpacePtr headerSize

/-- `compact`: replay the slots of a snapshot in index order. -/
def compact (x : Page) : Page :=
  (List.range x.slotCount).foldl (compactSlot x) x.emptied

/-- The end of the data region, once `redo_insert` has looked at it. -/
def frontier (x : Page) : Nat := max x.freeSpacePtr headerSize

/-- The slot exists or is the next one, and prefix and payload fit between the
data region and the directory that has this slot. -/
def fits (x : Page) (sid : Nat) (data : Bytes) : Bool :=
  decide (sid ≤ x.slotCount ∧
    x.frontier + 2 + data.length + slotBytes * max x.slotCount (sid + 1) ≤ pageSize)

instance : PageOps Page where
  zero := zero
  init := init
  inited x := decide (headerSize ≤ x.freeSpacePtr)
  pageLsn := pageLsn
  setPageLsn := setPageLsn
  readRecord := readRecord
  insertRecord := insertRecord
  redoInsert := redoInsert
  deleteRecord := deleteRecord
  updateRecord := updateRecord
  fits := fits
  sizeOk d := decide (d.length < 2 ^ 16)

end Page

end PersistX
