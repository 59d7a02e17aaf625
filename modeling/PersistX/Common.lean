import Mathlib.Data.List.Basic
import Mathlib.Algebra.Group.Nat.Defs

/-!
# PersistX — common types and constants

The identifiers and sentinels of `common.hpp`. Page, slot and transaction ids
(`page_id_t`, `slot_id_t`, `txn_id_t`), LSNs (`lsn_t`) and counters are natural
numbers; where the code tests a field against a sentinel
(`INVALID_LSN`, `INVALID_PAGE_ID`) the model uses an `Option`, so that no
id can be mistaken for the sentinel. The byte-level codecs
(`Log/LogRecord.lean`, `Page/Layout.lean`) map `none` to the sentinel's bytes.
-/

namespace PersistX

/-- `std::vector<uint8_t>`: tuple images and raw file contents. -/
abbrev Bytes := List UInt8

/-- `PAGE_SIZE`. -/
def pageSize : Nat := 4096

/-- `INVALID_PAGE_ID`. -/
def invalidPageId : Nat := 2 ^ 32 - 1

/-- `INVALID_SLOT_ID`. -/
def invalidSlotId : Nat := 2 ^ 16 - 1

/-- `INVALID_LSN` and `INVALID_TXN_ID`, for the byte-level codec. -/
def invalidU64 : Nat := 2 ^ 64 - 1

/-- `RID`: the stable handle of a record. -/
structure Rid where
  pageId : Nat
  slotId : Nat
  deriving DecidableEq, Repr

/-- `RID::is_valid`. -/
def Rid.isValid (r : Rid) : Bool :=
  decide (r.pageId ≠ invalidPageId) && decide (r.slotId ≠ invalidSlotId)

/-- `RID{}`, the default (invalid) handle. -/
def Rid.invalid : Rid := ⟨invalidPageId, invalidSlotId⟩

end PersistX
