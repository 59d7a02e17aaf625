import PersistX.Common
import PersistX.Lib.Codec

/-!
# PersistX — the log record and its byte layout

`LogRecord` of `log_record.hpp`: one flat record whose fields have the widths
of the source, the constructors, `serialize` and `deserialize`.

Every record starts with a 29-byte header `[4] total_size [8] lsn [8] txn_id
[8] prev_lsn [1] type`. UPDATE, CLR and CHECKPOINT_END add page, slot and the
two length-prefixed images; UPDATE then adds the index key, CLR `undo_next_lsn`.

`deserialize` is given the buffer of the record and returns `none` where the
code would read past its end. `serialize` returns `none` where the total size
does not fit its 32-bit field.

Main results: `deserialize_layout` (what is written is read back) and
`type_of_deserialize` (byte 28 alone decides the type that is read).
-/

namespace PersistX

open Bytes

/-- `LogRecordType`, an enum over `uint8_t`: a cast from a byte can give a value
that has no name. -/
inductive LogRecordType where
  | invalid
  | begin
  | update
  | commit
  | abort
  | txnEnd
  | clr
  | checkpointBegin
  | checkpointEnd
  | other (b : UInt8) (h : 9 ≤ b.toNat)
  deriving DecidableEq

namespace LogRecordType

/-- `static_cast<uint8_t>(type)`. -/
def toByte : LogRecordType → UInt8
  | invalid => 0
  | begin => 1
  | update => 2
  | commit => 3
  | abort => 4
  | txnEnd => 5
  | clr => 6
  | checkpointBegin => 7
  | checkpointEnd => 8
  | other b _ => b

/-- `static_cast<LogRecordType>(byte)`. -/
def ofByte (b : UInt8) : LogRecordType :=
  if h : 9 ≤ b.toNat then other b h
  else
    match b.toNat with
    | 0 => invalid
    | 1 => begin
    | 2 => update
    | 3 => commit
    | 4 => abort
    | 5 => txnEnd
    | 6 => clr
    | 7 => checkpointBegin
    | _ => checkpointEnd

@[simp] theorem ofByte_toByte (t : LogRecordType) : ofByte t.toByte = t := by
  cases t with
  | other b h => simp [ofByte, toByte, h]
  | _ => rfl

/-- The kinds whose layout has page, slot and the two images. -/
def hasImages : LogRecordType → Bool
  | update => true
  | clr => true
  | checkpointEnd => true
  | _ => false

end LogRecordType

/-- `LogRecord`, with the source's default values. -/
structure LogRecord where
  lsn : UInt64 := UInt64.ofNat invalidU64
  txnId : UInt64 := UInt64.ofNat invalidU64
  prevLsn : UInt64 := UInt64.ofNat invalidU64
  type : LogRecordType := .invalid
  pageId : UInt32 := UInt32.ofNat invalidPageId
  slotId : UInt16 := UInt16.ofNat invalidSlotId
  indexKey : Int64 := 0
  oldTupleData : Bytes := []
  newTupleData : Bytes := []
  undoNextLsn : UInt64 := UInt64.ofNat invalidU64
  deriving DecidableEq

namespace LogRecord

-- ---------------------------------------------------------------------------
-- Construction
-- ---------------------------------------------------------------------------

/-- A constructor call, as the program makes them. -/
inductive New where
  | begin (txnId prevLsn : UInt64)
  | commit (txnId prevLsn : UInt64)
  | abort (txnId prevLsn : UInt64)
  | txnEnd (txnId prevLsn : UInt64)
  | checkpointBegin (txnId prevLsn : UInt64)
  | update (txnId prevLsn : UInt64) (pageId : UInt32) (slotId : UInt16) (old new : Bytes)
  | updateKey (txnId prevLsn : UInt64) (pageId : UInt32) (slotId : UInt16) (old new : Bytes)
      (indexKey : Int64)
  | clr (txnId prevLsn : UInt64) (pageId : UInt32) (slotId : UInt16) (old new : Bytes)
      (undoNextLsn : UInt64)
  | checkpointEnd (att dpt : Bytes)

/-- Constructor 2: a record without page, slot and images. -/
def simple (txnId prevLsn : UInt64) (type : LogRecordType) : LogRecord :=
  { txnId, prevLsn, type }

/-- The record a constructor call builds. -/
def New.build : New → LogRecord
  | .begin t p => simple t p .begin
  | .commit t p => simple t p .commit
  | .abort t p => simple t p .abort
  | .txnEnd t p => simple t p .txnEnd
  | .checkpointBegin t p => simple t p .checkpointBegin
  | .update txnId prevLsn pageId slotId old new =>
    { txnId, prevLsn, type := .update, pageId, slotId, oldTupleData := old, newTupleData := new }
  | .updateKey txnId prevLsn pageId slotId old new indexKey =>
    { txnId, prevLsn, type := .update, pageId, slotId, indexKey, oldTupleData := old,
      newTupleData := new }
  | .clr txnId prevLsn pageId slotId old new undoNextLsn =>
    { txnId, prevLsn, type := .clr, pageId, slotId, oldTupleData := old, newTupleData := new,
      undoNextLsn }
  | .checkpointEnd att dpt =>
    { type := .checkpointEnd, oldTupleData := att, newTupleData := dpt }

/-- `set_lsn`. -/
def setLsn (r : LogRecord) (lsn : UInt64) : LogRecord := { r with lsn }

/-- A field that the layout of the record's kind leaves out has its default. -/
structure Canonical (r : LogRecord) : Prop where
  images : r.type.hasImages = false →
    r.pageId = UInt32.ofNat invalidPageId ∧ r.slotId = UInt16.ofNat invalidSlotId ∧
      r.oldTupleData = [] ∧ r.newTupleData = []
  key : r.type ≠ .update → r.indexKey = 0
  undo : r.type ≠ .clr → r.undoNextLsn = UInt64.ofNat invalidU64

theorem New.canonical (c : New) (lsn : UInt64) : (c.build.setLsn lsn).Canonical := by
  cases c <;> constructor <;> simp [New.build, simple, setLsn, LogRecordType.hasImages]

-- ---------------------------------------------------------------------------
-- serialize
-- ---------------------------------------------------------------------------

/-- The size `serialize` computes, before it is cut to 32 bits. -/
def totalSize (r : LogRecord) : Nat :=
  29 + (if r.type.hasImages then 4 + 2 + (4 + r.oldTupleData.length) + (4 + r.newTupleData.length)
    else 0)
    + (if r.type = .update then 8 else 0) + (if r.type = .clr then 8 else 0)

/-- The header after `total_size`. -/
def headerBytes (r : LogRecord) : Bytes :=
  u64.enc r.lsn ++ (u64.enc r.txnId ++ (u64.enc r.prevLsn ++ u8.enc r.type.toByte))

/-- A length-prefixed image. -/
def imageBytes (data : Bytes) : Bytes := u32.enc (UInt32.ofNat data.length) ++ data

/-- Page, slot and the two images, in the kinds that have them. -/
def imagesBytes (r : LogRecord) : Bytes :=
  if r.type.hasImages then
    u32.enc r.pageId ++ (u16.enc r.slotId ++ (imageBytes r.oldTupleData ++ imageBytes r.newTupleData))
  else []

/-- The index key that an UPDATE ends with. -/
def indexKeyBytes (r : LogRecord) : Bytes := if r.type = .update then i64.enc r.indexKey else []

/-- The `undo_next_lsn` that a CLR ends with. -/
def undoNextBytes (r : LogRecord) : Bytes := if r.type = .clr then u64.enc r.undoNextLsn else []

/-- The bytes of a record whose size fits its 32-bit field. -/
def layout (r : LogRecord) : Bytes :=
  u32.enc (UInt32.ofNat r.totalSize) ++ (r.headerBytes ++ (r.imagesBytes ++ (r.indexKeyBytes ++ r.undoNextBytes)))

/-- `serialize`. From 4 GiB on `total_size` and the image sizes are cut to 32
bits and the buffer does not hold the record: `none`. -/
def serialize (r : LogRecord) : Option Bytes :=
  if r.totalSize < 2 ^ 32 then some r.layout else none

@[simp] theorem length_headerBytes (r : LogRecord) : r.headerBytes.length = 25 := by
  simp [headerBytes]

@[simp] theorem length_imageBytes (data : Bytes) : (imageBytes data).length = 4 + data.length := by
  simp [imageBytes]

@[simp] theorem length_layout (r : LogRecord) : r.layout.length = r.totalSize := by
  have hi : r.imagesBytes.length = if r.type.hasImages then
      4 + 2 + (4 + r.oldTupleData.length) + (4 + r.newTupleData.length) else 0 := by
    unfold imagesBytes
    split
    · simp only [List.length_append, length_imageBytes, Codec.length_enc, u32_width, u16_width]
      omega
    · rfl
  have hk : r.indexKeyBytes.length = if r.type = .update then 8 else 0 := by
    unfold indexKeyBytes
    split
    · exact i64.length_enc _
    · rfl
  have hu : r.undoNextBytes.length = if r.type = .clr then 8 else 0 := by
    unfold undoNextBytes
    split
    · exact u64.length_enc _
    · rfl
  unfold layout totalSize
  rw [List.length_append, List.length_append, List.length_append, List.length_append,
    length_headerBytes, hi, hk, hu, u32.length_enc, u32_width]
  omega

theorem le_totalSize (r : LogRecord) : 29 ≤ r.totalSize := by
  unfold totalSize
  omega

-- ---------------------------------------------------------------------------
-- deserialize
-- ---------------------------------------------------------------------------

/-- Read `old_sz` or `new_sz` and the payload after it. -/
def readImage (d : Bytes) : Option (Bytes × Bytes) := do
  let (sz, d) ← u32.read d
  readBytes sz.toNat d

/-- The part of `deserialize` that reads the header. -/
def readHeader (d : Bytes) : Option (LogRecord × Bytes) := do
  let (lsn, d) ← u64.read d
  let (txnId, d) ← u64.read d
  let (prevLsn, d) ← u64.read d
  let (tb, d) ← u8.read d
  return ({ lsn, txnId, prevLsn, type := .ofByte tb }, d)

/-- The part of `deserialize` for the kinds with images. -/
def readImages (r : LogRecord) (d : Bytes) : Option (LogRecord × Bytes) :=
  if r.type.hasImages then do
    let (pageId, d) ← u32.read d
    let (slotId, d) ← u16.read d
    let (old, d) ← readImage d
    let (new, d) ← readImage d
    return ({ r with pageId, slotId, oldTupleData := old, newTupleData := new }, d)
  else some (r, d)

/-- A field that only one kind ends with. -/
def readTrailer {α : Type} (c : Codec α) (kind : LogRecordType) (set : LogRecord → α → LogRecord)
    (r : LogRecord) (d : Bytes) : Option (LogRecord × Bytes) :=
  if r.type = kind then do
    let (a, d) ← c.read d
    return (set r a, d)
  else some (r, d)

/-- The part of `deserialize` for UPDATE. -/
def readIndexKey : LogRecord → Bytes → Option (LogRecord × Bytes) :=
  readTrailer i64 .update fun r indexKey => { r with indexKey }

/-- The part of `deserialize` for CLR. -/
def readUndoNext : LogRecord → Bytes → Option (LogRecord × Bytes) :=
  readTrailer u64 .clr fun r undoNextLsn => { r with undoNextLsn }

/-- `deserialize`, on the buffer of one record; `none` where a copy would read
past the end of the buffer. -/
def deserialize (data : Bytes) : Option LogRecord := do
  let (r, d) ← readHeader (data.drop 4)
  let (r, d) ← readImages r d
  let (r, d) ← readIndexKey r d
  let (r, _) ← readUndoNext r d
  return r

-- ---------------------------------------------------------------------------
-- What is written is read back
-- ---------------------------------------------------------------------------

@[simp] theorem readImage_imageBytes {data : Bytes} (h : data.length < 2 ^ 32) (rest : Bytes) :
    readImage (imageBytes data ++ rest) = some (data, rest) := by
  unfold readImage imageBytes
  rw [List.append_assoc, Codec.read_enc_append]
  have hn : (UInt32.ofNat data.length).toNat = data.length := UInt32.toNat_ofNat_of_lt' h
  simp only [Option.bind_eq_bind, Option.bind_some, hn]
  exact readBytes_eq_some.mpr ⟨rfl, rfl⟩

theorem readHeader_headerBytes (r : LogRecord) (rest : Bytes) :
    readHeader (r.headerBytes ++ rest)
      = some ({ lsn := r.lsn, txnId := r.txnId, prevLsn := r.prevLsn, type := r.type }, rest) := by
  simp [readHeader, headerBytes]

/-- Reading the images completes a record that agrees with `r` elsewhere. -/
theorem readImages_imagesBytes {r : LogRecord} (hc : r.Canonical) (hs : r.totalSize < 2 ^ 32)
    (rest : Bytes) :
    readImages { lsn := r.lsn, txnId := r.txnId, prevLsn := r.prevLsn, type := r.type }
        (r.imagesBytes ++ rest)
      = some ({ r with indexKey := 0, undoNextLsn := UInt64.ofNat invalidU64 }, rest) := by
  unfold readImages imagesBytes
  by_cases himg : r.type.hasImages = true
  · have hsizes : r.oldTupleData.length < 2 ^ 32 ∧ r.newTupleData.length < 2 ^ 32 := by
      rw [totalSize, if_pos himg] at hs
      omega
    simp [himg, readImage_imageBytes hsizes.1, readImage_imageBytes hsizes.2]
  · obtain ⟨hp, hsl, ho, hn⟩ := hc.images (Bool.not_eq_true _ ▸ himg)
    simp [himg, hp, hsl, ho, hn]

theorem readIndexKey_indexKeyBytes {r : LogRecord} (hc : r.Canonical) (rest : Bytes) :
    readIndexKey { r with indexKey := 0, undoNextLsn := UInt64.ofNat invalidU64 }
        (r.indexKeyBytes ++ rest)
      = some ({ r with undoNextLsn := UInt64.ofNat invalidU64 }, rest) := by
  unfold readIndexKey readTrailer indexKeyBytes
  by_cases ht : r.type = .update
  · simp [ht]
  · simp [ht, hc.key ht]

theorem readUndoNext_undoNextBytes {r : LogRecord} (hc : r.Canonical) (rest : Bytes) :
    readUndoNext { r with undoNextLsn := UInt64.ofNat invalidU64 } (r.undoNextBytes ++ rest)
      = some (r, rest) := by
  unfold readUndoNext readTrailer undoNextBytes
  by_cases ht : r.type = .clr
  · rw [if_pos ht, if_pos ht, Codec.read_enc_append]
    rfl
  · simp [ht, ← hc.undo ht]

/-- **Codec.** A record whose size fits is read back field for field. -/
theorem deserialize_layout {r : LogRecord} (hc : r.Canonical) (hs : r.totalSize < 2 ^ 32) :
    deserialize r.layout = some r := by
  have hdrop : r.layout.drop 4
      = r.headerBytes ++ (r.imagesBytes ++ (r.indexKeyBytes ++ (r.undoNextBytes ++ []))) := by
    unfold layout
    rw [← u32_width, ← u32.length_enc, List.drop_left, List.append_nil]
  unfold deserialize
  rw [hdrop, readHeader_headerBytes]
  simp only [Option.bind_eq_bind, Option.bind_some, readImages_imagesBytes hc hs,
    readIndexKey_indexKeyBytes hc, readUndoNext_undoNextBytes hc]
  rfl

-- ---------------------------------------------------------------------------
-- What is read was written
-- ---------------------------------------------------------------------------

theorem readHeader_eq_some {d rest : Bytes} {r : LogRecord} (h : readHeader d = some (r, rest)) :
    ∃ tb, d[24]? = some tb ∧ r.type = .ofByte tb := by
  simp only [readHeader, Option.bind_eq_bind, Option.bind_eq_some_iff] at h
  obtain ⟨⟨lsn, d1⟩, h1, ⟨txnId, d2⟩, h2, ⟨prevLsn, d3⟩, h3, ⟨tb, d4⟩, h4, h5⟩ := h
  rw [Codec.read_eq_some] at h1 h2 h3 h4
  subst h1 h2 h3 h4
  obtain ⟨rfl, rfl⟩ := Prod.mk.inj (Option.some.inj h5)
  refine ⟨tb, ?_, rfl⟩
  simp [List.getElem?_append, u8]

theorem readImages_type {r r' : LogRecord} {d d' : Bytes} (h : readImages r d = some (r', d')) :
    r'.type = r.type := by
  unfold readImages at h
  split at h
  · simp only [Option.bind_eq_bind, Option.bind_eq_some_iff] at h
    obtain ⟨_, _, _, _, _, _, _, _, h5⟩ := h
    obtain ⟨rfl, rfl⟩ := Prod.mk.inj (Option.some.inj h5)
    rfl
  · cases h
    rfl

theorem readTrailer_type {α : Type} {c : Codec α} {kind : LogRecordType}
    {set : LogRecord → α → LogRecord} {r r' : LogRecord} {d d' : Bytes}
    (h : readTrailer c kind set r d = some (r', d')) (hset : ∀ r a, (set r a).type = r.type) :
    r'.type = r.type := by
  unfold readTrailer at h
  split at h
  · simp only [Option.bind_eq_bind, Option.bind_eq_some_iff] at h
    obtain ⟨_, _, h2⟩ := h
    obtain ⟨rfl, rfl⟩ := Prod.mk.inj (Option.some.inj h2)
    exact hset _ _
  · cases h
    rfl

/-- Byte 28 of the buffer decides the type that is read. -/
theorem type_of_deserialize {data : Bytes} {r : LogRecord} (h : deserialize data = some r) :
    ∃ tb, data[28]? = some tb ∧ r.type = .ofByte tb := by
  simp only [deserialize, Option.bind_eq_bind, Option.bind_eq_some_iff] at h
  obtain ⟨⟨r1, d1⟩, h1, ⟨r2, d2⟩, h2, ⟨r3, d3⟩, h3, ⟨r4, d4⟩, h4, h5⟩ := h
  obtain ⟨tb, hb, ht⟩ := readHeader_eq_some h1
  rw [List.getElem?_drop] at hb
  refine ⟨tb, hb, ?_⟩
  obtain rfl := Option.some.inj h5
  unfold readUndoNext at h4
  unfold readIndexKey at h3
  have hundo : r4.type = r3.type := readTrailer_type h4 fun _ _ => rfl
  have hkey : r3.type = r2.type := readTrailer_type h3 fun _ _ => rfl
  have himages : r2.type = r1.type := readImages_type h2
  show r4.type = _
  rw [hundo, hkey, himages, ht]

end LogRecord

end PersistX
