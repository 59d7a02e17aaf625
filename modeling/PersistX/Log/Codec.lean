import PersistX.Log.LogRecord

/-!
# PersistX — the log record codec, both directions

`askedSize` is the size that the type byte and the two inner lengths of a
buffer account for. `deserialize` stays inside a buffer exactly if the buffer
has that many bytes (`deserialize_isSome`), and the record it then returns has
that size (`totalSize_of_deserialize`).

Main result: `codec` — `serialize` and `deserialize` are inverse to each other.
-/

namespace PersistX

open Bytes

namespace LogRecord

-- ---------------------------------------------------------------------------
-- Reading where there are enough bytes
-- ---------------------------------------------------------------------------

theorem read_of_le {α : Type} (c : Codec α) {d : Bytes} (h : c.width ≤ d.length) :
    c.read d = some (c.dec (d.take c.width), d.drop c.width) := by
  rw [Codec.read, readBytes, if_pos h]

theorem readImage_of_le {d : Bytes} (h4 : 4 ≤ d.length) (h : 4 + ofLe (d.take 4) ≤ d.length) :
    ∃ a, readImage d = some (a, d.drop (4 + ofLe (d.take 4))) := by
  have hlt : ofLe (d.take 4) < 2 ^ 32 := by
    have := ofLe_lt (d.take 4)
    rwa [List.length_take_of_le h4] at this
  have hsz : (u32.dec (d.take 4)).toNat = ofLe (d.take 4) := UInt32.toNat_ofNat_of_lt' hlt
  rw [readImage, read_of_le u32 h4]
  simp only [u32_width, Option.bind_eq_bind, Option.bind_some, hsz, readBytes, List.length_drop]
  rw [if_pos (by omega), List.drop_drop]
  exact ⟨_, rfl⟩

theorem readHeader_of_le {d : Bytes} (h : 25 ≤ d.length) :
    ∃ r, readHeader d = some (r, d.drop 25) ∧ r.type = .ofByte (d.getD 24 0) := by
  rw [readHeader, read_of_le u64 (by rw [u64_width]; omega)]
  simp only [u64_width, Option.bind_eq_bind, Option.bind_some]
  rw [read_of_le u64 (by rw [u64_width, List.length_drop]; omega)]
  simp only [u64_width, Option.bind_some, List.drop_drop]
  rw [read_of_le u64 (by rw [u64_width, List.length_drop]; omega)]
  simp only [u64_width, Option.bind_some, List.drop_drop]
  rw [read_of_le u8 (by rw [u8_width, List.length_drop]; omega)]
  simp only [u8_width, Option.bind_some, List.drop_drop]
  refine ⟨_, rfl, ?_⟩
  show LogRecordType.ofByte (((d.drop 24).take 1).headD 0) = _
  congr 1
  rw [List.getD_eq_getElem?_getD, List.headD_eq_head?_getD, List.head?_take, if_neg (by decide),
    List.head?_drop]

theorem readTrailer_of_le {α : Type} {c : Codec α} {kind : LogRecordType}
    {set : LogRecord → α → LogRecord} {r : LogRecord} {d : Bytes}
    (h : (if r.type = kind then c.width else 0) ≤ d.length) :
    ∃ r', readTrailer c kind set r d = some (r', d.drop (if r.type = kind then c.width else 0)) := by
  unfold readTrailer
  split
  · rename_i hk
    rw [if_pos hk] at h
    rw [read_of_le c h]
    exact ⟨_, rfl⟩
  · exact ⟨r, rfl⟩

/-- The four bytes at `off`, as a number. -/
def u32At (b : Bytes) (off : Nat) : Nat := ofLe ((b.drop off).take 4)

/-- The bytes of the images part, by the lengths it has inside. -/
def imagesSize (d : Bytes) : Nat := 4 + 2 + (4 + u32At d 6) + (4 + u32At d (10 + u32At d 6))

theorem readImages_of_le {r : LogRecord} {d : Bytes}
    (h : (if r.type.hasImages then imagesSize d else 0) ≤ d.length) :
    ∃ r', readImages r d = some (r', d.drop (if r.type.hasImages then imagesSize d else 0)) := by
  unfold readImages
  split
  · rename_i hi
    rw [if_pos hi] at h
    unfold imagesSize at h ⊢
    rw [read_of_le u32 (by rw [u32_width]; omega)]
    simp only [u32_width, Option.bind_eq_bind, Option.bind_some]
    rw [read_of_le u16 (by rw [u16_width, List.length_drop]; omega)]
    simp only [u16_width, Option.bind_some, List.drop_drop]
    obtain ⟨old, hold⟩ := @readImage_of_le (d.drop 6) (by rw [List.length_drop]; omega)
      (by rw [List.length_drop]; show 4 + u32At d 6 ≤ _; omega)
    rw [List.drop_drop] at hold
    rw [hold]
    simp only [Option.bind_some]
    have hsize : 6 + (4 + ofLe ((d.drop 6).take 4)) = 10 + u32At d 6 := by
      rw [u32At]
      omega
    rw [hsize]
    obtain ⟨new, hnew⟩ := @readImage_of_le (d.drop (10 + u32At d 6)) (by rw [List.length_drop]; omega)
      (by rw [List.length_drop]; show 4 + u32At d (10 + u32At d 6) ≤ _; omega)
    rw [List.drop_drop] at hnew
    rw [hnew]
    have hend : 10 + u32At d 6 + (4 + ofLe ((d.drop (10 + u32At d 6)).take 4)) =
        4 + 2 + (4 + u32At d 6) + (4 + u32At d (10 + u32At d 6)) := by
      rw [show ofLe ((d.drop (10 + u32At d 6)).take 4) = u32At d (10 + u32At d 6) from rfl]
      omega
    rw [hend]
    exact ⟨_, rfl⟩
  · exact ⟨r, rfl⟩

-- ---------------------------------------------------------------------------
-- The size that a buffer asks for
-- ---------------------------------------------------------------------------

/-- The type byte of a buffer. -/
def typeOf (b : Bytes) : LogRecordType := .ofByte (b.getD 28 0)

/-- The bytes that the type byte and the inner lengths account for. -/
def askedSize (b : Bytes) : Nat :=
  29 + (if (typeOf b).hasImages then imagesSize (b.drop 29) else 0)
    + (if typeOf b = .update then 8 else 0) + (if typeOf b = .clr then 8 else 0)

/-- With enough bytes nothing is read past the end. -/
theorem deserialize_of_le {b : Bytes} (h : askedSize b ≤ b.length) : ∃ r, deserialize b = some r := by
  unfold askedSize at h
  have hlen : 25 ≤ (b.drop 4).length := by
    rw [List.length_drop]
    omega
  obtain ⟨r₁, hheader, htype₁⟩ := readHeader_of_le hlen
  have htype : r₁.type = typeOf b := by
    rw [htype₁, typeOf]
    congr 1
    rw [List.getD_eq_getElem?_getD, List.getD_eq_getElem?_getD, List.getElem?_drop]
  rw [List.drop_drop] at hheader
  rw [← htype] at h
  obtain ⟨r₂, himages⟩ := @readImages_of_le r₁ (b.drop 29) (by rw [List.length_drop]; omega)
  have htype₂ := readImages_type himages
  rw [List.drop_drop] at himages
  obtain ⟨r₃, hkey⟩ := @readTrailer_of_le _ i64 .update (fun r indexKey => { r with indexKey }) r₂
    (b.drop (29 + if r₁.type.hasImages then imagesSize (b.drop 29) else 0))
    (by rw [List.length_drop, htype₂, i64_width]; omega)
  have htype₃ := readTrailer_type hkey fun _ _ => rfl
  rw [List.drop_drop, htype₂, i64_width] at hkey
  obtain ⟨r₄, hundo⟩ := @readTrailer_of_le _ u64 .clr (fun r undoNextLsn => { r with undoNextLsn }) r₃
    (b.drop (29 + (if r₁.type.hasImages then imagesSize (b.drop 29) else 0)
      + if r₁.type = .update then 8 else 0))
    (by rw [List.length_drop, htype₃, htype₂, u64_width]; omega)
  refine ⟨r₄, ?_⟩
  unfold deserialize readIndexKey readUndoNext
  simp only [hheader, himages, hkey, hundo, Option.bind_eq_bind, Option.bind_some]
  rfl

-- ---------------------------------------------------------------------------
-- What is read was written
-- ---------------------------------------------------------------------------

theorem readImage_eq_some {d rest a : Bytes} (h : readImage d = some (a, rest)) :
    a.length < 2 ^ 32 ∧ d = imageBytes a ++ rest := by
  obtain ⟨⟨sz, d'⟩, hsz, hbytes⟩ := Option.bind_eq_some_iff.mp h
  obtain ⟨hlen, hd'⟩ := readBytes_eq_some.mp hbytes
  have hd := (Codec.read_eq_some u32).mp hsz
  refine ⟨by rw [hlen]; exact sz.toNat_lt, ?_⟩
  rw [imageBytes, hlen, UInt32.ofNat_toNat, List.append_assoc, ← hd', hd]

theorem toByte_ofByte (b : UInt8) : (LogRecordType.ofByte b).toByte = b := by
  unfold LogRecordType.ofByte
  split
  · rfl
  · rename_i h
    have hb : b = UInt8.ofNat b.toNat := UInt8.ofNat_toNat.symm
    generalize b.toNat = n at h hb ⊢
    subst hb
    have hn : n = 0 ∨ n = 1 ∨ n = 2 ∨ n = 3 ∨ n = 4 ∨ n = 5 ∨ n = 6 ∨ n = 7 ∨ n = 8 := by omega
    rcases hn with rfl | rfl | rfl | rfl | rfl | rfl | rfl | rfl | rfl <;> rfl

theorem readHeader_bytes {d rest : Bytes} {r : LogRecord} (h : readHeader d = some (r, rest)) :
    d = r.headerBytes ++ rest ∧
      r = { lsn := r.lsn, txnId := r.txnId, prevLsn := r.prevLsn, type := r.type } := by
  simp only [readHeader, Option.bind_eq_bind, Option.bind_eq_some_iff] at h
  obtain ⟨⟨lsn, d1⟩, h1, ⟨txnId, d2⟩, h2, ⟨prevLsn, d3⟩, h3, ⟨tb, d4⟩, h4, h5⟩ := h
  rw [Codec.read_eq_some] at h1 h2 h3 h4
  subst h1 h2 h3 h4
  cases h5
  refine ⟨?_, rfl⟩
  simp only [headerBytes, toByte_ofByte, List.append_assoc]

theorem readImages_bytes {r r' : LogRecord} {d rest : Bytes} (h : readImages r d = some (r', rest)) :
    d = r'.imagesBytes ++ rest ∧
      r' = { r with
        pageId := r'.pageId, slotId := r'.slotId, oldTupleData := r'.oldTupleData
        newTupleData := r'.newTupleData } ∧
      (r.type.hasImages = false → r' = r) ∧
      (r.type.hasImages → r'.oldTupleData.length < 2 ^ 32 ∧ r'.newTupleData.length < 2 ^ 32) := by
  unfold readImages at h
  split at h
  · rename_i hi
    simp only [Option.bind_eq_bind, Option.bind_eq_some_iff] at h
    obtain ⟨⟨pageId, d1⟩, h1, ⟨slotId, d2⟩, h2, ⟨old, d3⟩, h3, ⟨new, d4⟩, h4, h5⟩ := h
    rw [Codec.read_eq_some] at h1 h2
    obtain ⟨hold, rfl⟩ := readImage_eq_some h3
    obtain ⟨hnew, rfl⟩ := readImage_eq_some h4
    subst h1 h2
    cases h5
    refine ⟨?_, rfl, fun hno => ?_, fun _ => ⟨hold, hnew⟩⟩
    · simp only [imagesBytes, if_pos hi, List.append_assoc]
    · rw [hi] at hno
      cases hno
  · rename_i hi
    cases h
    refine ⟨?_, rfl, fun _ => rfl, fun hyes => absurd hyes hi⟩
    rw [imagesBytes, if_neg hi, List.nil_append]

theorem readTrailer_bytes {α : Type} {c : Codec α} {kind : LogRecordType}
    {set : LogRecord → α → LogRecord} {r r' : LogRecord} {d rest : Bytes}
    (h : readTrailer c kind set r d = some (r', rest)) :
    (∃ a, r.type = kind ∧ r' = set r a ∧ d = c.enc a ++ rest) ∨ r.type ≠ kind ∧ r' = r ∧ d = rest := by
  unfold readTrailer at h
  split at h
  · rename_i hk
    obtain ⟨⟨a, d'⟩, hread, h'⟩ := Option.bind_eq_some_iff.mp h
    cases h'
    exact .inl ⟨a, hk, rfl, (Codec.read_eq_some c).mp hread⟩
  · rename_i hk
    cases h
    exact .inr ⟨hk, rfl, rfl⟩

/-- **What is read was written.** Behind its first four bytes, a buffer is the layout of the
record that is read from it, and possibly more. -/
theorem deserialize_bytes {b : Bytes} {r : LogRecord} (h : deserialize b = some r) :
    r.Canonical ∧ (r.oldTupleData.length < 2 ^ 32 ∧ r.newTupleData.length < 2 ^ 32) ∧ ∃ rest,
      b.drop 4 = r.headerBytes ++ (r.imagesBytes ++ (r.indexKeyBytes ++ (r.undoNextBytes ++ rest))) := by
  simp only [deserialize, Option.bind_eq_bind, Option.bind_eq_some_iff] at h
  obtain ⟨⟨r₁, d₁⟩, h₁, ⟨r₂, d₂⟩, h₂, ⟨r₃, d₃⟩, h₃, ⟨r₄, d₄⟩, h₄, h₅⟩ := h
  dsimp only at h₂ h₃ h₄
  obtain rfl : r₄ = r := Option.some.inj h₅
  obtain ⟨hd₁, hr₁⟩ := readHeader_bytes h₁
  obtain ⟨hd₂, hr₂, hsame₂, hlen₂⟩ := readImages_bytes h₂
  have htype₂ := readImages_type h₂
  -- the record before the trailers has their defaults
  have hkey₂ : r₂.indexKey = 0 := by rw [hr₂, hr₁]
  have hundo₂ : r₂.undoNextLsn = UInt64.ofNat invalidU64 := by rw [hr₂, hr₁]
  have himages₂ : r₂.type.hasImages = false → r₂.pageId = UInt32.ofNat invalidPageId ∧
      r₂.slotId = UInt16.ofNat invalidSlotId ∧ r₂.oldTupleData = [] ∧ r₂.newTupleData = [] := by
    intro hno
    rw [hsame₂ (htype₂ ▸ hno), hr₁]
    exact ⟨rfl, rfl, rfl, rfl⟩
  have hsizes₂ : r₂.oldTupleData.length < 2 ^ 32 ∧ r₂.newTupleData.length < 2 ^ 32 := by
    by_cases hi : r₂.type.hasImages
    · exact hlen₂ (htype₂ ▸ hi)
    · obtain ⟨-, -, hold, hnew⟩ := himages₂ (Bool.not_eq_true _ ▸ hi)
      rw [hold, hnew]
      exact ⟨by decide, by decide⟩
  have hheader₂ : r₂.headerBytes = r₁.headerBytes := by
    rw [hr₂]
    rfl
  rw [hd₁, hd₂, ← hheader₂]
  obtain ⟨a, hkind, rfl, rfl⟩ | ⟨hkind, rfl, rfl⟩ := readTrailer_bytes h₃
  · -- UPDATE: nothing follows the index key
    obtain ⟨undo, hclr, rfl, rfl⟩ | ⟨hclr, rfl, rfl⟩ := readTrailer_bytes h₄
    · exact absurd (hkind.symm.trans hclr) (by decide)
    · refine ⟨⟨himages₂, fun hno => absurd hkind hno, fun _ => hundo₂⟩, hsizes₂, d₃, ?_⟩
      have hkey : ({ r₂ with indexKey := a } : LogRecord).indexKeyBytes = i64.enc a := if_pos hkind
      have hundo : ({ r₂ with indexKey := a } : LogRecord).undoNextBytes = [] := if_neg hclr
      rw [hkey, hundo, List.nil_append]
      rfl
  · obtain ⟨undo, hclr, rfl, rfl⟩ | ⟨hclr, rfl, rfl⟩ := readTrailer_bytes h₄
    · refine ⟨⟨himages₂, fun _ => hkey₂, fun hno => absurd hclr hno⟩, hsizes₂, d₄, ?_⟩
      have hkey : ({ r₃ with undoNextLsn := undo } : LogRecord).indexKeyBytes = [] := if_neg hkind
      have hundo : ({ r₃ with undoNextLsn := undo } : LogRecord).undoNextBytes = u64.enc undo :=
        if_pos hclr
      rw [hkey, hundo, List.nil_append]
      rfl
    · refine ⟨⟨himages₂, fun _ => hkey₂, fun _ => hundo₂⟩, hsizes₂, d₂, ?_⟩
      rw [show r₄.indexKeyBytes = [] from if_neg hkind,
        show r₄.undoNextBytes = [] from if_neg hclr, List.nil_append, List.nil_append]

-- ---------------------------------------------------------------------------
-- The size that is asked for is the size that is read
-- ---------------------------------------------------------------------------

theorem typeOf_of_deserialize {b : Bytes} {r : LogRecord} (h : deserialize b = some r) :
    typeOf b = r.type := by
  obtain ⟨tb, hb, htype⟩ := type_of_deserialize h
  rw [typeOf, htype, List.getD_eq_getElem?_getD, hb, Option.getD_some]

/-- A length prefix is the length that it prefixes. -/
theorem u32At_imageBytes {front a rest : Bytes} {off : Nat} (hoff : front.length = off)
    (h : a.length < 2 ^ 32) : u32At (front ++ (imageBytes a ++ rest)) off = a.length := by
  subst hoff
  rw [u32At, List.drop_left, imageBytes, List.append_assoc, ← u32_width,
    ← u32.length_enc (UInt32.ofNat a.length), List.take_left]
  have hround := u32.dec_enc (UInt32.ofNat a.length)
  show ofLe (leBytes 4 (UInt32.ofNat a.length).toNat) = a.length
  have hn : (UInt32.ofNat a.length).toNat = a.length := UInt32.toNat_ofNat_of_lt' h
  rw [hn, ofLe_leBytes_of_lt h]

theorem imagesSize_imagesBytes {r : LogRecord} (hi : r.type.hasImages)
    (hold : r.oldTupleData.length < 2 ^ 32) (hnew : r.newTupleData.length < 2 ^ 32)
    (rest : Bytes) : imagesSize (r.imagesBytes ++ rest)
      = 4 + 2 + (4 + r.oldTupleData.length) + (4 + r.newTupleData.length) := by
  have hsix : (u32.enc r.pageId ++ u16.enc r.slotId).length = 6 := by
    rw [List.length_append, u32.length_enc, u16.length_enc]
    rfl
  have hbytes : r.imagesBytes ++ rest = (u32.enc r.pageId ++ u16.enc r.slotId)
      ++ (imageBytes r.oldTupleData ++ (imageBytes r.newTupleData ++ rest)) := by
    rw [imagesBytes, if_pos hi]
    simp only [List.append_assoc]
  have h₁ : u32At (r.imagesBytes ++ rest) 6 = r.oldTupleData.length := by
    rw [hbytes, u32At_imageBytes hsix hold]
  have h₂ : u32At (r.imagesBytes ++ rest) (10 + r.oldTupleData.length) = r.newTupleData.length := by
    rw [hbytes, ← List.append_assoc]
    refine u32At_imageBytes ?_ hnew
    rw [List.length_append, hsix, length_imageBytes]
    omega
  rw [imagesSize, h₁, h₂]

/-- The record that is read has the size that the buffer asked for, and the buffer has it. -/
theorem totalSize_of_deserialize {b : Bytes} {r : LogRecord} (h : deserialize b = some r) :
    r.totalSize = askedSize b ∧ r.totalSize ≤ b.length := by
  obtain ⟨-, ⟨hold, hnew⟩, rest, hbytes⟩ := deserialize_bytes h
  have htype := typeOf_of_deserialize h
  have hdrop : b.drop 29 = r.imagesBytes ++ (r.indexKeyBytes ++ (r.undoNextBytes ++ rest)) := by
    have h25 : b.drop 29 = (b.drop 4).drop 25 := by rw [List.drop_drop]
    rw [h25, hbytes, ← length_headerBytes r, List.drop_left]
  constructor
  · unfold askedSize totalSize
    rw [htype]
    by_cases hi : r.type.hasImages
    · rw [if_pos hi, if_pos hi, hdrop, imagesSize_imagesBytes hi hold hnew]
    · rw [if_neg hi, if_neg hi]
  · have hlayout := congrArg List.length hbytes
    have hsize := length_layout r
    simp only [layout, List.length_append, u32.length_enc, u32_width] at hsize
    simp only [List.length_append, List.length_drop] at hlayout
    have := length_headerBytes r
    omega

/-- `deserialize` stays inside its buffer exactly if the buffer has the bytes that its type
byte and its inner lengths account for. -/
theorem deserialize_isSome {b : Bytes} : (deserialize b).isSome ↔ askedSize b ≤ b.length := by
  constructor
  · intro h
    obtain ⟨r, hr⟩ := Option.isSome_iff_exists.mp h
    obtain ⟨hasked, hle⟩ := totalSize_of_deserialize hr
    rwa [← hasked]
  · intro h
    obtain ⟨r, hr⟩ := deserialize_of_le h
    exact Option.isSome_iff_exists.mpr ⟨r, hr⟩

-- ---------------------------------------------------------------------------
-- Both directions
-- ---------------------------------------------------------------------------

theorem serialize_of_lt {r : LogRecord} (h : r.totalSize < 2 ^ 32) : r.serialize = some r.layout := by
  rw [serialize, if_pos h]

theorem serialize_eq_some {r : LogRecord} {b : Bytes} (h : r.serialize = some b) :
    r.totalSize < 2 ^ 32 ∧ b = r.layout := by
  unfold serialize at h
  split at h
  · rename_i hs
    exact ⟨hs, (Option.some.inj h).symm⟩
  · cases h

/-- A buffer whose size field is its length, and that is asked for all of it, is the layout
of the record that is read from it. -/
theorem serialize_deserialize {b : Bytes} (hsizeField : u32At b 0 = b.length)
    (hasked : askedSize b = b.length) : ∃ r, deserialize b = some r ∧ r.serialize = some b := by
  obtain ⟨r, hr⟩ := deserialize_of_le (Nat.le_of_eq hasked)
  obtain ⟨htotal, -⟩ := totalSize_of_deserialize hr
  have hlen : r.totalSize = b.length := htotal.trans hasked
  have hfour : (b.take 4).length = 4 := by
    have := le_totalSize r
    rw [List.length_take]
    omega
  have hlt : b.length < 2 ^ 32 := by
    have := ofLe_lt (b.take 4)
    rw [hfour] at this
    rw [← hsizeField]
    exact this
  refine ⟨r, hr, ?_⟩
  rw [serialize_of_lt (hlen ▸ hlt), layout]
  obtain ⟨-, -, rest, hbytes⟩ := deserialize_bytes hr
  -- nothing is left behind the record
  have hrest : rest = [] := by
    have hlayout := congrArg List.length hbytes
    have hsize := length_layout r
    simp only [layout, List.length_append, u32.length_enc, u32_width] at hsize
    simp only [List.length_append, List.length_drop] at hlayout
    rw [← List.length_eq_zero_iff]
    omega
  rw [hrest, List.append_nil] at hbytes
  have hfirst : u32.enc (UInt32.ofNat r.totalSize) = b.take 4 := by
    rw [hlen, ← hsizeField]
    exact u32.enc_dec (b.take 4) hfour
  rw [hfirst, ← hbytes, List.take_append_drop]

/-- **Codec, both directions.** A record that the program builds, of less than 4 GiB, is read
back as it was; a buffer whose size field, type byte and inner lengths account for exactly its
length is written back as it was; and no two of these records have the same bytes. -/
theorem codec :
    (∀ (c : New) (lsn : UInt64), (c.build.setLsn lsn).totalSize < 2 ^ 32 →
      (c.build.setLsn lsn).serialize.bind deserialize = some (c.build.setLsn lsn)) ∧
    (∀ b : Bytes, u32At b 0 = b.length → askedSize b = b.length →
      ∃ r, deserialize b = some r ∧ r.serialize = some b) ∧
    (∀ (c c' : New) (lsn lsn' : UInt64) (b : Bytes),
      (c.build.setLsn lsn).serialize = some b → (c'.build.setLsn lsn').serialize = some b →
      c.build.setLsn lsn = c'.build.setLsn lsn') := by
  refine ⟨fun c lsn hsize => ?_, fun b hsizeField hasked => serialize_deserialize hsizeField hasked,
    fun c c' lsn lsn' b h h' => ?_⟩
  · rw [serialize_of_lt hsize, Option.bind_some, deserialize_layout (c.canonical lsn) hsize]
  · obtain ⟨hsize, rfl⟩ := serialize_eq_some h
    obtain ⟨hsize', hsame⟩ := serialize_eq_some h'
    have hread := deserialize_layout (c.canonical lsn) hsize
    rw [hsame, deserialize_layout (c'.canonical lsn') hsize'] at hread
    exact (Option.some.inj hread).symm

/-- The codec on an UPDATE with a key, and on the bytes of a BEGIN. -/
theorem codec_update_begin :
    ((New.updateKey 7 3 2 1 [10] [20, 30] (-5)).build.setLsn 9).serialize.bind deserialize
        = some ((New.updateKey 7 3 2 1 [10] [20, 30] (-5)).build.setLsn 9) ∧
      ∃ r, deserialize ((New.begin 7 0).build.setLsn 3).layout = some r ∧
        r.serialize = some ((New.begin 7 0).build.setLsn 3).layout :=
  ⟨codec.1 (.updateKey 7 3 2 1 [10] [20, 30] (-5)) 9 (by decide),
    codec.2.1 ((New.begin 7 0).build.setLsn 3).layout (by decide) (by decide)⟩

end LogRecord

end PersistX
