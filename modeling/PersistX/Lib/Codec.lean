import PersistX.Lib.Bytes

/-!
# Fixed-width fields in a byte buffer

A `Codec α` lays a value of `α` down in `width` bytes and reads it back; the
two directions are inverse to each other. `read` takes one field off the front
of a buffer and fails where the buffer is too short, `readBytes` does the same
for a payload of a given length. `read_eq_some` and `readBytes_eq_some` say
both directions of each at once: what is read is what was written there.

`overwrite` is a write into a file at a position.
-/

namespace Bytes

/-- A fixed-width field. -/
structure Codec (α : Type) where
  width : Nat
  enc : α → List UInt8
  dec : List UInt8 → α
  length_enc : ∀ a, (enc a).length = width
  dec_enc : ∀ a, dec (enc a) = a
  enc_dec : ∀ l, l.length = width → enc (dec l) = l

attribute [simp] Codec.length_enc

/-- Take `n` bytes off the front of the buffer. -/
def readBytes (n : Nat) (buf : List UInt8) : Option (List UInt8 × List UInt8) :=
  if n ≤ buf.length then some (buf.take n, buf.drop n) else none

theorem readBytes_eq_some {n : Nat} {buf a rest : List UInt8} :
    readBytes n buf = some (a, rest) ↔ a.length = n ∧ buf = a ++ rest := by
  unfold readBytes
  constructor
  · intro h
    split at h
    · rename_i hn
      obtain ⟨rfl, rfl⟩ := Prod.mk.inj (Option.some.inj h)
      exact ⟨List.length_take_of_le hn, (List.take_append_drop n buf).symm⟩
    · cases h
  · rintro ⟨rfl, rfl⟩
    rw [if_pos (by simp), List.take_left, List.drop_left]

namespace Codec

variable {α : Type} (c : Codec α)

/-- Take one field off the front of the buffer. -/
def read (buf : List UInt8) : Option (α × List UInt8) :=
  match readBytes c.width buf with
  | some (a, rest) => some (c.dec a, rest)
  | none => none

theorem read_eq_some {buf rest : List UInt8} {a : α} :
    c.read buf = some (a, rest) ↔ buf = c.enc a ++ rest := by
  unfold read
  constructor
  · intro h
    split at h
    · rename_i b rest' hb
      obtain ⟨hlen, rfl⟩ := readBytes_eq_some.mp hb
      obtain ⟨rfl, rfl⟩ := Prod.mk.inj (Option.some.inj h)
      rw [c.enc_dec b hlen]
    · cases h
  · rintro rfl
    rw [readBytes_eq_some.mpr ⟨c.length_enc a, rfl⟩]
    simp only [c.dec_enc]

@[simp] theorem read_enc_append (a : α) (rest : List UInt8) :
    c.read (c.enc a ++ rest) = some (a, rest) :=
  c.read_eq_some.mpr rfl

end Codec

/-- `uint8_t`. -/
def u8 : Codec UInt8 where
  width := 1
  enc v := [v]
  dec l := l.headD 0
  length_enc _ := rfl
  dec_enc _ := rfl
  enc_dec l h := by
    match l, h with
    | [b], _ => rfl

/-- An unsigned number of `n` bytes, as a type with `256 ^ n` values. -/
def le (α : Type) (n : Nat) (toNat : α → Nat) (ofNat : Nat → α)
    (hlt : ∀ a, toNat a < 256 ^ n) (hof : ∀ a, ofNat (toNat a) = a)
    (hto : ∀ v, v < 256 ^ n → toNat (ofNat v) = v) : Codec α where
  width := n
  enc a := leBytes n (toNat a)
  dec l := ofNat (ofLe l)
  length_enc a := length_leBytes n _
  dec_enc a := by rw [ofLe_leBytes_of_lt (hlt a), hof]
  enc_dec l h := by
    have hl : ofLe l < 256 ^ n := h ▸ ofLe_lt l
    rw [hto _ hl, leBytes_ofLe h]

/-- `uint16_t`. -/
def u16 : Codec UInt16 :=
  le UInt16 2 UInt16.toNat UInt16.ofNat (fun a => a.toNat_lt) (fun _ => UInt16.ofNat_toNat)
    (fun _ h => UInt16.toNat_ofNat_of_lt' h)

/-- `uint32_t`. -/
def u32 : Codec UInt32 :=
  le UInt32 4 UInt32.toNat UInt32.ofNat (fun a => a.toNat_lt) (fun _ => UInt32.ofNat_toNat)
    (fun _ h => UInt32.toNat_ofNat_of_lt' h)

/-- `uint64_t`. -/
def u64 : Codec UInt64 :=
  le UInt64 8 UInt64.toNat UInt64.ofNat (fun a => a.toNat_lt) (fun _ => UInt64.ofNat_toNat)
    (fun _ h => UInt64.toNat_ofNat_of_lt' h)

/-- `int64_t`: the bytes of its two's complement. -/
def i64 : Codec Int64 where
  width := 8
  enc a := u64.enc a.toUInt64
  dec l := (u64.dec l).toInt64
  length_enc a := u64.length_enc _
  dec_enc a := by
    rw [u64.dec_enc]
    rfl
  enc_dec l h := by
    have hu : (u64.dec l).toInt64.toUInt64 = u64.dec l := rfl
    rw [hu, u64.enc_dec l h]

@[simp] theorem u8_width : u8.width = 1 := rfl

@[simp] theorem u16_width : u16.width = 2 := rfl

@[simp] theorem u32_width : u32.width = 4 := rfl

@[simp] theorem u64_width : u64.width = 8 := rfl

@[simp] theorem i64_width : i64.width = 8 := rfl

-- ---------------------------------------------------------------------------
-- Files
-- ---------------------------------------------------------------------------

/-- Write `data` into a file at position `off` (within the file or at its end). -/
def overwrite (file : List UInt8) (off : Nat) (data : List UInt8) : List UInt8 :=
  file.take off ++ data ++ file.drop (off + data.length)

/-- A write at the end of the file extends it. -/
@[simp] theorem overwrite_length (file data : List UInt8) :
    overwrite file file.length data = file ++ data := by
  rw [overwrite, List.take_length, List.drop_eq_nil_of_le (by omega), List.append_nil]

end Bytes
