import PersistX.Lib.Codec

/-!
# Counted lists of fixed-width entries

`Codec.pair` puts one field behind another. `encCounted` writes a list of
entries behind its length, `readCounted` reads the length and then as many
entries; it fails where the buffer is too short.
-/

namespace Bytes

namespace Codec

variable {α β : Type}

/-- One field behind another. -/
def pair (c : Codec α) (d : Codec β) : Codec (α × β) where
  width := c.width + d.width
  enc p := c.enc p.1 ++ d.enc p.2
  dec l := (c.dec (l.take c.width), d.dec (l.drop c.width))
  length_enc p := by rw [List.length_append, c.length_enc, d.length_enc]
  dec_enc p := by
    rw [List.take_left' (c.length_enc p.1), List.drop_left' (c.length_enc p.1), c.dec_enc, d.dec_enc]
  enc_dec l h := by
    rw [c.enc_dec _ (by rw [List.length_take]; omega), d.enc_dec _ (by rw [List.length_drop]; omega),
      List.take_append_drop]

@[simp] theorem pair_width (c : Codec α) (d : Codec β) : (c.pair d).width = c.width + d.width := rfl

variable (c : Codec α)

/-- The entries of a list, one after the other. -/
def encList (l : List α) : List UInt8 := l.flatMap c.enc

@[simp] theorem length_encList (l : List α) : (c.encList l).length = l.length * c.width := by
  induction l with
  | nil => rw [List.length_nil, Nat.zero_mul]; rfl
  | cons a l ih =>
    show (c.enc a ++ c.encList l).length = _
    rw [List.length_append, c.length_enc, ih, List.length_cons, Nat.succ_mul, Nat.add_comm]

/-- Take `n` entries off the front of the buffer. -/
def readList : Nat → List UInt8 → Option (List α × List UInt8)
  | 0, buf => some ([], buf)
  | n + 1, buf => do
    let (a, buf) ← c.read buf
    let (l, buf) ← readList n buf
    return (a :: l, buf)

theorem readList_encList (l : List α) (rest : List UInt8) :
    c.readList l.length (c.encList l ++ rest) = some (l, rest) := by
  induction l with
  | nil => rfl
  | cons a l ih =>
    have hcons : c.encList (a :: l) ++ rest = c.enc a ++ (c.encList l ++ rest) := List.append_assoc _ _ _
    rw [List.length_cons, readList, hcons, read_enc_append]
    simp only [Option.bind_eq_bind, Option.bind_some, ih]
    rfl

/-- A list behind its length. -/
def encCounted (l : List α) : List UInt8 := u32.enc (UInt32.ofNat l.length) ++ c.encList l

@[simp] theorem length_encCounted (l : List α) : (c.encCounted l).length = 4 + l.length * c.width := by
  rw [encCounted, List.length_append, u32.length_enc, length_encList, u32_width]

/-- Read the length and then as many entries. -/
def readCounted (buf : List UInt8) : Option (List α × List UInt8) := do
  let (count, buf) ← u32.read buf
  c.readList count.toNat buf

theorem readCounted_encCounted {l : List α} (h : l.length < 2 ^ 32) (rest : List UInt8) :
    c.readCounted (c.encCounted l ++ rest) = some (l, rest) := by
  have hcount : (UInt32.ofNat l.length).toNat = l.length := UInt32.toNat_ofNat_of_lt' h
  rw [readCounted, encCounted, List.append_assoc, read_enc_append]
  simp only [Option.bind_eq_bind, Option.bind_some, hcount]
  exact c.readList_encList l rest

end Codec

end Bytes
