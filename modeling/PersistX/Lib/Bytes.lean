import Mathlib.Data.List.Basic
import Mathlib.Algebra.Group.Nat.Defs

/-!
# Little-endian numbers and byte-addressed memory

`leBytes n v` are the `n` low bytes of `v`, lowest first, `ofLe` reads them
back. A memory is a function from addresses to bytes; `blit` copies a list of
bytes into it and `slice` reads one out (`memcpy` in both directions), `store`
and `load` do the same for numbers.

The laws are the round trip at one place and the frame law at disjoint ones.
-/

namespace Bytes

/-- The `n` low bytes of `v`, lowest first. -/
def leBytes : Nat → Nat → List UInt8
  | 0, _ => []
  | n + 1, v => UInt8.ofNat v :: leBytes n (v / 256)

/-- The number that the bytes stand for, lowest first. -/
def ofLe : List UInt8 → Nat
  | [] => 0
  | b :: l => b.toNat + 256 * ofLe l

@[simp] theorem length_leBytes (n v : Nat) : (leBytes n v).length = n := by
  induction n generalizing v with
  | zero => rfl
  | succ n ih => simp [leBytes, ih]

theorem ofLe_lt (l : List UInt8) : ofLe l < 256 ^ l.length := by
  induction l with
  | nil => simp [ofLe]
  | cons b l ih =>
    have hb : b.toNat < 256 := b.toNat_lt
    rw [ofLe, List.length_cons, Nat.pow_succ]
    omega

theorem ofLe_leBytes (n v : Nat) : ofLe (leBytes n v) = v % 256 ^ n := by
  induction n generalizing v with
  | zero => simp [leBytes, ofLe, Nat.mod_one]
  | succ n ih =>
    rw [leBytes, ofLe, ih, Nat.pow_succ, Nat.mul_comm (256 ^ n) 256, Nat.mod_mul]
    have : (UInt8.ofNat v).toNat = v % 256 := by simp
    rw [this]

theorem ofLe_leBytes_of_lt {n v : Nat} (h : v < 256 ^ n) : ofLe (leBytes n v) = v := by
  rw [ofLe_leBytes, Nat.mod_eq_of_lt h]

theorem leBytes_ofLe {n : Nat} {l : List UInt8} (h : l.length = n) : leBytes n (ofLe l) = l := by
  induction l generalizing n with
  | nil =>
    subst h
    rfl
  | cons b l ih =>
    subst h
    have hb : b.toNat < 256 := b.toNat_lt
    have hmod : (b.toNat + 256 * ofLe l) % 256 = b.toNat := by omega
    have hdiv : (b.toNat + 256 * ofLe l) / 256 = ofLe l := by omega
    rw [List.length_cons, ofLe, leBytes, hdiv, ih rfl]
    congr 1
    apply UInt8.toNat_inj.mp
    rw [UInt8.toNat_ofNat', hmod]

-- ---------------------------------------------------------------------------
-- Memory
-- ---------------------------------------------------------------------------

/-- `memcpy` into memory. -/
def blit (m : Nat → UInt8) (off : Nat) (data : List UInt8) : Nat → UInt8 :=
  fun i => if off ≤ i ∧ i < off + data.length then data.getD (i - off) 0 else m i

/-- `memcpy` out of memory. -/
def slice (m : Nat → UInt8) (off n : Nat) : List UInt8 := (List.range n).map fun i => m (off + i)

/-- Write the `n` low bytes of a number. -/
def store (m : Nat → UInt8) (off n v : Nat) : Nat → UInt8 := blit m off (leBytes n v)

/-- Read a number of `n` bytes. -/
def load (m : Nat → UInt8) (off n : Nat) : Nat := ofLe (slice m off n)

@[simp] theorem length_slice (m : Nat → UInt8) (off n : Nat) : (slice m off n).length = n := by
  simp [slice]

theorem blit_of_not_mem {m : Nat → UInt8} {off i : Nat} {data : List UInt8}
    (h : i < off ∨ off + data.length ≤ i) : blit m off data i = m i := by
  rw [blit, if_neg (by omega)]

theorem slice_congr {m m' : Nat → UInt8} {off n : Nat}
    (h : ∀ i, off ≤ i → i < off + n → m i = m' i) : slice m off n = slice m' off n := by
  rw [slice, slice]
  refine List.map_congr_left fun i hi => ?_
  rw [List.mem_range] at hi
  exact h _ (by omega) (by omega)

theorem load_congr {m m' : Nat → UInt8} {off n : Nat}
    (h : ∀ i, off ≤ i → i < off + n → m i = m' i) : load m off n = load m' off n := by
  rw [load, load, slice_congr h]

theorem slice_blit (m : Nat → UInt8) (off : Nat) (data : List UInt8) :
    slice (blit m off data) off data.length = data := by
  refine List.ext_getElem (by simp) fun i h1 h2 => ?_
  simp only [slice, List.getElem_map, List.getElem_range, blit]
  rw [if_pos ⟨by omega, by omega⟩, Nat.add_sub_cancel_left]
  simp [h2]

theorem load_store (m : Nat → UInt8) (off n v : Nat) : load (store m off n v) off n = v % 256 ^ n := by
  have := slice_blit m off (leBytes n v)
  rw [length_leBytes] at this
  rw [load, store, this, ofLe_leBytes]

theorem slice_blit_disjoint {m : Nat → UInt8} {off off' n : Nat} {data : List UInt8}
    (h : off' + n ≤ off ∨ off + data.length ≤ off') :
    slice (blit m off data) off' n = slice m off' n :=
  slice_congr fun i _ _ => blit_of_not_mem (by omega)

theorem load_blit_disjoint {m : Nat → UInt8} {off off' n : Nat} {data : List UInt8}
    (h : off' + n ≤ off ∨ off + data.length ≤ off') : load (blit m off data) off' n = load m off' n := by
  rw [load, load, slice_blit_disjoint h]

theorem load_store_disjoint {m : Nat → UInt8} {off off' n n' v : Nat}
    (h : off' + n' ≤ off ∨ off + n ≤ off') : load (store m off n v) off' n' = load m off' n' :=
  load_blit_disjoint (by rwa [length_leBytes])

theorem load_lt (m : Nat → UInt8) (off n : Nat) : load m off n < 256 ^ n := by
  have := ofLe_lt (slice m off n)
  rwa [length_slice] at this

end Bytes
