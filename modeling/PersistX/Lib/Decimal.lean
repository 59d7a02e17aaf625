import Mathlib.Data.List.TakeWhile
import Mathlib.Data.Nat.Digits.Defs

/-!
# Decimal numbers in byte strings

`readInt` is what the `strtol` family makes of a string in base ten: white
space, a sign, as many digits as there are, and nothing is asked of what stands
behind them. It gives the number before any bound on its size.

`decimal` writes a number. `readInt_decimal_append` reads it back, whatever
follows that is not a digit.
-/

namespace Decimal

/-- `isspace` of the C locale. -/
def isSpace (b : UInt8) : Bool := b == 32 || (9 ≤ b && b ≤ 13)

def isDigit (b : UInt8) : Bool := 48 ≤ b && b ≤ 57

/-- The value of a string of digits. -/
def ofDigits (ds : List UInt8) : Nat := ds.foldl (fun v b => 10 * v + (b.toNat - 48)) 0

/-- A sign, and what is behind it. -/
def readSign : List UInt8 → Bool × List UInt8
  | 43 :: s => (false, s)
  | 45 :: s => (true, s)
  | s => (false, s)

/-- `none`: there is no number to be read. -/
def readInt (s : List UInt8) : Option Int :=
  let (negative, s) := readSign (s.dropWhile isSpace)
  let ds := s.takeWhile isDigit
  if ds = [] then none
  else some (if negative then -(ofDigits ds : Int) else ofDigits ds)

/-- The digits of a number. -/
def digits (n : Nat) : List UInt8 := (Nat.toDigits 10 n).map Char.toUInt8

/-- `std::to_string`. -/
def decimal : Int → List UInt8
  | .ofNat n => digits n
  | .negSucc n => 45 :: digits (n + 1)

-- ---------------------------------------------------------------------------
-- Digits
-- ---------------------------------------------------------------------------

variable {n : Nat} {i : Int} {b : UInt8} {s rest : List UInt8}

/-- A digit as a character and as a byte has the same number. -/
theorem toNat_toUInt8_of_isDigit {c : Char} (h : c.isDigit) :
    c.toUInt8.toNat = c.toNat ∧ isDigit c.toUInt8 = true := by
  have hc := Char.isDigit_iff_toNat.mp h
  have hlow : ('0').toNat = 48 := rfl
  have hhigh : ('9').toNat = 57 := rfl
  have hnat : c.toUInt8.toNat = c.toNat := by
    show c.toNat % 256 = c.toNat
    exact Nat.mod_eq_of_lt (by omega)
  refine ⟨hnat, ?_⟩
  rw [isDigit, Bool.and_eq_true, decide_eq_true_eq, decide_eq_true_eq, UInt8.le_iff_toNat_le,
    UInt8.le_iff_toNat_le, hnat]
  rw [hlow, hhigh] at hc
  exact hc

theorem isDigit_of_mem_digits (h : b ∈ digits n) : isDigit b = true := by
  obtain ⟨c, hc, rfl⟩ := List.mem_map.mp h
  exact (toNat_toUInt8_of_isDigit (Nat.isDigit_of_mem_toDigits (by decide) (by decide) hc)).2

theorem digits_ne_nil : digits n ≠ [] := by
  rw [digits, ne_eq, List.map_eq_nil_iff]
  exact Nat.toDigits_ne_nil

/-- The digits of a number have its value. -/
theorem ofDigits_digits (n : Nat) : ofDigits (digits n) = n := by
  have hfold : ∀ (l : List Char) (v : Nat), (∀ c ∈ l, c.isDigit) →
      (l.map Char.toUInt8).foldl (fun v b => 10 * v + (b.toNat - 48)) v = Nat.ofDigitChars 10 l v := by
    intro l
    induction l with
    | nil =>
      intro v _
      rw [List.map_nil, List.foldl_nil, Nat.ofDigitChars_nil]
    | cons c l ih =>
      intro v h
      rw [List.map_cons, List.foldl_cons, Nat.ofDigitChars_cons,
        (toNat_toUInt8_of_isDigit (h c List.mem_cons_self)).1]
      exact ih _ fun d hd => h d (List.mem_cons_of_mem _ hd)
  rw [ofDigits, digits, hfold _ _ fun c hc => Nat.isDigit_of_mem_toDigits (by decide) (by decide) hc]
  exact Nat.ofDigitChars_ten_toDigits

/-- Nothing in front of a digit is taken for a space or a sign. -/
theorem not_space_of_isDigit (h : isDigit b = true) : isSpace b = false ∧ b ≠ 43 ∧ b ≠ 45 := by
  rw [isDigit, Bool.and_eq_true, decide_eq_true_eq, decide_eq_true_eq, UInt8.le_iff_toNat_le,
    UInt8.le_iff_toNat_le] at h
  have hlow : (48 : UInt8).toNat = 48 := rfl
  have hhigh : (57 : UInt8).toNat = 57 := rfl
  refine ⟨?_, ?_, ?_⟩
  · have h32 : b ≠ 32 := by
      rintro rfl
      exact absurd h.1 (by decide)
    have h13 : ¬ b ≤ 13 := by
      rw [UInt8.le_iff_toNat_le]
      have : (13 : UInt8).toNat = 13 := rfl
      omega
    simp [isSpace, h32, h13]
  · rintro rfl
    exact absurd h.1 (by decide)
  · rintro rfl
    exact absurd h.1 (by decide)

-- ---------------------------------------------------------------------------
-- Reading back
-- ---------------------------------------------------------------------------

theorem takeWhile_digits_append (hrest : ∀ b, rest.head? = some b → isDigit b = false) :
    (digits n ++ rest).takeWhile isDigit = digits n := by
  rw [List.takeWhile_append_of_pos fun b hb => isDigit_of_mem_digits hb]
  cases rest with
  | nil => rw [List.takeWhile_nil, List.append_nil]
  | cons b rest =>
    rw [List.takeWhile_cons_of_neg (by rw [hrest b rfl]; exact Bool.false_ne_true), List.append_nil]

theorem readSign_of_isDigit (h : ∀ b, s.head? = some b → isDigit b = true) :
    readSign s = (false, s) := by
  cases s with
  | nil => rfl
  | cons b s =>
    obtain ⟨-, hplus, hminus⟩ := not_space_of_isDigit (h b rfl)
    rw [readSign]
    · rintro t ht
      exact hplus (List.cons.inj ht).1
    · rintro t ht
      exact hminus (List.cons.inj ht).1

/-- The digits come first. -/
theorem isDigit_head (h : (digits n ++ rest).head? = some b) : isDigit b = true := by
  obtain ⟨d, ds, hd⟩ := List.exists_cons_of_ne_nil (digits_ne_nil (n := n))
  rw [hd] at h
  cases h
  exact isDigit_of_mem_digits (hd ▸ List.mem_cons_self)

theorem dropWhile_digits_append : (digits n ++ rest).dropWhile isSpace = digits n ++ rest := by
  obtain ⟨d, ds, hd⟩ := List.exists_cons_of_ne_nil (digits_ne_nil (n := n))
  have hdigit : isDigit d = true := isDigit_of_mem_digits (hd ▸ List.mem_cons_self)
  rw [hd, List.cons_append, List.dropWhile_cons_of_neg]
  rw [(not_space_of_isDigit hdigit).1]
  exact Bool.false_ne_true

/-- A number that has been written is read back. -/
theorem readInt_decimal_append (hrest : ∀ b, rest.head? = some b → isDigit b = false) :
    readInt (decimal i ++ rest) = some i := by
  cases i with
  | ofNat n =>
    rw [decimal, readInt, dropWhile_digits_append, readSign_of_isDigit fun b hb => isDigit_head hb]
    simp only [takeWhile_digits_append hrest, if_neg (digits_ne_nil (n := n)), ofDigits_digits]
    rfl
  | negSucc n =>
    rw [decimal, readInt, List.cons_append, List.dropWhile_cons_of_neg (by decide), readSign]
    simp only [takeWhile_digits_append hrest, if_neg (digits_ne_nil (n := n + 1)), ofDigits_digits]
    rfl

theorem readInt_decimal (i : Int) : readInt (decimal i) = some i := by
  have h : readInt (decimal i ++ []) = some i := readInt_decimal_append (by intro b h; cases h)
  rwa [List.append_nil] at h

/-- A number is written without spaces, quotes and control characters. -/
theorem decimal_plain (h : b ∈ decimal i) : b = 45 ∨ isDigit b = true := by
  cases i with
  | ofNat n => exact .inr (isDigit_of_mem_digits h)
  | negSucc n =>
    rw [decimal, List.mem_cons] at h
    exact h.imp_right isDigit_of_mem_digits

end Decimal
