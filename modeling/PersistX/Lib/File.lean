import PersistX.Lib.Bytes
import Mathlib.Data.List.GetD

/-!
# Files that are written at an offset

A file is its bytes. `writeAt` is a `seekp` and a `write`: what lies between the
end of the file and the offset becomes zeros, and a write of nothing changes
nothing. `readAt` is a `seekg` and a `read`, which gets what there is.

`byteAt` is the file as a memory of bytes that are zero behind its end; to it,
`writeAt` is `blit`.
-/

namespace Bytes

/-- The byte at an offset, zero behind the end. -/
def byteAt (file : List UInt8) (i : Nat) : UInt8 := file.getD i 0

/-- At most `n` bytes from `off` on. -/
def readAt (file : List UInt8) (off n : Nat) : List UInt8 := (file.drop off).take n

def writeAt (file : List UInt8) (off : Nat) (data : List UInt8) : List UInt8 :=
  if data = [] then file
  else file.take off ++ List.replicate (off - file.length) 0 ++ data ++ file.drop (off + data.length)

/-- Make up what is missing to `n` bytes with zeros. -/
def padded (n : Nat) (data : List UInt8) : List UInt8 := data ++ List.replicate (n - data.length) 0

variable {file data : List UInt8} {off n i : Nat}

theorem length_readAt : (readAt file off n).length = min n (file.length - off) := by
  rw [readAt, List.length_take, List.length_drop]

theorem length_padded (h : data.length ≤ n) : (padded n data).length = n := by
  rw [padded, List.length_append, List.length_replicate]
  omega

theorem writeAt_nil : writeAt file off [] = file := if_pos rfl

theorem length_writeAt (h : data ≠ []) :
    (writeAt file off data).length = max file.length (off + data.length) := by
  rw [writeAt, if_neg h, List.length_append, List.length_append, List.length_append, List.length_take,
    List.length_replicate, List.length_drop]
  omega

theorem byteAt_of_length_le (h : file.length ≤ i) : byteAt file i = 0 := by
  rw [byteAt, List.getD_eq_getElem?_getD, List.getElem?_eq_none h]
  rfl

/-- Bytes are written over what was there. -/
theorem byteAt_writeAt : byteAt (writeAt file off data) = blit (byteAt file) off data := by
  funext i
  by_cases hnil : data = []
  · subst hnil
    rw [writeAt_nil, blit_of_not_mem (by rw [List.length_nil]; omega)]
  · have hpre : (file.take off ++ List.replicate (off - file.length) 0).length = off := by
      rw [List.length_append, List.length_take, List.length_replicate]
      omega
    rw [writeAt, if_neg hnil, List.append_assoc]
    by_cases hlow : i < off
    · rw [blit_of_not_mem (.inl hlow), byteAt, List.getD_append _ _ _ _ (by omega), byteAt]
      by_cases hfile : i < file.length
      · rw [List.getD_append _ _ _ _ (by rw [List.length_take]; omega), List.getD_eq_getElem?_getD,
          List.getElem?_take_of_lt hlow, List.getD_eq_getElem?_getD]
      · rw [List.getD_append_right _ _ _ _ (by rw [List.length_take]; omega)]
        rw [List.getD_eq_default file _ (by omega), List.getD_replicate _ (by rw [List.length_take]; omega)]
    · rw [byteAt, List.getD_append_right _ _ _ _ (by omega), hpre]
      by_cases hhigh : i < off + data.length
      · rw [List.getD_append _ _ _ _ (by omega), blit, if_pos ⟨by omega, hhigh⟩]
      · rw [List.getD_append_right _ _ _ _ (by omega), blit_of_not_mem (.inr (by omega)), byteAt,
          List.getD_eq_getElem?_getD, List.getElem?_drop, List.getD_eq_getElem?_getD]
        congr 2
        omega

/-- What is read, made up with zeros, is the file's bytes. -/
theorem padded_readAt : padded n (readAt file off n) = slice (byteAt file) off n := by
  have hlen : (readAt file off n).length ≤ n := by
    rw [length_readAt]
    omega
  refine List.ext_getElem (by rw [length_padded hlen, length_slice]) fun i hi hi' => ?_
  rw [length_padded hlen] at hi
  have hslice : (slice (byteAt file) off n)[i] = byteAt file (off + i) := by
    simp only [slice, List.getElem_map, List.getElem_range]
  rw [hslice]
  simp only [padded, List.getElem_append]
  split
  · rename_i hin
    rw [length_readAt] at hin
    simp only [readAt, List.getElem_take, List.getElem_drop]
    rw [byteAt, List.getD_eq_getElem _ _ (by omega)]
  · rename_i hin
    rw [length_readAt] at hin
    rw [List.getElem_replicate, byteAt_of_length_le (by omega)]

end Bytes
