import PersistX.Page.Laws

/-!
# PersistX — `read_record` on any page bytes

Pages come from the file without validation. `readRecordRun` is `read_record`
once more, with every place of the page it reads, every 32-bit value it
computes and, in a build that has them, the assertions of `slot_offset`.

Main results: `readsInside_iff` says on which pages the call is safe, and
`Wf.readsWell` that it is on every page that the page operations leave behind.
-/

namespace PersistX.Page

open Bytes

/-- How a call of `read_record` ends. -/
inductive ReadResult where
  | notFound
  /-- The bytes, and the address they were copied from. -/
  | found (off : Nat) (out : Bytes)
  /-- An assertion failed. -/
  | aborted
  deriving DecidableEq

/-- A call of `read_record`. -/
structure ReadRun where
  result : ReadResult
  /-- The places of `buffer_` that are read: address and number of bytes. -/
  reads : List (Nat × Nat)
  /-- The values of the 32-bit computations, before they are cut to 32 bits. -/
  computed : List Int

/-- `read_record`. -/
def readRecordRun (asserts : Bool) (x : Page) (sid : Nat) : ReadRun :=
  if sid ≥ x.slotCount then ⟨.notFound, [(5, 2)], []⟩
  else if asserts = true ∧ sid ≥ maxSlotsPerPage then ⟨.aborted, [(5, 2)], []⟩
  else
    let reads := [(5, 2), (slotOffset sid, 4), (slotOffset sid + 4, 2)]
    let base : Int := pageSize - (sid + 1) * slotBytes
    let fin : Int := x.slotOff sid + 2 + x.slotLen sid
    if x.slotOff sid = slotTombstone then ⟨.notFound, reads, [base]⟩
    else if x.slotOff sid < headerSize then ⟨.notFound, reads, [base]⟩
    else if (x.slotOff sid + 2 + x.slotLen sid) % 2 ^ 32 > pageSize then ⟨.notFound, reads, [base, fin]⟩
    else
      let reads := reads ++ [(x.slotOff sid, 2)]
      if x.rd (x.slotOff sid) 2 ≠ x.slotLen sid then ⟨.notFound, reads, [base, fin]⟩
      else
        ⟨.found (x.slotOff sid + 2) (slice x.buf (x.slotOff sid + 2) (x.slotLen sid)),
          reads ++ [(x.slotOff sid + 2, x.slotLen sid)], [base, fin]⟩

/-- Without assertions it returns what `readRecord` says. -/
theorem readRecordRun_result (x : Page) (sid : Nat) :
    (readRecordRun false x sid).result = (x.readRecord sid).elim .notFound (.found (x.slotOff sid + 2)) := by
  unfold readRecordRun readRecord
  by_cases h₁ : sid ≥ x.slotCount
  · simp only [if_pos h₁, Option.elim_none]
  by_cases h₂ : x.slotOff sid = slotTombstone
  · simp [if_neg h₁, h₂]
  by_cases h₃ : x.slotOff sid < headerSize
  · simp [if_neg h₁, h₂, h₃]
  by_cases h₄ : (x.slotOff sid + 2 + x.slotLen sid) % 2 ^ 32 > pageSize
  · simp only [if_neg h₁, if_neg h₂, if_neg h₃, if_pos h₄, Bool.false_eq_true, false_and, if_false, Option.elim_none]
  by_cases h₅ : x.rd (x.slotOff sid) 2 ≠ x.slotLen sid
  · simp only [if_neg h₁, if_neg h₂, if_neg h₃, if_neg h₄, if_pos h₅, Bool.false_eq_true, false_and, if_false,
      Option.elim_none]
  · simp only [if_neg h₁, if_neg h₂, if_neg h₃, if_neg h₄, if_neg h₅, Bool.false_eq_true, false_and, if_false,
      Option.elim_some]

/-- The call is safe: it returns, it reads inside the page, nothing wraps, and the bytes it
returns lie between the header and the slot directory. -/
structure ReadsInside (x : Page) (run : ReadRun) : Prop where
  returns : run.result ≠ .aborted
  reads : ∀ r ∈ run.reads, r.1 + r.2 ≤ pageSize
  computed : ∀ v ∈ run.computed, 0 ≤ v ∧ v < (2 ^ 32 : Nat)
  bytes : ∀ off out, run.result = .found off out → out = slice x.buf off out.length ∧
    ∀ i < out.length, headerSize ≤ off + i ∧ off + i + x.slotCount * slotBytes < pageSize

/-- The slot's directory entry lies in the page (and below `MAX_SLOTS_PER_PAGE` where that is
asserted); a record behind it does not end beyond `2 ^ 32`, and one that fits the page and has
its length in its size prefix ends before the slot directory. -/
def ReadsWell (asserts : Bool) (x : Page) (sid : Nat) : Prop :=
  sid < x.slotCount →
    (asserts = true → sid < maxSlotsPerPage) ∧ (sid + 1) * slotBytes ≤ pageSize ∧
    (x.slotOff sid ≠ slotTombstone → headerSize ≤ x.slotOff sid →
      x.slotOff sid + 2 + x.slotLen sid < 2 ^ 32 ∧
      (x.slotOff sid + 2 + x.slotLen sid ≤ pageSize → x.rd (x.slotOff sid) 2 = x.slotLen sid →
        0 < x.slotLen sid → x.slotOff sid + 2 + x.slotLen sid + x.slotCount * slotBytes ≤ pageSize))

section Cases

variable {asserts : Bool} {x : Page} {sid : Nat}

/-- The slot is looked up. -/
theorem readRecordRun_slot (hlt : sid < x.slotCount) (hassert : asserts = true → sid < maxSlotsPerPage) :
    readRecordRun asserts x sid =
      if x.slotOff sid = slotTombstone ∨ x.slotOff sid < headerSize then
        ⟨.notFound, [(5, 2), (slotOffset sid, 4), (slotOffset sid + 4, 2)], [pageSize - (sid + 1) * slotBytes]⟩
      else
        let computed : List Int := [pageSize - (sid + 1) * slotBytes, x.slotOff sid + 2 + x.slotLen sid]
        if (x.slotOff sid + 2 + x.slotLen sid) % 2 ^ 32 > pageSize then
          ⟨.notFound, [(5, 2), (slotOffset sid, 4), (slotOffset sid + 4, 2)], computed⟩
        else if x.rd (x.slotOff sid) 2 ≠ x.slotLen sid then
          ⟨.notFound, [(5, 2), (slotOffset sid, 4), (slotOffset sid + 4, 2), (x.slotOff sid, 2)], computed⟩
        else
          ⟨.found (x.slotOff sid + 2) (slice x.buf (x.slotOff sid + 2) (x.slotLen sid)),
            [(5, 2), (slotOffset sid, 4), (slotOffset sid + 4, 2), (x.slotOff sid, 2),
              (x.slotOff sid + 2, x.slotLen sid)], computed⟩ := by
  have hnot : ¬ (asserts = true ∧ sid ≥ maxSlotsPerPage) := fun h => Nat.not_le.mpr (hassert h.1) h.2
  rw [readRecordRun, if_neg (Nat.not_le.mpr hlt), if_neg hnot]
  by_cases ht : x.slotOff sid = slotTombstone
  · simp only [ht, if_true, true_or]
  by_cases hh : x.slotOff sid < headerSize
  · simp only [ht, hh, if_true, if_false, or_true]
  · simp only [ht, hh, if_false, or_false]
    rfl

theorem ReadsInside.readsWell (h : ReadsInside x (readRecordRun asserts x sid)) : ReadsWell asserts x sid := by
  intro hlt
  have hassert : asserts = true → sid < maxSlotsPerPage := by
    intro ha
    by_contra hge
    refine h.returns ?_
    rw [readRecordRun, if_neg (Nat.not_le.mpr hlt), if_pos ⟨ha, Nat.not_lt.mp hge⟩]
  rw [readRecordRun_slot hlt hassert] at h
  refine ⟨hassert, ?_, fun ht hh => ?_⟩
  · have hbase : (0 : Int) ≤ pageSize - (sid + 1) * slotBytes := by
      refine (h.computed _ ?_).1
      split
      · exact List.mem_cons_self
      · dsimp only
        split
        · exact List.mem_cons_self
        · split <;> exact List.mem_cons_self
    have hcast : (((sid + 1) * slotBytes : Nat) : Int) ≤ (pageSize : Nat) := by
      push_cast
      omega
    exact Int.ofNat_le.mp hcast
  · have hrec : ¬ (x.slotOff sid = slotTombstone ∨ x.slotOff sid < headerSize) := by
      rintro (h' | h')
      · exact ht h'
      · omega
    rw [if_neg hrec] at h
    have hfin : (x.slotOff sid + 2 + x.slotLen sid : Int) < 2 ^ 32 := by
      refine (h.computed _ ?_).2
      dsimp only
      split
      · exact List.mem_cons_of_mem _ List.mem_cons_self
      · split <;> exact List.mem_cons_of_mem _ List.mem_cons_self
    have hlt32 : x.slotOff sid + 2 + x.slotLen sid < 2 ^ 32 := by omega
    refine ⟨hlt32, fun hfit hprefix hpos => ?_⟩
    have hmod : ¬ (x.slotOff sid + 2 + x.slotLen sid) % 2 ^ 32 > pageSize := by
      rw [Nat.mod_eq_of_lt hlt32]
      omega
    simp only [if_neg hmod, hprefix, ne_eq, not_true_eq_false, if_false] at h
    obtain ⟨-, hbytes⟩ := h.bytes _ _ rfl
    rw [length_slice] at hbytes
    have hlast := (hbytes (x.slotLen sid - 1) (by omega)).2
    omega

theorem ReadsWell.readsInside (h : ReadsWell asserts x sid) : ReadsInside x (readRecordRun asserts x sid) := by
  by_cases hlt : sid < x.slotCount
  · obtain ⟨hassert, hbase, hrec⟩ := h hlt
    rw [readRecordRun_slot hlt hassert]
    have hoff : slotOffset sid + 6 ≤ pageSize := by
      rw [slotOffset_eq (by rw [Nat.mul_comm]; exact hbase)]
      simp only [slotBytes, pageSize] at hbase ⊢
      omega
    have hfive : 5 + 2 ≤ pageSize := by decide
    have hcast : (0 : Int) ≤ pageSize - (sid + 1) * slotBytes ∧
        (pageSize - (sid + 1) * slotBytes : Int) < 2 ^ 32 := by
      simp only [slotBytes, pageSize] at hbase ⊢
      omega
    split
    · refine ⟨by simp, by simp; omega, by simpa using hcast, by simp⟩
    · rename_i hnot
      rw [not_or] at hnot
      obtain ⟨hlt32, hin⟩ := hrec hnot.1 (Nat.not_lt.mp hnot.2)
      have hfin : (0 : Int) ≤ x.slotOff sid + 2 + x.slotLen sid ∧
          (x.slotOff sid + 2 + x.slotLen sid : Int) < 2 ^ 32 := by omega
      have hcomputed : ∀ v ∈ [(pageSize - (sid + 1) * slotBytes : Int), x.slotOff sid + 2 + x.slotLen sid],
          0 ≤ v ∧ v < 2 ^ 32 := by
        intro v hv
        rcases List.mem_cons.mp hv with hv | hv
        · rw [hv]
          exact hcast
        · rw [List.mem_singleton.mp hv]
          exact hfin
      dsimp only
      rw [Nat.mod_eq_of_lt hlt32]
      split
      · exact ⟨by simp, by simp; omega, hcomputed, by simp⟩
      · rename_i hfit
        split
        · exact ⟨by simp, by simp; omega, hcomputed, by simp⟩
        · rename_i hprefix
          refine ⟨by simp, by simp; omega, hcomputed, fun off out hres => ?_⟩
          cases hres
          rw [length_slice]
          refine ⟨rfl, fun i hi => ?_⟩
          have := hin (Nat.not_lt.mp hfit) (not_not.mp hprefix) (by omega)
          omega
  · rw [readRecordRun, if_pos (Nat.not_lt.mp hlt)]
    exact ⟨by simp, by simp [pageSize], by simp, by simp⟩

/-- **`read_record` is safe** exactly on these pages, in builds with and without assertions. -/
theorem readsInside_iff (asserts : Bool) (x : Page) (sid : Nat) :
    ReadsInside x (readRecordRun asserts x sid) ↔ ReadsWell asserts x sid :=
  ⟨ReadsInside.readsWell, ReadsWell.readsInside⟩

/-- A page with one slot, whose offset is two below `2 ^ 32` and whose length is zero. -/
def wrappedPage : Page where
  buf i := if i = 5 then 1 else if i = 4090 then 254 else if 4091 ≤ i ∧ i ≤ 4093 then 255 else 0
  lsnHigh := 0

theorem wrappedPage_read : ¬ ReadsInside wrappedPage (readRecordRun true wrappedPage 0) := by
  intro h
  have hread : (2 ^ 32 - 2, 2) ∈ (readRecordRun true wrappedPage 0).reads := by decide
  exact absurd (h.reads _ hread) (by decide)

/-- The page operations leave only pages on which every slot can be read. -/
theorem Wf.readsWell (hw : Wf x) (sid : Nat) : ReadsWell asserts x sid := by
  intro hlt
  have hroom := hw.header_room hlt
  have hdir := hw.room
  have hfront := x.headerSize_le_frontier
  refine ⟨fun _ => ?_, ?_, fun ht _ => ?_⟩
  · simp only [headerSize, slotBytes, pageSize, maxSlotsPerPage] at hroom ⊢
    omega
  · rw [Nat.mul_comm]
    omega
  · obtain ⟨-, hend⟩ := hw.bounds sid ⟨hlt, ht⟩
    have hsize : pageSize < 2 ^ 32 := by decide
    refine ⟨by omega, fun _ _ _ => ?_⟩
    rw [Nat.mul_comm]
    omega

end Cases

end PersistX.Page
