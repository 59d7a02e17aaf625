import PersistX.Page.Interface
import PersistX.Wal.Slots
import PersistX.Aries.Analysis

/-!
# PersistX — the page a log stands for

`stateAt log p` is page `p` after redoing every record of the log on a zeroed
page. Every page image the system ever holds, in the pool or on disk, is
`stateAt` of a prefix of the log, up to `Eqv`; which prefix is what its
`page_lsn` says.

Main results: `read_stateAt` — the slots of `stateAt log p` are the contents
the log says they have; `pageLsn_stateAt` — the page LSN is that of the page's
last record; `redo_skips_or_applies` — the `page_lsn >= lsn` test of redo is
right.
-/

namespace PersistX

open PageOps LawfulPageOps

variable {P : Type}

section Defs

variable [PageOps P]

/-- Redo a record into page `p`, if it is one of that page's. -/
def redoInto (p : Nat) (x : P) (r : Record) : P :=
  if r.body.page? = some p then redoRecord x r.body r.lsn else x

/-- Page `p` after all records of the log. -/
def stateAt (log : List Record) (p : Nat) : P := log.foldl (redoInto p) zero

@[simp] theorem stateAt_nil (p : Nat) : (stateAt [] p : P) = zero := rfl

theorem stateAt_append_one (log : List Record) (r : Record) (p : Nat) :
    (stateAt (log ++ [r]) p : P) = redoInto p (stateAt log p) r := by
  simp [stateAt, List.foldl_append]

theorem stateAt_append_other {log : List Record} {r : Record} {p : Nat}
    (h : r.body.page? ≠ some p) : (stateAt (log ++ [r]) p : P) = stateAt log p := by
  rw [stateAt_append_one, redoInto, if_neg h]

theorem stateAt_append_self {log : List Record} {r : Record} {p : Nat}
    (h : r.body.page? = some p) :
    (stateAt (log ++ [r]) p : P) = redoRecord (stateAt log p) r.body r.lsn := by
  rw [stateAt_append_one, redoInto, if_pos h]

/-- Records of other pages make no difference. -/
theorem stateAt_append_quiet {a b : List Record} {p : Nat}
    (h : ∀ r ∈ b, r.body.page? ≠ some p) : (stateAt (a ++ b) p : P) = stateAt a p := by
  induction b using List.reverseRecOn with
  | nil => rw [List.append_nil]
  | append_singleton b r ih =>
    rw [← List.append_assoc, stateAt_append_other (h r (by simp)),
      ih fun x hx => h x (List.mem_append_left _ hx)]

/-- Two prefixes that differ by records of other pages. -/
theorem stateAt_take_eq {log : List Record} {p k m : Nat} (hkm : k ≤ m)
    (h : ∀ (j : Nat) (r : Record), log[j]? = some r → k ≤ j → j < m → r.body.page? ≠ some p) :
    (stateAt (log.take m) p : P) = stateAt (log.take k) p := by
  have hsplit : log.take k ++ (log.take m).drop k = log.take m := by
    have := List.take_append_drop k (log.take m)
    rwa [List.take_take, Nat.min_eq_left hkm] at this
  rw [← hsplit]
  apply stateAt_append_quiet
  intro r hr
  obtain ⟨i, hi⟩ := List.mem_iff_getElem?.mp hr
  rw [List.getElem?_drop, List.getElem?_take] at hi
  split at hi
  · exact h (k + i) r hi (by omega) (by assumption)
  · cases hi

/-- What a record that writes a page needs: room for it, and a change to make. -/
def PageRule (P : Type) [PageOps P] (log : List Record) (r : Record) : Prop :=
  (∀ p s k, r.body ≠ .update p s [] [] k) ∧
  ∀ p, r.body.page? = some p → redoFits (stateAt log p : P) r.body = true

/-- What the managers guarantee about every record they append. -/
structure SysRule (P : Type) [PageOps P] (log : List Record) (r : Record) : Prop where
  legit : Legit log r
  page : PageRule P log r
  ckpt : CkptRule log r

theorem SysRule.lifecycle (l : List Record) (r : Record) (h : SysRule P l r) : Lifecycle l r :=
  h.legit.1

theorem History.legit {log : List Record} (h : History (SysRule P) log) : History Legit log :=
  h.mono fun _ _ hr => hr.legit

theorem History.lsn_eq {log : List Record} (h : History (SysRule P) log) {i : Nat} {r : Record}
    (hr : log[i]? = some r) : r.lsn = i :=
  (h.lifecycle SysRule.lifecycle).1 i r hr

/-- LSN 0 is never that of a record redo would apply. -/
theorem History.page?_zero {log : List Record} (h : History (SysRule P) log) {r : Record}
    (hr : log[0]? = some r) : r.body.page? = none := by
  obtain ⟨-, hlife⟩ := (h.rule_at hr).legit.1
  cases hb : r.body with
  | update p s o n k =>
    rw [hb] at hlife
    obtain ⟨v, hv, -⟩ := hlife
    cases hv
  | clr p s n un =>
    rw [hb] at hlife
    obtain ⟨v, u, us, ru, hv, -⟩ := hlife
    cases hv
  | _ => rfl

end Defs

-- ---------------------------------------------------------------------------
-- Slots and stamps
-- ---------------------------------------------------------------------------

section Laws

variable [LawfulPageOps P]

theorem RecordBody.exists_write {b : RecordBody} {p : Nat} (h : b.page? = some p) :
    ∃ s new, b.write? = some (p, s, new) := by
  rw [RecordBody.page?, Option.map_eq_some_iff] at h
  obtain ⟨⟨q, s, new⟩, hw, rfl⟩ := h
  exact ⟨s, new, hw⟩

theorem RecordBody.not_writes_of_page {b : RecordBody} {p : Nat} (h : b.page? ≠ some p) (s : Nat) :
    ¬ b.Writes p s := by
  rintro ⟨new, hw⟩
  rw [RecordBody.page?, hw] at h
  exact h rfl

/-- **The slots of a page are what the log says.** -/
theorem read_stateAt {log : List Record} (h : History (SysRule P) log) (p : Nat) :
    Wf (stateAt log p : P) ∧ ∀ s, readRecord (stateAt log p : P) s = contents log p s := by
  induction h with
  | nil => exact ⟨wf_zero, fun s => read_zero s⟩
  | @snoc log r _ hr ih =>
    obtain ⟨ihw, ihr⟩ := ih
    by_cases hp : r.body.page? = some p
    · obtain ⟨s, new, hw⟩ := RecordBody.exists_write hp
      obtain ⟨hne, hfit⟩ := hr.page
      obtain ⟨h1, h2⟩ := redoRecord_spec r.lsn ihw hw
        (fun q u o k hb ho => hne q u k (by rw [hb, ho])) (hfit p hp)
      rw [stateAt_append_self hp]
      refine ⟨h1, fun s' => ?_⟩
      rw [h2 s', contents_append_one]
      split
      · rename_i hs
        subst hs
        rw [applyBody_of_write hw]
      · rename_i hs
        rw [ihr s', applyBody_of_not_writes]
        rintro ⟨new', hw'⟩
        rw [hw] at hw'
        exact hs (by simpa using (congrArg (fun x => x.2.1) (Option.some.inj hw')).symm)
    · rw [stateAt_append_other hp]
      refine ⟨ihw, fun s => ?_⟩
      rw [ihr s, contents_append_one, applyBody_of_not_writes (RecordBody.not_writes_of_page hp s)]

/-- The image of a slot is never the empty one. -/
theorem contents_ne_nil (log : List Record) (p s : Nat) : contents log p s ≠ some [] := by
  induction log using List.reverseRecOn with
  | nil => simp [Contents.empty]
  | append_singleton l r ih =>
    rw [contents_append_one]
    by_cases hw : r.body.Writes p s
    · obtain ⟨new, hw⟩ := hw
      rw [applyBody_of_write hw, image]
      split <;> simp [*]
    · rwa [applyBody_of_not_writes hw]

/-- **The page LSN names the page's last record**; a page without one is zero. -/
theorem pageLsn_stateAt {log : List Record}
    (hlsn : ∀ (i : Nat) (r : Record), log[i]? = some r → r.lsn = i) (p : Nat) :
    (∃ (j : Nat) (r : Record), log[j]? = some r ∧ r.body.page? = some p ∧ pageLsn (stateAt log p : P) = j ∧
      ∀ (j' : Nat) (r' : Record), log[j']? = some r' → r'.body.page? = some p → j' ≤ j) ∨
    ((∀ (j : Nat) (r : Record), log[j]? = some r → r.body.page? ≠ some p) ∧
      (stateAt log p : P) = zero) := by
  induction log using List.reverseRecOn with
  | nil => exact Or.inr ⟨fun j r h => by simp at h, rfl⟩
  | append_singleton l r ih =>
    have hlsn' : ∀ (i : Nat) (x : Record), l[i]? = some x → x.lsn = i :=
      fun i x hx => hlsn i x (getElem?_append_of_some hx)
    have hr : r.lsn = l.length := hlsn l.length r (by simp)
    -- a record of the longer log is an old one or the new one
    have hcase : ∀ {j : Nat} {x : Record}, (l ++ [r])[j]? = some x → l[j]? = some x ∨ (j = l.length ∧ x = r) := by
      intro j x hx
      rcases Nat.lt_or_ge j l.length with hj | hj
      · exact Or.inl (by rwa [List.getElem?_append_left hj] at hx)
      · rw [List.getElem?_append_right hj, List.getElem?_singleton] at hx
        split at hx
        · exact Or.inr ⟨by omega, (Option.some.inj hx).symm⟩
        · cases hx
    by_cases hp : r.body.page? = some p
    · refine Or.inl ⟨l.length, r, by simp, hp, ?_, ?_⟩
      · rw [stateAt_append_self hp, lsn_redoRecord, hr]
      · intro j x hx _
        have := (List.getElem?_eq_some_iff.mp hx).1
        simp only [List.length_append, List.length_singleton] at this
        omega
    · rw [stateAt_append_other hp]
      rcases ih hlsn' with ⟨j, x, hx, hxp, hl, hmax⟩ | ⟨hnone, hz⟩
      · refine Or.inl ⟨j, x, getElem?_append_of_some hx, hxp, hl, fun j' x' hx' hp' => ?_⟩
        rcases hcase hx' with hx' | ⟨-, rfl⟩
        · exact hmax j' x' hx' hp'
        · exact absurd hp' hp
      · refine Or.inr ⟨fun j x hx => ?_, hz⟩
        rcases hcase hx with hx | ⟨-, rfl⟩
        · exact hnone j x hx
        · exact hp

theorem pageLsn_stateAt_le {log : List Record}
    (hlsn : ∀ (i : Nat) (r : Record), log[i]? = some r → r.lsn = i) (p : Nat) :
    pageLsn (stateAt log p : P) ≤ log.length := by
  rcases pageLsn_stateAt (P := P) hlsn p with ⟨j, r, hr, -, hl, -⟩ | ⟨-, hz⟩
  · have := (List.getElem?_eq_some_iff.mp hr).1
    omega
  · rw [hz, lsn_zero]
    exact Nat.zero_le _

/-- The records of page `p` with LSN below `k` are those up to the page LSN of
`stateAt (log.take k) p`. -/
theorem lt_iff_le_pageLsn {log : List Record} (h : History (SysRule P) log) {p k j : Nat}
    {r : Record} (hr : log[j]? = some r) (hp : r.body.page? = some p) :
    j < k ↔ j ≤ pageLsn (stateAt (log.take k) p : P) := by
  have hlsn : ∀ (i : Nat) (r : Record), (log.take k)[i]? = some r → r.lsn = i :=
    fun i r hr => (h.take k).lsn_eq hr
  have hpos : 0 < j := by
    rcases Nat.eq_zero_or_pos j with rfl | hj
    · rw [h.page?_zero hr] at hp
      cases hp
    · exact hj
  have hin : j < k → (log.take k)[j]? = some r := by
    intro hj
    rw [List.getElem?_take, if_pos hj, hr]
  rcases pageLsn_stateAt (P := P) hlsn p with ⟨i, x, hx, hxp, hl, hmax⟩ | ⟨hnone, hz⟩
  · have hi : i < k := by
      have := (List.getElem?_eq_some_iff.mp hx).1
      simp only [List.length_take] at this
      omega
    constructor
    · intro hj
      rw [hl]
      exact hmax j r (hin hj) hp
    · intro hj
      omega
  · rw [hz, lsn_zero]
    constructor
    · intro hj
      exact absurd hp (hnone j r (hin hj))
    · intro hj
      omega

/-- **The `page_lsn` test of redo.** If all records of the page before the one
at `m` are in the image, then either that one is too, and the test skips it,
or the image is the page as it was just before the record. -/
theorem redo_skips_or_applies {log : List Record} (h : History (SysRule P) log) {p k m : Nat}
    {r : Record} (hr : log[m]? = some r) (hp : r.body.page? = some p)
    (hbefore : ∀ (j : Nat) (x : Record), log[j]? = some x → x.body.page? = some p → j < m → j < k) :
    (pageLsn (stateAt (log.take k) p : P) ≥ m ∧ m < k) ∨
    (pageLsn (stateAt (log.take k) p : P) < m ∧
      (stateAt (log.take k) p : P) = stateAt (log.take m) p) := by
  by_cases hmk : m < k
  · exact Or.inl ⟨(lt_iff_le_pageLsn h hr hp).mp hmk, hmk⟩
  · refine Or.inr ⟨?_, ?_⟩
    · rw [← Nat.not_le]
      exact fun hle => hmk ((lt_iff_le_pageLsn h hr hp).mpr hle)
    · refine (stateAt_take_eq (by omega) ?_).symm
      intro j x hx hkj hjm hxp
      have := hbefore j x hx hxp hjm
      omega

/-- The image of a whole log is that of its prefix up to the page LSN. -/
theorem stateAt_eq_take {log : List Record} (h : History (SysRule P) log) (p : Nat) :
    ∃ k, (stateAt (log.take k) p : P) = stateAt log p ∧ (k = 0 ∨
      (k = pageLsn (stateAt log p : P) + 1 ∧ k ≤ log.length)) ∧
      ∀ (j : Nat) (r : Record), log[j]? = some r → r.body.page? = some p → j < k := by
  have hlsn : ∀ (i : Nat) (r : Record), log[i]? = some r → r.lsn = i := fun i r hr => h.lsn_eq hr
  rcases pageLsn_stateAt (P := P) hlsn p with ⟨i, x, hx, hxp, hl, hmax⟩ | ⟨hnone, hz⟩
  · have hi := (List.getElem?_eq_some_iff.mp hx).1
    refine ⟨i + 1, ?_, Or.inr ⟨by rw [hl], hi⟩, fun j r hr hp => Nat.lt_succ_of_le (hmax j r hr hp)⟩
    have : (stateAt (log.take log.length) p : P) = stateAt (log.take (i + 1)) p :=
      stateAt_take_eq hi fun j r hr hj _ hp => by
        have := hmax j r hr hp
        omega
    rw [← this, List.take_length]
  · refine ⟨0, ?_, Or.inl rfl, fun j r hr hp => absurd hp (hnone j r hr)⟩
    rw [hz]
    rfl

end Laws

end PersistX
