import PersistX.Aries.System
import PersistX.Aries.PageState

/-!
# PersistX — buffer pool and page file

What each buffer manager operation does to the page a reader sees
(`BufferManager.page`) and to the page file, and the invariant that ties both
to the log: every image written is the page after a prefix of the log *file*
(`DiskInv.images` — the WAL rule), a clean frame is what the file has, and the
file is never ahead of the pool.
-/

namespace PersistX

open PageOps LawfulPageOps

variable {P : Type}

namespace BufferManager

section Ops

variable [PageOps P] {bm : BufferManager P} {p q : Nat}

theorem page_of_lookup {f : Frame P} (h : bm.frames.lookup p = some f) : bm.page p = f.page := by
  rw [page, h]

theorem page_of_none (h : bm.frames.lookup p = none) : bm.page p = bm.readPage p := by
  rw [page, h]

@[simp] theorem fetchPage_snd : (bm.fetchPage p).2 = bm.page p := by
  rw [fetchPage, page]
  split <;> rfl

/-- Change page `p` in its frame, fetching it first. -/
theorem modify_eq (x : P) (d : Bool) : (bm.fetchPage p).1.unpinPage p x d =
    { bm with
      frames :=
        bm.frames.insert p ⟨x, ((bm.frames.lookup p).map Frame.dirty).getD false || d⟩ } := by
  rw [fetchPage]
  cases h : bm.frames.lookup p with
  | some f => simp only [unpinPage, h, Option.map_some, Option.getD_some]
  | none =>
    simp only [unpinPage, AList.lookup_insert, AList.insert_insert, Option.map_none,
      Option.getD_none]

theorem page_modify (x : P) (d : Bool) (q : Nat) :
    ((bm.fetchPage p).1.unpinPage p x d).page q = if q = p then x else bm.page q := by
  rw [modify_eq]
  split
  · rename_i h
    subst h
    simp only [page, AList.lookup_insert]
  · rename_i h
    simp only [page, AList.lookup_insert_ne h]
    rfl

theorem readPage_writeFrame (f : Frame P) (q : Nat) :
    (bm.writeFrame p f).readPage q = if q = p then f.page else bm.readPage q := by
  simp only [readPage, writeFrame, writePage]
  split <;> rfl

theorem page_writeFrame {f : Frame P} (h : bm.frames.lookup p = some f) (q : Nat) :
    (bm.writeFrame p f).page q = bm.page q := by
  by_cases hq : q = p
  · subst hq
    rw [page_of_lookup h]
    exact page_of_lookup (f := ⟨f.page, false⟩) (AList.lookup_insert _)
  · have hl : (bm.writeFrame p f).frames.lookup q = bm.frames.lookup q := AList.lookup_insert_ne hq
    rw [page, page, hl, readPage_writeFrame, if_neg hq]

end Ops

end BufferManager

/-- Pool and page file against a log of which `n` records are in the file. -/
structure DiskInv [LawfulPageOps P] (log : List Record) (n : Nat) (bm : BufferManager P) :
    Prop where
  /-- The WAL rule: what is on disk is the page after some records of the file. -/
  images : ∀ p, ∀ x ∈ bm.images p, ∃ k ≤ n, Eqv x (stateAt (log.take k) p)
  clean : ∀ p f, bm.frames.lookup p = some f → f.dirty = false → Eqv f.page (bm.readPage p)
  mono : ∀ p, pageLsn (bm.readPage p) ≤ pageLsn (bm.page p)

namespace DiskInv

variable [LawfulPageOps P] {log : List Record} {n : Nat} {bm : BufferManager P}

/-- What `read_page` returns is the page after some records of the file. -/
theorem readPage (h : DiskInv log n bm) (p : Nat) :
    ∃ k ≤ n, Eqv (bm.readPage p) (stateAt (log.take k) p) := by
  rw [BufferManager.readPage]
  cases hi : bm.images p with
  | nil => exact ⟨0, Nat.zero_le _, eqv_refl _⟩
  | cons x l => exact h.images p x (by rw [hi]; exact List.mem_cons_self)

theorem append (h : DiskInv log n bm) (hn : n ≤ log.length) (r : Record) :
    DiskInv (log ++ [r]) n bm where
  images p x hx := by
    obtain ⟨k, hk, he⟩ := h.images p x hx
    exact ⟨k, hk, by rwa [List.take_append_of_le_length (Nat.le_trans hk hn)]⟩
  clean := h.clean
  mono := h.mono

theorem weaken (h : DiskInv log n bm) {n' : Nat} (hn : n ≤ n') : DiskInv log n' bm where
  images p x hx := by
    obtain ⟨k, hk, he⟩ := h.images p x hx
    exact ⟨k, Nat.le_trans hk hn, he⟩
  clean := h.clean
  mono := h.mono

/-- A page is changed in the pool, moving its LSN forward. -/
theorem modify (h : DiskInv log n bm) {p : Nat} {x : P} {d : Bool}
    (hlsn : pageLsn (bm.page p) ≤ pageLsn x) (hd : d = false → x = bm.page p) :
    DiskInv log n ((bm.fetchPage p).1.unpinPage p x d) where
  images := by
    rw [BufferManager.modify_eq]
    exact h.images
  clean q f hf hdirty := by
    rw [BufferManager.modify_eq] at hf ⊢
    by_cases hq : q = p
    · subst hq
      rw [AList.lookup_insert] at hf
      obtain rfl := Option.some.inj hf
      simp only [Bool.or_eq_false_iff] at hdirty
      obtain rfl := hd hdirty.2
      cases hl : bm.frames.lookup q with
      | none =>
        rw [BufferManager.page_of_none hl]
        exact eqv_refl _
      | some g =>
        rw [BufferManager.page_of_lookup hl]
        rw [hl] at hdirty
        exact h.clean q g hl hdirty.1
    · rw [AList.lookup_insert_ne hq] at hf
      exact h.clean q f hf hdirty
  mono q := by
    have hread : ((bm.fetchPage p).1.unpinPage p x d).readPage q = bm.readPage q := by
      rw [BufferManager.modify_eq]
      rfl
    rw [hread, BufferManager.page_modify]
    split
    · rename_i hq
      subst hq
      exact Nat.le_trans (h.mono q) hlsn
    · exact h.mono q

/-- A frame is written to the page file. -/
theorem writeFrame (h : DiskInv log n bm) {p k : Nat} {f : Frame P}
    (hf : bm.frames.lookup p = some f) (hk : k ≤ n) (he : Eqv f.page (stateAt (log.take k) p)) :
    DiskInv log n (bm.writeFrame p f) where
  images q x hx := by
    simp only [BufferManager.writeFrame, BufferManager.writePage] at hx
    split at hx
    · rename_i hq
      subst hq
      rcases List.mem_cons.mp hx with rfl | hx
      · exact ⟨k, hk, he⟩
      · exact h.images q x hx
    · exact h.images q x hx
  clean q g hg hdirty := by
    rw [BufferManager.readPage_writeFrame]
    by_cases hq : q = p
    · subst hq
      rw [BufferManager.writeFrame, AList.lookup_insert] at hg
      obtain rfl := Option.some.inj hg
      rw [if_pos rfl]
      exact eqv_refl _
    · rw [BufferManager.writeFrame, AList.lookup_insert_ne hq] at hg
      rw [if_neg hq]
      exact h.clean q g hg hdirty
  mono q := by
    rw [BufferManager.readPage_writeFrame, BufferManager.page_writeFrame hf]
    split
    · rename_i hq
      subst hq
      exact Nat.le_of_eq (by rw [BufferManager.page_of_lookup hf])
    · exact h.mono q

/-- Dropping a clean frame changes no page, up to `Eqv`. -/
theorem page_erase (h : DiskInv log n bm) {p : Nat} {f : Frame P}
    (hf : bm.frames.lookup p = some f) (hd : f.dirty = false) (q : Nat) :
    Eqv (BufferManager.page { bm with frames := bm.frames.erase p } q) (bm.page q) := by
  by_cases hq : q = p
  · subst hq
    rw [BufferManager.page_of_none (AList.lookup_erase _ _), BufferManager.page_of_lookup hf]
    exact eqv_symm (h.clean q f hf hd)
  · have hl := AList.lookup_erase_ne (s := bm.frames) hq
    simp only [BufferManager.page, hl]
    exact eqv_refl _

theorem erase (h : DiskInv log n bm) {p : Nat} {f : Frame P}
    (hf : bm.frames.lookup p = some f) (hd : f.dirty = false) :
    DiskInv log n { bm with frames := bm.frames.erase p } where
  images := h.images
  clean q g hg hdirty := by
    by_cases hq : q = p
    · subst hq
      rw [AList.lookup_erase] at hg
      cases hg
    · rw [AList.lookup_erase_ne hq] at hg
      exact h.clean q g hg hdirty
  mono q := by
    rw [eqv_lsn (h.page_erase hf hd q)]
    exact h.mono q

end DiskInv

/-- Every page a reader sees is up to date with the log. -/
def Current [LawfulPageOps P] (log : List Record) (bm : BufferManager P) : Prop :=
  ∀ p, Eqv (bm.page p) (stateAt log p)

theorem Current.lsn_le [LawfulPageOps P] {log : List Record} {bm : BufferManager P}
    (h : Current log bm) (hist : History (SysRule P) log) (p : Nat) :
    pageLsn (bm.page p) ≤ log.length := by
  rw [eqv_lsn (h p)]
  exact pageLsn_stateAt_le (fun i r hr => hist.lsn_eq hr) p

theorem Current.append_quiet [LawfulPageOps P] {log : List Record} {bm : BufferManager P}
    (h : Current log bm) {r : Record} (hr : r.body.page? = none) : Current (log ++ [r]) bm := by
  intro p
  rw [stateAt_append_other (by rw [hr]; simp)]
  exact h p

end PersistX
