import PersistX.Pool.Transparency
import PersistX.Page.SlotPage

/-!
# PersistX — the buffer pool when writes fail

The calls of `buffer_manager.cpp` once more, with the outcome of each
`write_page` as an argument: a write that fails leaves the file as it was. When
it succeeds they are the calls of `Pool/BufferManager.lean`
(`tryFetchPage_true` and its siblings).

`fetch_page` and `new_page` take the victim off the replacer before they write
it, and return at once when the write fails; nothing puts the frame back.
`flush_all_pages` clears the dirty bit whatever `write_page` has answered, which
`flush_page` does not: `Pool/CleanFrames.lean` is about that.

Main result: `failed_call_intact_iff` — a call that returns `nullptr` leaves the
pool as it was exactly if it was not the write of a dirty victim that failed.
-/

namespace PersistX.Pool

open PageOps Transition

variable {P : Type}

namespace BufferManager

-- ---------------------------------------------------------------------------
-- The calls
-- ---------------------------------------------------------------------------

section Ops

variable [PageOps P]

/-- `enforce_wal` and `write_page`, and the dirty bit cleared if the write has succeeded. -/
def tryFlushFrame (bm : BufferManager P) (f : Nat) (ok : Bool) : BufferManager P × Bool :=
  let bm := bm.enforceWal f
  if ok then
    let bm := bm.writePage f
    (bm.setFrame f { bm.frames f with dirty := false }, true)
  else (bm, false)

/-- Give up the page in a frame that the replacer has handed out; `false` when it
is dirty and cannot be written. -/
def tryEvictPage (bm : BufferManager P) (f : Nat) (ok : Bool) : BufferManager P × Bool :=
  let (bm, written) := if (bm.frames f).dirty then bm.tryFlushFrame f ok else (bm, true)
  if written then
    ({ bm with pageTable := Function.update bm.pageTable (bm.frames f).pageId none }, true)
  else (bm, false)

/-- The frame for a page that is not resident. -/
def tryTakeFrame (bm : BufferManager P) (ok : Bool) : BufferManager P × Option Nat :=
  match bm.freeList with
  | f :: fl => ({ bm with freeList := fl }, some f)
  | [] =>
    match Replacer.evict bm.replacer with
    | none => (bm, none)
    | some (f, r) =>
      let (bm, evicted) := { bm with replacer := r }.tryEvictPage f ok
      (bm, if evicted then some f else none)

/-- `fetch_page`. -/
def tryFetchPage (bm : BufferManager P) (p : PageId) (ok : Bool) : BufferManager P × Option Nat :=
  match bm.pageTable p with
  | some _ => bm.fetchPage p
  | none =>
    match bm.tryTakeFrame ok with
    | (bm, none) => (bm, none)
    | (bm, some f) => (bm.install f p (bm.disk p), some f)

/-- `new_page`. -/
def tryNewPage (bm : BufferManager P) (ok : Bool) : BufferManager P × Option (PageId × Nat) :=
  match bm.tryTakeFrame ok with
  | (bm, none) => (bm, none)
  | (bm, some f) =>
    let n := bm.nextPageId
    let bm := { bm with nextPageId := (n + 1) % 2 ^ 32 }
    (bm.install f (pageIdOf n) (init n), some (pageIdOf n, f))

/-- `flush_page`. -/
def tryFlushPage (bm : BufferManager P) (p : PageId) (ok : Bool) : BufferManager P × Bool :=
  match bm.pageTable p with
  | none => (bm, false)
  | some f => bm.tryFlushFrame f ok

/-- One iteration of `flush_all_pages`: the answer of `write_page` is not looked at. -/
def flushAnyway (bm : BufferManager P) (f : Nat) (ok : Bool) : BufferManager P :=
  let bm := bm.enforceWal f
  let bm := if ok then bm.writePage f else bm
  bm.setFrame f { bm.frames f with dirty := false }

/-- `flush_all_pages` looks at this frame. -/
def toFlush (bm : BufferManager P) (f : Nat) : Bool :=
  (bm.frames f).pageId.isSome && (bm.frames f).dirty

/-- `flush_all_pages`, with the outcome of the write of each frame. -/
def tryFlushAllPages (bm : BufferManager P) (ok : Nat → Bool) : BufferManager P :=
  (List.range bm.poolSize).foldl
    (fun bm f => if bm.toFlush f then bm.flushAnyway f (ok f) else bm) bm

-- ---------------------------------------------------------------------------
-- When every write succeeds
-- ---------------------------------------------------------------------------

theorem tryFlushFrame_true (bm : BufferManager P) (f : Nat) :
    bm.tryFlushFrame f true = (bm.flushFrame f, true) := rfl

theorem tryEvictPage_true (bm : BufferManager P) (f : Nat) :
    bm.tryEvictPage f true = (bm.evictPage f, true) := by
  unfold tryEvictPage evictPage
  cases (bm.frames f).dirty with
  | true => rfl
  | false => rfl

theorem tryTakeFrame_true (bm : BufferManager P) :
    bm.tryTakeFrame true = bm.takeFrame.elim (bm, none) fun r => (r.1, some r.2) := by
  unfold tryTakeFrame takeFrame
  cases bm.freeList with
  | cons f fl => rfl
  | nil =>
    cases Replacer.evict bm.replacer with
    | none => rfl
    | some r => simp only [tryEvictPage_true, if_true, Option.elim_some]

theorem tryFetchPage_true (bm : BufferManager P) (p : PageId) :
    bm.tryFetchPage p true = bm.fetchPage p := by
  unfold tryFetchPage
  cases hp : bm.pageTable p with
  | some f => rfl
  | none =>
    simp only [fetchPage, hp, tryTakeFrame_true]
    cases bm.takeFrame with
    | none => rfl
    | some r => rfl

theorem tryNewPage_true (bm : BufferManager P) : bm.tryNewPage true = bm.newPage := by
  unfold tryNewPage newPage
  rw [tryTakeFrame_true]
  cases bm.takeFrame with
  | none => rfl
  | some r => rfl

theorem tryFlushPage_true (bm : BufferManager P) (p : PageId) :
    bm.tryFlushPage p true = bm.flushPage p := by
  unfold tryFlushPage flushPage
  cases bm.pageTable p with
  | none => rfl
  | some f => rfl

-- ---------------------------------------------------------------------------
-- A call that returns `nullptr`
-- ---------------------------------------------------------------------------

/-- Table, frames, free list, replacer and page counter are the same. -/
structure SamePool (bm bm' : BufferManager P) : Prop where
  pageTable : bm'.pageTable = bm.pageTable
  frames : bm'.frames = bm.frames
  freeList : bm'.freeList = bm.freeList
  replacer : bm'.replacer = bm.replacer
  nextPageId : bm'.nextPageId = bm.nextPageId

/-- Every frame in use that is not pinned can be evicted. -/
def AllEvictable (bm : BufferManager P) : Prop :=
  ∀ f < bm.poolSize, f ∉ bm.freeList → (bm.frames f).pinCount = 0 → f ∈ bm.replacer

/-- If the call has returned `nullptr`, the pool is as before, and as able to evict. -/
def Intact {α : Type} (bm : BufferManager P) (call : BufferManager P × Option α) : Prop :=
  call.2 = none → SamePool bm call.1 ∧ (AllEvictable bm → AllEvictable call.1)

/-- The next frame would have to come from the replacer, and the page in it is dirty. -/
def victimDirty (bm : BufferManager P) : Bool :=
  bm.freeList.isEmpty && bm.replacer.getLast?.any fun f => (bm.frames f).dirty

omit [PageOps P] in
theorem SamePool.refl (bm : BufferManager P) : SamePool bm bm := ⟨rfl, rfl, rfl, rfl, rfl⟩

/-- There is no frame to take and nothing has been touched, or the write of the victim has failed. -/
theorem tryTakeFrame_none {bm : BufferManager P} {ok : Bool} (h : (bm.tryTakeFrame ok).2 = none) :
    (bm.victimDirty = false ∧ (bm.tryTakeFrame ok).1 = bm) ∨
    (bm.victimDirty = true ∧ ok = false ∧
      (bm.tryTakeFrame ok).1.replacer = bm.replacer.dropLast ∧ bm.replacer ≠ []) := by
  unfold tryTakeFrame at h ⊢
  split at h
  · cases h
  · rename_i hfree
    cases hl : bm.replacer.getLast? with
    | none =>
      have hev : Replacer.evict bm.replacer = none := by
        unfold Replacer.evict
        rw [hl]
        rfl
      rw [hev, hfree]
      refine .inl ⟨?_, rfl⟩
      unfold victimDirty
      rw [hl]
      simp
    | some f =>
      have hev : Replacer.evict bm.replacer = some (f, bm.replacer.dropLast) := by
        unfold Replacer.evict
        rw [hl]
        rfl
      have hne : bm.replacer ≠ [] := by
        intro hnil
        rw [hnil] at hl
        cases hl
      rw [hev] at h
      rw [hev, hfree]
      simp only at h ⊢
      unfold tryEvictPage at h ⊢
      cases hd : (bm.frames f).dirty with
      | false => simp [hd] at h
      | true =>
        cases ok with
        | true => simp [hd, tryFlushFrame] at h
        | false =>
          refine .inr ⟨?_, rfl, ?_, hne⟩
          · unfold victimDirty
            rw [hl, hfree]
            simp [hd]
          · simp [tryFlushFrame, enforceWal]

/-- A dirty victim that cannot be written makes the call fail. -/
theorem tryTakeFrame_of_victimDirty {bm : BufferManager P} (h : bm.victimDirty = true) :
    (bm.tryTakeFrame false).2 = none := by
  unfold victimDirty at h
  simp only [Bool.and_eq_true, List.isEmpty_iff, Option.any_eq_true] at h
  obtain ⟨hfree, f, hf, hd⟩ := h
  have hev : Replacer.evict bm.replacer = some (f, bm.replacer.dropLast) := by
    unfold Replacer.evict
    rw [hf]
    rfl
  unfold tryTakeFrame
  rw [hfree, hev]
  simp [tryEvictPage, hd, tryFlushFrame]

theorem dropLast_ne_self {l : List Nat} (h : l ≠ []) : l.dropLast ≠ l := by
  intro heq
  have hlen := congrArg List.length heq
  have hpos := List.length_pos_of_ne_nil h
  rw [List.length_dropLast] at hlen
  omega

/-- What `fetch_page` and `new_page` share: the frame they take. -/
theorem tryTakeFrame_intact_iff {bm : BufferManager P} {ok : Bool} :
    Intact bm (bm.tryTakeFrame ok) ↔ ¬ (bm.victimDirty = true ∧ ok = false) := by
  constructor
  · rintro h ⟨hv, rfl⟩
    have hnone := tryTakeFrame_of_victimDirty hv
    rcases tryTakeFrame_none hnone with ⟨hc, -⟩ | ⟨-, -, hr, hne⟩
    · rw [hv] at hc
      cases hc
    · exact dropLast_ne_self hne (hr.symm.trans (h hnone).1.replacer)
  · intro h hnone
    rcases tryTakeFrame_none hnone with ⟨-, heq⟩ | ⟨hv, hok, -⟩
    · rw [heq]
      exact ⟨SamePool.refl bm, id⟩
    · exact absurd ⟨hv, hok⟩ h

end Ops

/-- **A failed call leaves the pool intact unless it was a failed write.** For
every pool and every outcome of the write: `fetch_page`, of a page that is not
resident, and `new_page` leave all structures as they were when they return
`nullptr`, exactly if it is not the write of a dirty victim that has failed. A
resident page is always served. -/
theorem failed_call_intact_iff [PageOps P] (bm : BufferManager P) (ok : Bool) :
    (∀ p, Intact bm (bm.tryFetchPage p ok) ↔
      ¬ (bm.pageTable p = none ∧ bm.victimDirty = true ∧ ok = false)) ∧
    (Intact bm (bm.tryNewPage ok) ↔ ¬ (bm.victimDirty = true ∧ ok = false)) := by
  constructor
  · intro p
    cases hp : bm.pageTable p with
    | some f =>
      refine iff_of_true (fun hnone => ?_) (fun hc => by cases hc.1)
      unfold tryFetchPage fetchPage at hnone
      rw [hp] at hnone
      cases hnone
    | none =>
      have hcall : Intact bm (bm.tryFetchPage p ok) ↔ Intact bm (bm.tryTakeFrame ok) := by
        unfold Intact tryFetchPage
        rw [hp]
        rcases bm.tryTakeFrame ok with ⟨bm', _ | f⟩
        · exact Iff.rfl
        · exact iff_of_true (fun hc => by cases hc) (fun hc => by cases hc)
      rw [hcall, tryTakeFrame_intact_iff]
      simp
  · have hcall : Intact bm (bm.tryNewPage ok) ↔ Intact bm (bm.tryTakeFrame ok) := by
      unfold Intact tryNewPage
      rcases bm.tryTakeFrame ok with ⟨bm', _ | f⟩
      · exact ⟨fun h _ => h rfl, fun h _ => h rfl⟩
      · exact iff_of_true (fun hc => by cases hc) (fun hc => by cases hc)
    rw [hcall, tryTakeFrame_intact_iff]

/-- A pool of one frame: the page in it is dirty and cannot be written, `new_page`
returns `nullptr`, and then no call can get a frame any more, although no page
is pinned and writes succeed again. -/
theorem failed_write_loses_frame :
    ∃ bm : BufferManager SlotPage,
      bm = (((new 1 (fun _ => zero) 0 none).newPage.1).unpinPage (some 0) true).1 ∧
      ¬ Intact bm (bm.tryNewPage false) ∧ ¬ Intact bm (bm.tryFetchPage (some 7) false) ∧
      (bm.frames 0).pinCount = 0 ∧ (bm.newPage.2).isSome = true ∧
      ((bm.tryNewPage false).1.newPage.2).isNone = true := by
  refine ⟨_, rfl, fun h => ?_, fun h => ?_, rfl, rfl, rfl⟩
  · have hr := (h rfl).1.replacer
    cases hr
  · have hr := (h rfl).1.replacer
    cases hr

end BufferManager

end PersistX.Pool
