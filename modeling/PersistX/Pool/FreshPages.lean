import PersistX.Pool.WriteAhead
import PersistX.Page.SlotMap
import PersistX.Page.DataPage

/-!
# PersistX — pages from `new_page` that were never dirtied

`new_page` puts the header of an empty data page into a frame and leaves the
dirty bit clear. If the client unpins the page with `is_dirty = false`, the header
is nowhere but in the frame: an eviction drops it, and the next `fetch_page` reads
zeros, on which `insert_record` writes over the header.

`Untouched bm n` says that nobody has written page `n`: the file has zeros for it,
and a frame that holds it is clean and as `init` left it.

Main result: `new_page_stays_initialised_iff` — what `fetch_page` then returns is
the initialised page exactly if the page is resident still, or there is no frame
for it; and it is resident as long as no call evicts its frame.
-/

namespace PersistX.Pool

open PageOps Transition

variable {P : Type}

namespace BufferManager

section Ops

variable [PageOps P]

/-- Nobody has written page `n`. -/
structure Untouched (bm : BufferManager P) (n : Nat) : Prop where
  disk : bm.disk (some n) = zero
  frames : ∀ f, (bm.frames f).pageId = some n → (bm.frames f).page = init n ∧
    (bm.frames f).dirty = false

variable {bm bm' : BufferManager P} {n f : Nat} {q : PageId}

-- ---------------------------------------------------------------------------
-- Calls on other pages
-- ---------------------------------------------------------------------------

/-- Only frames and file matter. -/
theorem Untouched.congr (h : Untouched bm n) (hdisk : bm'.disk = bm.disk)
    (hframes : bm'.frames = bm.frames) : Untouched bm' n where
  disk := by
    rw [hdisk]
    exact h.disk
  frames := by
    rw [hframes]
    exact h.frames

theorem Untouched.setFrame (h : Untouched bm n) {fr : Frame P}
    (hfr : fr.pageId = some n → fr.page = init n ∧ fr.dirty = false) :
    Untouched (bm.setFrame f fr) n where
  disk := h.disk
  frames g hg := by
    unfold BufferManager.setFrame at hg ⊢
    simp only [Function.update_apply] at hg ⊢
    split at hg
    · rename_i heq
      rw [if_pos heq]
      exact hfr hg
    · rename_i hne
      rw [if_neg hne]
      exact h.frames g hg

theorem Untouched.flushFrame (h : Untouched bm n) (hf : (bm.frames f).pageId ≠ some n) :
    Untouched (bm.flushFrame f) n := by
  have hwrite : Untouched ((bm.enforceWal f).writePage f) n := by
    refine ⟨?_, h.frames⟩
    have hupd : ((bm.enforceWal f).writePage f).disk (some n) = bm.disk (some n) :=
      Function.update_of_ne hf.symm _ _
    rw [hupd]
    exact h.disk
  exact hwrite.setFrame fun hid => absurd hid hf

/-- A dirty frame holds another page. -/
theorem Untouched.ne_of_dirty (h : Untouched bm n) (hd : (bm.frames f).dirty = true) :
    (bm.frames f).pageId ≠ some n := by
  intro hid
  rw [(h.frames f hid).2] at hd
  cases hd

theorem Untouched.evictPage (h : Untouched bm n) (f : Nat) : Untouched (bm.evictPage f) n := by
  unfold BufferManager.evictPage
  split
  · rename_i hd
    exact (h.flushFrame (h.ne_of_dirty hd)).congr rfl rfl
  · exact h.congr rfl rfl

theorem Untouched.takeFrame (h : Untouched bm n) (ht : bm.takeFrame = some (bm', f)) :
    Untouched bm' n := by
  rcases takeFrame_cases ht with ⟨fl, _, rfl⟩ | ⟨r, _, _, rfl⟩
  · exact h.congr rfl rfl
  · have hr : Untouched { bm with replacer := r } n := h.congr rfl rfl
    exact hr.evictPage f

theorem Untouched.install (h : Untouched bm n) (hq : q ≠ some n) (f : Nat) (x : P) :
    Untouched (bm.install f q x) n := by
  have hset : Untouched (bm.setFrame f ⟨q, x, 1, false⟩) n := h.setFrame fun hid => absurd hid hq
  exact hset.congr rfl rfl

theorem Untouched.fetchPage (h : Untouched bm n) (hq : q ≠ some n) :
    Untouched (bm.fetchPage q).1 n := by
  unfold BufferManager.fetchPage
  split
  · rename_i f _
    have hset : Untouched
        (bm.setFrame f { bm.frames f with pinCount := (bm.frames f).pinCount + 1 }) n :=
      h.setFrame (h.frames f)
    exact hset.congr rfl rfl
  · split
    · exact h
    · rename_i bm' f ht
      exact (h.takeFrame ht).install hq f _

theorem Untouched.newPage (h : Untouched bm n) (hids : bm.IdsLeft) (hn : n ≠ bm.nextPageId) :
    Untouched bm.newPage.1 n := by
  cases ht : bm.takeFrame with
  | none =>
    rw [newPage_of_takeFrame_none ht]
    exact h
  | some r =>
    obtain ⟨bm', f⟩ := r
    rw [newPage_of_idsLeft hids ht]
    have hnext : Untouched { bm' with nextPageId := bm.nextPageId + 1 } n :=
      (h.takeFrame ht).congr rfl rfl
    exact hnext.install (fun heq => hn (Option.some.inj heq).symm) f _

/-- The id that `new_page` gives out, if nobody used it before. -/
theorem Untouched.newPage_self (h : Untouched bm bm.nextPageId) (hids : bm.IdsLeft) :
    Untouched bm.newPage.1 bm.nextPageId := by
  cases ht : bm.takeFrame with
  | none =>
    rw [newPage_of_takeFrame_none ht]
    exact h
  | some r =>
    obtain ⟨bm', f⟩ := r
    rw [newPage_of_idsLeft hids ht]
    have hnext : Untouched { bm' with nextPageId := bm.nextPageId + 1 } bm.nextPageId :=
      (h.takeFrame ht).congr rfl rfl
    have hset : Untouched ({ bm' with nextPageId := bm.nextPageId + 1 }.setFrame f
        ⟨some bm.nextPageId, init bm.nextPageId, 1, false⟩) bm.nextPageId :=
      hnext.setFrame fun _ => ⟨rfl, rfl⟩
    exact hset.congr rfl rfl

/-- `unpin_page` sets the dirty bit of another page, or of none. -/
theorem Untouched.unpinPage (h : Untouched bm n) (hc : bm.Consistent) {d : Bool}
    (hq : q ≠ some n ∨ d = false) : Untouched (bm.unpinPage q d).1 n := by
  unfold BufferManager.unpinPage
  split
  · exact h
  · rename_i f hf
    have hset : Untouched (bm.setFrame f { bm.frames f with
        pinCount := (bm.frames f).pinCount - 1, dirty := (bm.frames f).dirty || d }) n := by
      refine h.setFrame fun hid => ?_
      obtain ⟨hpage, hclean⟩ := h.frames f hid
      rcases hq with hq | hd
      · exact absurd ((hc.table q f hf).2.2.symm.trans hid) hq
      · refine ⟨hpage, ?_⟩
        rw [hclean, hd]
        rfl
    simp only
    split
    · exact h
    · split
      · exact hset.congr rfl rfl
      · exact hset

theorem Untouched.flushPage (h : Untouched bm n) (hc : bm.Consistent) (hq : q ≠ some n) :
    Untouched (bm.flushPage q).1 n := by
  unfold BufferManager.flushPage
  split
  · exact h
  · rename_i f hf
    exact h.flushFrame fun hid => hq ((hc.table q f hf).2.2.symm.trans hid)

theorem Untouched.flushAllPages (h : Untouched bm n) : Untouched bm.flushAllPages n := by
  unfold BufferManager.flushAllPages
  generalize List.range bm.poolSize = l
  induction l generalizing bm with
  | nil => exact h
  | cons f l ih =>
    rw [List.foldl_cons]
    split
    · rename_i hd
      exact ih (h.flushFrame (h.ne_of_dirty hd.2))
    · exact ih h

theorem Untouched.deletePage (h : Untouched bm n) (q : PageId) :
    Untouched (bm.deletePage q).1 n := by
  unfold BufferManager.deletePage
  split
  · exact h
  · rename_i f _
    split
    · exact h
    · have hset : Untouched (bm.setFrame f { bm.frames f with
          pageId := none, dirty := false, pinCount := 0 }) n := h.setFrame fun hid => by cases hid
      exact hset.congr rfl rfl

-- ---------------------------------------------------------------------------
-- Runs of the pool
-- ---------------------------------------------------------------------------

/-- Clients fetch pages that the disk manager has allocated, and stay within the bounds of
the counters; the pool is not restarted. -/
def Uses (bm : BufferManager P) : Event P → Prop
  | .pool (.fetchPage q) => (∀ n, q = some n → n < bm.nextPageId) ∧ bm.PinsLeft q
  | .pool .newPage => bm.IdsLeft
  | .restart _ _ => False
  | _ => True

/-- The event is about pages other than `p`, or unpins `p` with `is_dirty = false`. -/
def NeverDirties (p : Nat) (bm : BufferManager P) : Event P → Prop
  | .pool (.fetchPage q) => q ≠ some p
  | .pool (.unpinPage q isDirty) => q ≠ some p ∨ isDirty = false
  | .pool (.flushPage q) => q ≠ some p
  | .pool (.deletePage q) => q ≠ some p
  | .modify f _ => (bm.frames f).pageId ≠ some p
  | _ => True

/-- The call needs a frame, none is free, and the victim of the replacer is that of page `p`. -/
def Evicts (p : Nat) (bm : BufferManager P) (e : Event P) : Prop :=
  bm.freeList = [] ∧ (∃ f, bm.pageTable (some p) = some f ∧ bm.replacer.getLast? = some f) ∧
    (e = .pool .newPage ∨ ∃ q, e = .pool (.fetchPage q) ∧ bm.pageTable q = none)

/-- The pool is consistent, and ids that were not given out are in no frame. -/
structure KnownIds (bm : BufferManager P) : Prop where
  consistent : bm.Consistent
  ids : ∀ f n, (bm.frames f).pageId = some n → n < bm.nextPageId

/-- Ids that were not given out are in no frame, and nobody has written these pages. -/
structure FreshInv (bm : BufferManager P) : Prop where
  consistent : bm.Consistent
  ids : ∀ f n, (bm.frames f).pageId = some n → n < bm.nextPageId
  beyond : ∀ n, bm.nextPageId ≤ n → Untouched bm n

theorem FreshInv.known (h : FreshInv bm) : KnownIds bm := ⟨h.consistent, h.ids⟩

theorem freshInv_new (poolSize : Nat) {disk : PageId → P} {nextPageId : Nat}
    (hdisk : ∀ n, nextPageId ≤ n → disk (some n) = zero) (log : Option LogManager) :
    FreshInv (new poolSize disk nextPageId log) where
  consistent := consistent_new ..
  ids f n hid := by cases hid
  beyond n hn := ⟨hdisk n hn, fun f hid => by cases hid⟩

omit [PageOps P] in
/-- Pages of frames change only when a page is put into one. -/
theorem pageId_install (bm : BufferManager P) (f : Nat) (q : PageId) (x : P) (g : Nat) :
    ((bm.install f q x).frames g).pageId = if g = f then q else (bm.frames g).pageId := by
  have hset : (bm.install f q x).frames g
      = if g = f then ⟨q, x, 1, false⟩ else bm.frames g := Function.update_apply _ _ _ _
  rw [hset]
  split <;> rfl

omit [PageOps P] in
theorem sameId_setFrame {fr : Frame P} (hfr : fr.pageId = (bm.frames f).pageId) (g : Nat) :
    ((bm.setFrame f fr).frames g).pageId = (bm.frames g).pageId := by
  unfold BufferManager.setFrame
  simp only [Function.update_apply]
  split
  · rename_i heq
    rw [heq, hfr]
  · rfl

omit [PageOps P] in
/-- An id that was not given out is not resident. -/
theorem KnownIds.pageTable_none (h : KnownIds bm) (hn : bm.nextPageId ≤ n) :
    bm.pageTable (some n) = none := by
  by_contra hne
  obtain ⟨f, hf⟩ := Option.ne_none_iff_exists'.mp hne
  have := h.ids f n (h.consistent.table _ f hf).2.2
  omega

omit [PageOps P] in
theorem KnownIds.newPageSafe (h : KnownIds bm) (hids : bm.IdsLeft) : bm.NewPageSafe := by
  right
  intro f hf
  rw [hids.pageIdOf, h.pageTable_none (Nat.le_refl _)] at hf
  cases hf

omit [PageOps P] in
/-- Calls about an id that is not resident do nothing. -/
theorem unpinPage_none (hq : bm.pageTable q = none) (d : Bool) : (bm.unpinPage q d).1 = bm := by
  unfold BufferManager.unpinPage
  rw [hq]

theorem flushPage_none (hq : bm.pageTable q = none) : (bm.flushPage q).1 = bm := by
  unfold BufferManager.flushPage
  rw [hq]

/-- An event that does not dirty page `n` leaves it untouched; so does any event if `n`
was not given out yet. -/
theorem FreshInv.untouched_step (h : FreshInv bm) (hn : Untouched bm n) {e : Event P}
    (hok : bm.Uses e) (ho : bm.nextPageId ≤ n ∨ NeverDirties n bm e)
    (hnew : e = .pool .newPage → n ≠ bm.nextPageId) (hs : bm.step e = some bm') :
    Untouched bm' n := by
  cases e with
  | pool op =>
    obtain rfl := Option.some.inj hs
    cases op with
    | fetchPage q =>
      refine hn.fetchPage ?_
      rintro rfl
      rcases ho with hle | hne
      · exact absurd (hok.1 n rfl) (by omega)
      · exact hne rfl
    | newPage => exact hn.newPage hok (hnew rfl)
    | unpinPage q d =>
      by_cases hq : q = some n
      · rcases ho with hle | hne
        · have hnone := h.known.pageTable_none hle
          rw [← hq] at hnone
          simp only [BufferManager.apply, unpinPage_none hnone]
          exact hn
        · exact hn.unpinPage h.consistent hne
      · exact hn.unpinPage h.consistent (.inl hq)
    | flushPage q =>
      by_cases hq : q = some n
      · rcases ho with hle | hne
        · have hnone := h.known.pageTable_none hle
          rw [← hq] at hnone
          simp only [BufferManager.apply, flushPage_none hnone]
          exact hn
        · exact absurd hq hne
      · exact hn.flushPage h.consistent hq
    | flushAllPages => exact hn.flushAllPages
    | deletePage q => exact hn.deletePage q
  | append t pr b =>
    obtain rfl := Option.some.inj hs
    exact hn.congr rfl rfl
  | flush l =>
    obtain rfl := Option.some.inj hs
    exact hn.congr rfl rfl
  | flushAll =>
    obtain rfl := Option.some.inj hs
    exact hn.congr rfl rfl
  | modify f page =>
    obtain rfl := Option.some.inj hs
    refine hn.setFrame fun hid => ?_
    rcases ho with hle | hne
    · exact absurd (h.ids f n hid) (by omega)
    · exact absurd hid hne
  | restart _ _ => exact hok.elim

/-- The pages in the frames, and the page counter, behind one event. -/
theorem KnownIds.ids_step (h : KnownIds bm) {e : Event P} (hok : bm.Uses e)
    (hs : bm.step e = some bm') : bm.nextPageId ≤ bm'.nextPageId ∧
      ∀ f n, (bm'.frames f).pageId = some n → n < bm'.nextPageId := by
  have hsame : ∀ {b : BufferManager P}, (∀ f, (b.frames f).pageId = (bm.frames f).pageId) →
      b.nextPageId = bm.nextPageId → bm.nextPageId ≤ b.nextPageId ∧
        ∀ f n, (b.frames f).pageId = some n → n < b.nextPageId := by
    intro b hid hnext
    refine ⟨Nat.le_of_eq hnext.symm, fun f n hf => ?_⟩
    rw [hnext]
    exact h.ids f n ((hid f).symm.trans hf)
  cases e with
  | pool op =>
    obtain rfl := Option.some.inj hs
    cases op with
    | fetchPage q =>
      simp only [BufferManager.apply]
      cases hq : bm.pageTable q with
      | some f =>
        unfold BufferManager.fetchPage
        rw [hq]
        have hid : ({ bm.frames f with pinCount := (bm.frames f).pinCount + 1 } : Frame P).pageId
            = (bm.frames f).pageId := rfl
        exact hsame (fun g => sameId_setFrame hid g) rfl
      | none =>
        unfold BufferManager.fetchPage
        rw [hq]
        cases ht : bm.takeFrame with
        | none => exact hsame (fun _ => rfl) rfl
        | some r =>
          obtain ⟨bm', f⟩ := r
          have hnext := takeFrame_nextPageId ht
          refine ⟨Nat.le_of_eq hnext.symm, fun g n hg => ?_⟩
          show n < bm'.nextPageId
          rw [hnext]
          simp only [pageId_install] at hg
          split at hg
          · exact hok.1 n hg
          · rw [takeFrame_pageId ht] at hg
            exact h.ids g n hg
    | newPage =>
      simp only [BufferManager.apply]
      cases ht : bm.takeFrame with
      | none =>
        rw [newPage_of_takeFrame_none ht]
        exact hsame (fun _ => rfl) rfl
      | some r =>
        obtain ⟨bm', f⟩ := r
        rw [newPage_of_idsLeft hok ht]
        refine ⟨Nat.le_succ _, fun g n hg => ?_⟩
        show n < bm.nextPageId + 1
        simp only [pageId_install] at hg
        split at hg
        · have := Option.some.inj hg
          omega
        · have hlt := h.ids g n ((takeFrame_pageId ht g).symm.trans hg)
          omega
    | unpinPage q d =>
      simp only [BufferManager.apply]
      unfold BufferManager.unpinPage
      split
      · exact hsame (fun _ => rfl) rfl
      · simp only
        split
        · exact hsame (fun _ => rfl) rfl
        · split
          · exact hsame (sameId_setFrame rfl) rfl
          · exact hsame (sameId_setFrame rfl) rfl
    | flushPage q =>
      simp only [BufferManager.apply]
      unfold BufferManager.flushPage
      split
      · exact hsame (fun _ => rfl) rfl
      · rename_i f _
        have hshape := sameShape_flushFrame bm f
        exact hsame hshape.pageId hshape.nextPageId
    | flushAllPages =>
      have hshape := sameShape_flushAllPages bm
      exact hsame hshape.pageId hshape.nextPageId
    | deletePage q =>
      simp only [BufferManager.apply]
      unfold BufferManager.deletePage
      split
      · exact hsame (fun _ => rfl) rfl
      · rename_i f _
        split
        · exact hsame (fun _ => rfl) rfl
        · refine ⟨Nat.le_refl _, fun g n hg => ?_⟩
          simp only [BufferManager.setFrame, Function.update_apply] at hg
          split at hg
          · cases hg
          · exact h.ids g n hg
  | append t pr b =>
    obtain rfl := Option.some.inj hs
    exact hsame (fun _ => rfl) rfl
  | flush l =>
    obtain rfl := Option.some.inj hs
    exact hsame (fun _ => rfl) rfl
  | flushAll =>
    obtain rfl := Option.some.inj hs
    exact hsame (fun _ => rfl) rfl
  | modify f page =>
    obtain rfl := Option.some.inj hs
    exact hsame (sameId_setFrame rfl) rfl
  | restart _ _ => exact hok.elim

/-- Page table, frames and lists stay consistent: no id is given out twice. -/
theorem KnownIds.consistent_step (h : KnownIds bm) {e : Event P} (hok : bm.Uses e)
    (hs : bm.step e = some bm') : bm'.Consistent := by
  have hc := h.consistent
  cases e with
  | pool op =>
    obtain rfl := Option.some.inj hs
    by_cases hop : op = .newPage
    · subst hop
      exact (consistent_newPage_iff hc).mpr (h.newPageSafe hok)
    · exact hc.apply hop
  | append t pr b =>
    obtain rfl := Option.some.inj hs
    exact ⟨hc.table, hc.resident, hc.free, hc.evictable⟩
  | flush l =>
    obtain rfl := Option.some.inj hs
    exact ⟨hc.table, hc.resident, hc.free, hc.evictable⟩
  | flushAll =>
    obtain rfl := Option.some.inj hs
    exact ⟨hc.table, hc.resident, hc.free, hc.evictable⟩
  | modify f page =>
    obtain rfl := Option.some.inj hs
    exact hc.congr (sameShape_setFrame rfl rfl)
  | restart _ _ => exact hok.elim

/-- Every event keeps the invariant. -/
theorem freshInv_step (bm : BufferManager P) (e : Event P) (bm' : BufferManager P)
    (h : FreshInv bm) (hok : bm.Uses e) (hs : bm.step e = some bm') : FreshInv bm' := by
  obtain ⟨hle, hids⟩ := h.known.ids_step hok hs
  refine ⟨h.known.consistent_step hok hs, hids, fun n hn => ?_⟩
  have hn' : bm.nextPageId ≤ n := Nat.le_trans hle hn
  by_cases hnew : n = bm.nextPageId
  · -- the id is given out only if `new_page` has moved the counter past it
    by_cases he : e = .pool .newPage
    · subst he hnew
      obtain rfl := Option.some.inj hs
      exact (h.beyond _ (Nat.le_refl _)).newPage_self hok
    · exact h.untouched_step (h.beyond n hn') hok (.inl hn') (fun heq => absurd heq he) hs
  · exact h.untouched_step (h.beyond n hn') hok (.inl hn') (fun _ => hnew) hs

-- ---------------------------------------------------------------------------
-- From `new_page` to the next fetch
-- ---------------------------------------------------------------------------

/-- Page `p` was given out, and nobody has written it. -/
structure Given (p : Nat) (bm : BufferManager P) : Prop where
  inv : FreshInv bm
  lt : p < bm.nextPageId
  untouched : Untouched bm p

theorem given_step (p : Nat) (bm : BufferManager P) (e : Event P) (bm' : BufferManager P)
    (h : Given p bm) (hok : bm.Uses e ∧ NeverDirties p bm e) (hs : bm.step e = some bm') :
    Given p bm' where
  inv := freshInv_step bm e bm' h.inv hok.1 hs
  lt := Nat.lt_of_lt_of_le h.lt (h.inv.known.ids_step hok.1 hs).1
  untouched := h.inv.untouched_step h.untouched hok.1 (.inr hok.2)
    (fun _ => Nat.ne_of_lt h.lt) hs

/-- What `new_page` gives out. -/
theorem FreshInv.newPage (h : FreshInv bm) (hids : bm.IdsLeft) {p : Nat}
    (hnew : bm.newPage = (bm', some (some p, f))) :
    Given p bm' ∧ bm'.pageTable (some p) = some f := by
  cases ht : bm.takeFrame with
  | none =>
    rw [newPage_of_takeFrame_none ht] at hnew
    cases hnew
  | some r =>
    obtain ⟨b, g⟩ := r
    have heq := newPage_of_idsLeft hids ht
    have hbm : bm.newPage.1 = bm' := congrArg Prod.fst hnew
    have hp : bm.nextPageId = p ∧ g = f := by
      have hpair := Option.some.inj (congrArg Prod.snd (heq.symm.trans hnew))
      exact ⟨Option.some.inj (congrArg Prod.fst hpair), congrArg Prod.snd hpair⟩
    obtain ⟨rfl, rfl⟩ := hp
    have hstep : bm.step (.pool .newPage) = some bm' := congrArg some hbm
    refine ⟨⟨freshInv_step bm (.pool .newPage) bm' h hids hstep, ?_, ?_⟩, ?_⟩
    · rw [← hbm, heq]
      exact Nat.lt_succ_self bm.nextPageId
    · rw [← hbm]
      exact (h.beyond _ (Nat.le_refl _)).newPage_self hids
    · rw [← hbm, heq]
      exact Function.update_self _ _ _

/-- A resident page leaves the pool only when its frame is the victim. -/
theorem Consistent.pageTable_takeFrame (h : bm.Consistent) {p g : Nat}
    (hp : bm.pageTable (some p) = some g)
    (hkeep : ¬ (bm.freeList = [] ∧ bm.replacer.getLast? = some g))
    (ht : bm.takeFrame = some (bm', f)) : bm'.pageTable (some p) = some g := by
  rcases takeFrame_cases ht with ⟨fl, _, rfl⟩ | ⟨r, hfree, hrepl, rfl⟩
  · exact hp
  · have hlast := getLast?_replacer_of_takeFrame ht hfree
    rw [(sameShape_evictPage { bm with replacer := r } f).pageTable]
    refine (Function.update_of_ne ?_ _ _).trans hp
    intro hid
    have hmem : f ∈ bm.replacer := by
      rw [hrepl]
      exact List.mem_append_right r (List.mem_singleton.mpr rfl)
    obtain ⟨hlt, hnfree, -⟩ := (h.evictable.2 f).mp hmem
    have hres := h.resident f hlt hnfree
    rw [← show some p = (bm.frames f).pageId from hid, hp] at hres
    rw [Option.some.inj hres] at hkeep
    exact hkeep ⟨hfree, hlast⟩

theorem Given.resident_step {p g : Nat} (h : Given p bm) {e : Event P}
    (hok : bm.Uses e ∧ NeverDirties p bm e) (hkeep : ¬ Evicts p bm e)
    (hp : bm.pageTable (some p) = some g) (hs : bm.step e = some bm') :
    bm'.pageTable (some p) = some g := by
  have hc := h.inv.consistent
  cases e with
  | pool op =>
    obtain rfl := Option.some.inj hs
    cases op with
    | fetchPage q =>
      simp only [BufferManager.apply]
      unfold BufferManager.fetchPage
      cases hq : bm.pageTable q with
      | some f => exact hp
      | none =>
        cases ht : bm.takeFrame with
        | none => exact hp
        | some r =>
          obtain ⟨b, f⟩ := r
          have hne : some p ≠ q := fun heq => hok.2 heq.symm
          refine (Function.update_of_ne hne _ _).trans (hc.pageTable_takeFrame hp ?_ ht)
          rintro ⟨hfree, hlast⟩
          exact hkeep ⟨hfree, ⟨g, hp, hlast⟩, .inr ⟨q, rfl, hq⟩⟩
    | newPage =>
      simp only [BufferManager.apply]
      cases ht : bm.takeFrame with
      | none =>
        rw [newPage_of_takeFrame_none ht]
        exact hp
      | some r =>
        obtain ⟨b, f⟩ := r
        rw [newPage_of_idsLeft hok.1 ht]
        have hne : some p ≠ some bm.nextPageId := fun heq =>
          absurd (Option.some.inj heq) (Nat.ne_of_lt h.lt)
        have htake : b.pageTable (some p) = some g := by
          refine hc.pageTable_takeFrame hp ?_ ht
          rintro ⟨hfree, hlast⟩
          exact hkeep ⟨hfree, ⟨g, hp, hlast⟩, .inl rfl⟩
        exact (Function.update_of_ne hne _ _).trans htake
    | unpinPage q d =>
      simp only [BufferManager.apply]
      unfold BufferManager.unpinPage
      split
      · exact hp
      · simp only
        split
        · exact hp
        · split
          · exact hp
          · exact hp
    | flushPage q =>
      simp only [BufferManager.apply]
      unfold BufferManager.flushPage
      split
      · exact hp
      · exact hp
    | flushAllPages =>
      simp only [BufferManager.apply, (sameShape_flushAllPages bm).pageTable]
      exact hp
    | deletePage q =>
      simp only [BufferManager.apply]
      unfold BufferManager.deletePage
      split
      · exact hp
      · split
        · exact hp
        · have hne : some p ≠ q := fun heq => hok.2 heq.symm
          exact (Function.update_of_ne hne _ _).trans hp
  | append t pr b =>
    obtain rfl := Option.some.inj hs
    exact hp
  | flush l =>
    obtain rfl := Option.some.inj hs
    exact hp
  | flushAll =>
    obtain rfl := Option.some.inj hs
    exact hp
  | modify f page =>
    obtain rfl := Option.some.inj hs
    exact hp
  | restart _ _ => exact hok.1.elim

/-- What `fetch_page` returns of a page that nobody has written. -/
theorem Given.fetchPage {p g : Nat} (h : Given p bm)
    (hf : (bm.fetchPage (some p)).2 = some g) :
    ((bm.fetchPage (some p)).1.frames g).page
      = if (bm.pageTable (some p)).isSome then init p else zero := by
  unfold BufferManager.fetchPage at hf ⊢
  cases hp : bm.pageTable (some p) with
  | some g' =>
    rw [hp] at hf
    obtain rfl := Option.some.inj hf
    have hid := (h.inv.consistent.table _ g' hp).2.2
    simp only [BufferManager.setFrame, Function.update_self, Option.isSome_some, if_true]
    exact (h.untouched.frames g' hid).1
  | none =>
    rw [hp] at hf
    cases ht : bm.takeFrame with
    | none =>
      rw [ht] at hf
      cases hf
    | some r =>
      obtain ⟨b, g'⟩ := r
      rw [ht] at hf
      obtain rfl := Option.some.inj hf
      simp only [BufferManager.install, BufferManager.setFrame, Function.update_self,
        Option.isSome_none, Bool.false_eq_true, if_false]
      exact (h.untouched.takeFrame ht).disk

theorem fetchPage_eq_none {p : PageId} :
    (bm.fetchPage p).2 = none ↔ bm.pageTable p = none ∧ bm.takeFrame = none := by
  unfold BufferManager.fetchPage
  cases bm.pageTable p with
  | some f => simp
  | none =>
    cases bm.takeFrame with
    | none => simp
    | some r => simp

end Ops

-- ---------------------------------------------------------------------------
-- Data pages
-- ---------------------------------------------------------------------------

/-- The header that `Page::init` writes, and what it is for: whatever is stored in the page
from there on is read back. -/
structure Initialised (x : Page) (p : Nat) : Prop where
  pageId : x.pageId = p % 2 ^ 32
  /-- `PageType::DATA`. -/
  pageType : x.pageType = 1
  freeSpacePtr : x.freeSpacePtr = 21
  records : ∀ y m, Steps Page.step Page.Allowed (x, fun _ => none) (y, m) →
    ∀ s, y.readRecord s = m s

/-- The two fields that no operation on records looks at. -/
theorem ident_init (p : Nat) :
    (Page.init p).pageId = p % 2 ^ 32 ∧ (Page.init p).pageType = 1 := by
  have hwr : ∀ off n, (Page.init p).rd off n
      = ((((((Page.zero.wr 0 4 p).wr 4 1 1).wr 5 2 0).wr 7 2 0).wr 9 4 Page.headerSize).wr 13 8
        0).rd off n := fun _ _ => rfl
  constructor
  · rw [Page.pageId, hwr, Page.rd_wr (by decide), Page.rd_wr (by decide), Page.rd_wr (by decide),
      Page.rd_wr (by decide), Page.rd_wr (by decide), Page.rd_wr_self (by decide)]
    rfl
  · rw [Page.pageType, hwr, Page.rd_wr (by decide), Page.rd_wr (by decide), Page.rd_wr (by decide),
      Page.rd_wr (by decide), Page.rd_wr_self (by decide)]
    rfl

theorem initialised_init (p : Nat) : Initialised (Page.init p) p where
  pageId := (ident_init p).1
  pageType := (ident_init p).2
  freeSpacePtr := by
    rw [Page.init, Page.freeSpacePtr_setPageLsn, Page.freeSpacePtr_setFreeSpacePtr]
    rfl
  records y m hrun := (hrun.invariant Page.kept_step (Page.kept_start (.init p))).read

theorem not_initialised_zero (p : Nat) : ¬ Initialised Page.zero p := by
  intro h
  have hfsp : Page.zero.freeSpacePtr = 0 := by decide
  have := h.freeSpacePtr
  omega

/-- If `fetch_page(p)` returns a page, it is as `init` left it. -/
def FetchesInitialised (bm : BufferManager Page) (p : Nat) : Prop :=
  ∀ g, (bm.fetchPage (some p)).2 = some g →
    Initialised ((bm.fetchPage (some p)).1.frames g).page p

/-- A file of whole pages; what lies behind its end reads as zeros. -/
def fileOf [PageOps P] (pages : List P) : PageId → P := fun q => (q.bind fun n => pages[n]?).getD zero

theorem fileOf_beyond [PageOps P] (pages : List P) (n : Nat) (hn : pages.length ≤ n) :
    fileOf pages (some n) = zero := by
  unfold fileOf
  rw [Option.bind_some, List.getElem?_eq_none hn]
  rfl

theorem Given.fetchesInitialised_iff {bm : BufferManager Page} {p : Nat} (h : Given p bm) :
    FetchesInitialised bm p ↔ (bm.pageTable (some p)).isSome = true ∨ bm.takeFrame = none := by
  constructor
  · intro hinit
    by_contra hnot
    rw [not_or] at hnot
    have hnone : bm.pageTable (some p) = none := by simpa using hnot.1
    cases hf : (bm.fetchPage (some p)).2 with
    | none => exact hnot.2 (fetchPage_eq_none.mp hf).2
    | some g =>
      have hpage := h.fetchPage hf
      rw [hnone] at hpage
      refine not_initialised_zero p ?_
      have hg := hinit g hf
      rw [hpage] at hg
      exact hg
  · intro hcase g hf
    rcases hcase with hres | hnull
    · rw [h.fetchPage hf, if_pos hres]
      exact initialised_init p
    · rw [h.fetchPage hf]
      split
      · exact initialised_init p
      · rename_i hres
        have hnone : bm.pageTable (some p) = none := by simpa using hres
        rw [fetchPage_eq_none.mpr ⟨hnone, hnull⟩] at hf
        cases hf

/-- **A page from `new_page` that was never dirtied.** On any file, behind any
run of the pool: `new_page` gives out page `p`, and then come calls on other pages,
writes to other pages, and unpins of `p` with `is_dirty = false`. Then `fetch_page(p)`
returns the initialised page exactly if `p` is resident or no frame can be had;
and as long as no call evicts the frame of `p`, it is resident. Every `new_page`
has an id left. -/
theorem new_page_stays_initialised_iff (poolSize : Nat) (pages : List Page)
    (log : Option LogManager) {bm bm' bm'' : BufferManager Page} {p f : Nat}
    (hbefore : Steps step Uses (new poolSize (fileOf pages) pages.length log) bm)
    (hids : bm.IdsLeft) (hnew : bm.newPage = (bm', some (some p, f)))
    (hafter : Steps step (fun b e => Uses b e ∧ NeverDirties p b e) bm' bm'') :
    (FetchesInitialised bm'' p ↔
      (bm''.pageTable (some p)).isSome = true ∨ bm''.takeFrame = none) ∧
    (Steps step (fun b e => (Uses b e ∧ NeverDirties p b e) ∧ ¬ Evicts p b e) bm' bm'' →
      FetchesInitialised bm'' p) := by
  have hinv := hbefore.invariant freshInv_step (freshInv_new poolSize (fileOf_beyond pages) log)
  obtain ⟨hgiven, hres⟩ := hinv.newPage hids hnew
  have hgiven' := hafter.invariant (given_step p) hgiven
  refine ⟨hgiven'.fetchesInitialised_iff, fun hkept => ?_⟩
  have hstep : ∀ (b : BufferManager Page) (e : Event Page) b', Given p b ∧ b.pageTable (some p) = some f →
      ((Uses b e ∧ NeverDirties p b e) ∧ ¬ Evicts p b e) → b.step e = some b' →
      Given p b' ∧ b'.pageTable (some p) = some f := by
    intro b e b' hb hok hs
    exact ⟨given_step p b e b' hb.1 hok.1 hs, hb.1.resident_step hok.1 hok.2 hb.2 hs⟩
  have hres' := hkept.invariant hstep ⟨hgiven, hres⟩
  refine hgiven'.fetchesInitialised_iff.mpr (.inl ?_)
  rw [hres'.2]
  rfl

/-- Two frames: another page goes into the second one, and page 0 is there still. -/
theorem new_page_stays_initialised_two_frames :
    ∃ bm'' : BufferManager Page, (bm''.pageTable (some 1)).isSome = true ∧
      FetchesInitialised bm'' 0 := by
  have hbefore : Steps step Uses (new 2 (fileOf ([] : List Page)) 0 none)
      (new 2 (fileOf []) 0 none) := .refl
  have hstart : Steps step (fun b e => Uses b e ∧ NeverDirties 0 b e)
      (new 2 (fileOf ([] : List Page)) 0 none).newPage.1 _ := .refl
  have hafter := hstart.next (.pool (.unpinPage (some 0) false)) ⟨trivial, .inr rfl⟩ rfl
    |>.next (.pool .newPage) ⟨show 1 < invalidPageId by decide, trivial⟩ rfl
  have hids : (new 2 (fileOf ([] : List Page)) 0 none).IdsLeft := show 0 < invalidPageId by decide
  exact ⟨_, rfl, (new_page_stays_initialised_iff 2 [] none hbefore hids rfl hafter).1.mpr (.inl rfl)⟩

/-- One frame: the second `new_page` evicts page 0, which was never written. The next
fetch reads zeros, and a record that `insert_record` accepts is not read back. -/
theorem evicted_new_page_is_zeros :
    ∃ bm' bm'' : BufferManager Page,
      (new 1 (fileOf []) 0 none).newPage = (bm', some (some 0, 0)) ∧
      Steps step (fun b e => Uses b e ∧ NeverDirties 0 b e) bm' bm'' ∧
      ¬ FetchesInitialised bm'' 0 ∧
      ∃ y s, ((bm''.fetchPage (some 0)).1.frames 0).page.insertRecord [1] 0 = some (y, s) ∧
        y.readRecord s = none := by
  have hstart : Steps step (fun b e => Uses b e ∧ NeverDirties 0 b e)
      (new 1 (fileOf ([] : List Page)) 0 none).newPage.1 _ := .refl
  have hafter := hstart.next (.pool (.unpinPage (some 0) false)) ⟨trivial, .inr rfl⟩ rfl
    |>.next (.pool .newPage) ⟨show 1 < invalidPageId by decide, trivial⟩ rfl
    |>.next (.pool (.unpinPage (some 1) false)) ⟨trivial, .inr rfl⟩ rfl
  refine ⟨_, _, rfl, hafter, fun h => ?_, _, _, rfl, ?_⟩
  · exact not_initialised_zero 0 (h 0 rfl)
  · decide

end BufferManager

end PersistX.Pool
