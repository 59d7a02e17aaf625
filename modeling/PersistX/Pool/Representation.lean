import PersistX.Pool.BufferManager
import PersistX.Page.SlotPage

/-!
# PersistX — the representation invariant of the buffer pool

`Consistent` says that page table and frames are inverse to each other and that
every frame is free, evictable or pinned. `ConsistentBut bm e` is the same
with one frame `e` out of all structures, as it is between the moment
`fetch_page` or `new_page` takes a frame and the moment a page is put into it.

The five operations that only use ids they are given keep the invariant for
any ids. `new_page` takes its id from the disk manager, which does not know
that `fetch_page` may have made that id resident already: it keeps the
invariant exactly if the id is not resident, or is resident in the frame that
`new_page` evicts (`consistent_newPage_iff`). A run is consistent throughout
exactly if all its `new_page` calls are of that kind
(`consistent_states_iff_newPagesSafe`).
-/

namespace PersistX.Pool

open PageOps

namespace BufferManager

variable {P : Type}

/-- Page table and frames are inverse to each other, and every frame is on the
free list, in the replacer (resident, not pinned) or pinned. -/
structure Consistent (bm : BufferManager P) : Prop where
  /-- The table leads to a frame that is in use and holds the page. -/
  table : ∀ p f, bm.pageTable p = some f →
    f < bm.poolSize ∧ f ∉ bm.freeList ∧ (bm.frames f).pageId = p
  /-- Every frame in use is found through the table. -/
  resident : ∀ f, f < bm.poolSize → f ∉ bm.freeList → bm.pageTable (bm.frames f).pageId = some f
  /-- The free list lists frames, each once. -/
  free : bm.freeList.Nodup ∧ ∀ f ∈ bm.freeList, f < bm.poolSize
  /-- The replacer lists the frames in use that are not pinned, each once. -/
  evictable : bm.replacer.Nodup ∧
    ∀ f, f ∈ bm.replacer ↔ f < bm.poolSize ∧ f ∉ bm.freeList ∧ (bm.frames f).pinCount = 0

/-- The invariant with the frame `e` in no structure. -/
structure ConsistentBut (bm : BufferManager P) (e : Option Nat) : Prop where
  table : ∀ p f, bm.pageTable p = some f →
    f < bm.poolSize ∧ f ∉ bm.freeList ∧ some f ≠ e ∧ (bm.frames f).pageId = p
  resident : ∀ f, f < bm.poolSize → f ∉ bm.freeList → some f ≠ e →
    bm.pageTable (bm.frames f).pageId = some f
  free : bm.freeList.Nodup ∧ ∀ f ∈ bm.freeList, f < bm.poolSize ∧ some f ≠ e
  evictable : bm.replacer.Nodup ∧ ∀ f, f ∈ bm.replacer ↔
    f < bm.poolSize ∧ f ∉ bm.freeList ∧ some f ≠ e ∧ (bm.frames f).pinCount = 0

variable {bm bm' : BufferManager P} {e : Option Nat} {f : Nat} {p : PageId}

theorem consistentBut_none : ConsistentBut bm none ↔ Consistent bm := by
  constructor
  · rintro ⟨ht, hr, hf, he⟩
    exact ⟨by simpa using ht, by simpa using hr, by simpa using hf, by simpa using he⟩
  · rintro ⟨ht, hr, hf, he⟩
    exact ⟨by simpa using ht, by simpa using hr, by simpa using hf, by simpa using he⟩

/-- The invariant looks at neither contents nor dirty bits. -/
structure SameShape (bm bm' : BufferManager P) : Prop where
  poolSize : bm'.poolSize = bm.poolSize
  pageTable : bm'.pageTable = bm.pageTable
  replacer : bm'.replacer = bm.replacer
  freeList : bm'.freeList = bm.freeList
  pageId : ∀ f, (bm'.frames f).pageId = (bm.frames f).pageId
  pinCount : ∀ f, (bm'.frames f).pinCount = (bm.frames f).pinCount
  nextPageId : bm'.nextPageId = bm.nextPageId

theorem SameShape.refl (bm : BufferManager P) : SameShape bm bm :=
  ⟨rfl, rfl, rfl, rfl, fun _ => rfl, fun _ => rfl, rfl⟩

theorem SameShape.trans {bm'' : BufferManager P} (h : SameShape bm bm') (h' : SameShape bm' bm'') :
    SameShape bm bm'' where
  poolSize := h'.poolSize.trans h.poolSize
  pageTable := h'.pageTable.trans h.pageTable
  replacer := h'.replacer.trans h.replacer
  freeList := h'.freeList.trans h.freeList
  pageId f := (h'.pageId f).trans (h.pageId f)
  pinCount f := (h'.pinCount f).trans (h.pinCount f)
  nextPageId := h'.nextPageId.trans h.nextPageId

theorem ConsistentBut.congr (h : ConsistentBut bm e) (hs : SameShape bm bm') :
    ConsistentBut bm' e := by
  obtain ⟨hn, ht, hr, hf, hp, hc, _⟩ := hs
  constructor
  · rw [ht, hn, hf]
    intro q g hg
    rw [hp]
    exact h.table q g hg
  · rw [ht, hn, hf]
    intro g hlt hfree hne
    rw [hp]
    exact h.resident g hlt hfree hne
  · rw [hn, hf]
    exact h.free
  · rw [hn, hf, hr]
    refine ⟨h.evictable.1, fun g => ?_⟩
    rw [hc]
    exact h.evictable.2 g

theorem Consistent.congr (h : Consistent bm) (hs : SameShape bm bm') : Consistent bm' :=
  consistentBut_none.mp ((consistentBut_none.mpr h).congr hs)

/-- Change one frame's contents and dirty bit. -/
theorem sameShape_setFrame {fr : Frame P} (hp : fr.pageId = (bm.frames f).pageId)
    (hc : fr.pinCount = (bm.frames f).pinCount) : SameShape bm (bm.setFrame f fr) := by
  refine ⟨rfl, rfl, rfl, rfl, fun g => ?_, fun g => ?_, rfl⟩
  · unfold setFrame
    simp only [Function.update_apply]
    split
    · rename_i hg
      rw [hg, hp]
    · rfl
  · unfold setFrame
    simp only [Function.update_apply]
    split
    · rename_i hg
      rw [hg, hc]
    · rfl

section Ops

variable [PageOps P]

theorem sameShape_flushFrame (bm : BufferManager P) (f : Nat) : SameShape bm (bm.flushFrame f) := by
  have hwrite : SameShape bm ((bm.enforceWal f).writePage f) :=
    ⟨rfl, rfl, rfl, rfl, fun _ => rfl, fun _ => rfl, rfl⟩
  exact hwrite.trans (sameShape_setFrame rfl rfl)

theorem sameShape_flushAllPages (bm : BufferManager P) : SameShape bm bm.flushAllPages := by
  unfold flushAllPages
  generalize List.range bm.poolSize = l
  induction l generalizing bm with
  | nil => exact .refl bm
  | cons f l ih =>
    rw [List.foldl_cons]
    refine SameShape.trans ?_ (ih _)
    split
    · exact sameShape_flushFrame bm f
    · exact .refl bm

-- ---------------------------------------------------------------------------
-- Taking a frame and putting a page into it
-- ---------------------------------------------------------------------------

/-- Where a frame comes from. -/
theorem takeFrame_cases (ht : bm.takeFrame = some (bm', f)) :
    (∃ fl, bm.freeList = f :: fl ∧ bm' = { bm with freeList := fl }) ∨
      (∃ r, bm.freeList = [] ∧ bm.replacer = r ++ [f] ∧
        bm' = { bm with replacer := r }.evictPage f) := by
  unfold BufferManager.takeFrame at ht
  cases hfree : bm.freeList with
  | cons g fl =>
    rw [hfree] at ht
    obtain ⟨rfl, rfl⟩ := Prod.mk.inj (Option.some.inj ht)
    exact .inl ⟨fl, rfl, rfl⟩
  | nil =>
    rw [hfree] at ht
    unfold Replacer.evict at ht
    cases hlast : bm.replacer.getLast? with
    | none =>
      rw [hlast] at ht
      cases ht
    | some g =>
      rw [hlast] at ht
      obtain ⟨rfl, rfl⟩ := Prod.mk.inj (Option.some.inj ht)
      refine .inr ⟨bm.replacer.dropLast, rfl, ?_, rfl⟩
      exact (List.dropLast_append_getLast? g hlast).symm

theorem takeFrame_eq_none : bm.takeFrame = none ↔ bm.freeList = [] ∧ bm.replacer = [] := by
  unfold BufferManager.takeFrame Replacer.evict
  cases bm.freeList with
  | cons g fl => simp
  | nil =>
    cases hlast : bm.replacer.getLast? with
    | none => simpa using List.getLast?_eq_none_iff.mp hlast
    | some g =>
      simp only [Option.map_some, reduceCtorEq, true_and, false_iff]
      rintro hnil
      rw [hnil] at hlast
      cases hlast

theorem sameShape_evictPage (bm : BufferManager P) (f : Nat) :
    SameShape { bm with pageTable := Function.update bm.pageTable (bm.frames f).pageId none }
      (bm.evictPage f) := by
  unfold evictPage
  split
  · obtain ⟨hn, ht, hr, hf, hp, hc, hnext⟩ := sameShape_flushFrame bm f
    exact ⟨hn, by simp only [ht, hp], hr, hf, hp, hc, hnext⟩
  · exact .refl _

/-- A frame that was taken is in no structure. -/
theorem Consistent.takeFrame (h : Consistent bm) (ht : bm.takeFrame = some (bm', f)) :
    ConsistentBut bm' (some f) ∧ f < bm'.poolSize := by
  rcases takeFrame_cases ht with ⟨fl, hfree, rfl⟩ | ⟨r, hfree, hrepl, rfl⟩
  · have hnodup : f ∉ fl ∧ fl.Nodup := List.nodup_cons.mp (hfree ▸ h.free.1)
    have hlt : f < bm.poolSize := h.free.2 f (by rw [hfree]; exact List.mem_cons_self)
    refine ⟨⟨fun q x hx => ?_, fun x hx hxf hxg => ?_, ⟨hnodup.2, fun x hx => ?_⟩,
      h.evictable.1, fun x => ?_⟩, hlt⟩
    · obtain ⟨h1, h2, h3⟩ := h.table q x hx
      rw [hfree, List.mem_cons, not_or] at h2
      exact ⟨h1, h2.2, fun heq => h2.1 (Option.some.inj heq), h3⟩
    · refine h.resident x hx ?_
      rw [hfree, List.mem_cons, not_or]
      exact ⟨fun heq => hxg (by rw [heq]), hxf⟩
    · refine ⟨h.free.2 x (by rw [hfree]; exact List.mem_cons_of_mem _ hx), fun heq => ?_⟩
      obtain rfl := Option.some.inj heq
      exact hnodup.1 hx
    · have hx := h.evictable.2 x
      rw [hfree, List.mem_cons, not_or] at hx
      rw [hx]
      simp only [ne_eq, Option.some.injEq]
      tauto
  · have hmem : f ∈ bm.replacer := by rw [hrepl]; simp
    obtain ⟨hlt, hnfree, _⟩ := (h.evictable.2 f).mp hmem
    have hnodup : r.Nodup ∧ f ∉ r := by
      have hn := h.evictable.1
      rw [hrepl, List.nodup_append] at hn
      exact ⟨hn.1, fun hr => hn.2.2 f hr f (List.mem_singleton.mpr rfl) rfl⟩
    have hshape := sameShape_evictPage { bm with replacer := r } f
    have hlt' : f < ({ bm with replacer := r }.evictPage f).poolSize := by
      rw [hshape.poolSize]
      exact hlt
    suffices hbut : ConsistentBut
        { bm with replacer := r, pageTable := Function.update bm.pageTable (bm.frames f).pageId none }
        (some f) from ⟨hbut.congr hshape, hlt'⟩
    refine ⟨fun q x hx => ?_, fun x hx hxf hxg => ?_, ⟨h.free.1, fun x hx => ?_⟩, hnodup.1,
      fun x => ?_⟩
    · simp only [Function.update_apply] at hx
      split at hx
      · cases hx
      · rename_i hq
        obtain ⟨h1, h2, h3⟩ := h.table q x hx
        refine ⟨h1, h2, fun heq => hq ?_, h3⟩
        rw [← h3, Option.some.inj heq]
    · simp only [Function.update_apply]
      have hres := h.resident x hx hxf
      rw [if_neg]
      · exact hres
      · intro heq
        rw [heq, h.resident f hlt hnfree] at hres
        exact hxg hres.symm
    · rw [hfree] at hx
      cases hx
    · have hx := h.evictable.2 x
      rw [hrepl, List.mem_append, List.mem_singleton] at hx
      simp only [ne_eq, Option.some.injEq]
      constructor
      · intro hr
        obtain ⟨h1, h2, h3⟩ := hx.mp (.inl hr)
        exact ⟨h1, h2, fun heq => hnodup.2 (heq ▸ hr), h3⟩
      · rintro ⟨h1, h2, h3, h4⟩
        exact (hx.mpr ⟨h1, h2, h4⟩).resolve_right h3

/-- Taking a frame makes no page resident. -/
theorem takeFrame_pageTable (ht : bm.takeFrame = some (bm', f)) {p : PageId}
    (hp : bm.pageTable p = none) : bm'.pageTable p = none := by
  rcases takeFrame_cases ht with ⟨fl, _, rfl⟩ | ⟨r, _, _, rfl⟩
  · exact hp
  · rw [(sameShape_evictPage _ f).pageTable]
    simp only [Function.update_apply]
    split
    · rfl
    · exact hp

end Ops

/-- Put a page that is not resident into a frame that was taken. -/
theorem ConsistentBut.install (h : ConsistentBut bm (some f)) (hlt : f < bm.poolSize)
    (hp : bm.pageTable p = none) (page : P) : Consistent (bm.install f p page) := by
  have hnfree : f ∉ bm.freeList := fun hf => (h.free.2 f hf).2 rfl
  have hnrepl : f ∉ bm.replacer := fun hr => ((h.evictable.2 f).mp hr).2.2.1 rfl
  have hrepl : (bm.install f p page).replacer = bm.replacer := by
    unfold BufferManager.install Replacer.setEvictable Replacer.recordAccess
    simp only [if_neg hnrepl, Bool.false_eq_true, if_false]
    exact List.erase_of_not_mem hnrepl
  have hframe : ∀ g, g ≠ f → (bm.install f p page).frames g = bm.frames g := fun g hg =>
    Function.update_of_ne hg _ _
  have hself : (bm.install f p page).frames f = ⟨p, page, 1, false⟩ := Function.update_self _ _ _
  have htable : ∀ q, (bm.install f p page).pageTable q = if q = p then some f else bm.pageTable q :=
    fun q => Function.update_apply _ _ _ _
  refine ⟨fun q g hg => ?_, fun g hg hgf => ?_, ⟨h.free.1, fun g hg => (h.free.2 g hg).1⟩, ?_⟩
  · rw [htable] at hg
    split at hg
    · rename_i hq
      obtain rfl := Option.some.inj hg
      rw [hself]
      exact ⟨hlt, hnfree, hq.symm⟩
    · obtain ⟨h1, h2, h3, h4⟩ := h.table q g hg
      rw [hframe g fun heq => h3 (by rw [heq])]
      exact ⟨h1, h2, h4⟩
  · by_cases hgf' : g = f
    · subst hgf'
      rw [hself, htable, if_pos rfl]
    · have hres := h.resident g hg hgf fun heq => hgf' (Option.some.inj heq)
      rw [hframe g hgf', htable, if_neg, hres]
      rintro rfl
      rw [hp] at hres
      cases hres
  · rw [hrepl]
    refine ⟨h.evictable.1, fun g => ?_⟩
    by_cases hgf : g = f
    · subst hgf
      rw [hself]
      simp [hnrepl]
    · rw [hframe g hgf, h.evictable.2 g]
      have hne : some g ≠ some f := fun heq => hgf (Option.some.inj heq)
      simp only [hne, ne_eq, not_false_eq_true, true_and]
      rfl

-- ---------------------------------------------------------------------------
-- The operations
-- ---------------------------------------------------------------------------

/-- Change the pin count of a frame in use, and its place in the replacer with it. -/
theorem Consistent.setPin (h : Consistent bm) (hlt : f < bm.poolSize) (hf : f ∉ bm.freeList)
    (fr : Frame P) (r : List Nat) (hid : fr.pageId = (bm.frames f).pageId) (hr : r.Nodup)
    (hother : ∀ g, g ≠ f → (g ∈ r ↔ g ∈ bm.replacer)) (hself : f ∈ r ↔ fr.pinCount = 0) :
    Consistent { bm.setFrame f fr with replacer := r } := by
  have hid' : ∀ g, ((bm.setFrame f fr).frames g).pageId = (bm.frames g).pageId := by
    intro g
    unfold setFrame
    simp only [Function.update_apply]
    split
    · rename_i hg
      rw [hg, hid]
    · rfl
  refine ⟨fun q g hg => ?_, fun g hg hgf => ?_, h.free, hr, fun g => ?_⟩
  · obtain ⟨h1, h2, h3⟩ := h.table q g hg
    exact ⟨h1, h2, (hid' g).trans h3⟩
  · simp only [hid']
    exact h.resident g hg hgf
  · by_cases hgf : g = f
    · subst hgf
      simp only [setFrame, Function.update_self, hself]
      exact ⟨fun h0 => ⟨hlt, hf, h0⟩, fun h0 => h0.2.2⟩
    · simp only [setFrame, Function.update_of_ne hgf, hother g hgf]
      exact h.evictable.2 g

theorem mem_erase_of_ne {l : List Nat} {g : Nat} (hg : g ≠ f) : g ∈ l.erase f ↔ g ∈ l :=
  List.mem_erase_of_ne hg

theorem setEvictable_of_notMem {l : List Nat} (hf : f ∉ l) :
    Replacer.setEvictable l f true = f :: l := by
  unfold Replacer.setEvictable
  rw [if_pos rfl, if_neg hf]

theorem Consistent.unpinPage (h : Consistent bm) (p : PageId) (d : Bool) :
    Consistent (bm.unpinPage p d).1 := by
  unfold BufferManager.unpinPage
  split
  · exact h
  · rename_i f hp
    obtain ⟨hlt, hf, _⟩ := h.table p f hp
    have hmem := h.evictable.2 f
    simp only
    split
    · exact h
    · rename_i hpin
      have hnot : f ∉ bm.replacer := fun hin => hpin (hmem.mp hin).2.2
      split
      · rename_i h0
        have hrepl := setEvictable_of_notMem hnot
        have hnodup : (Replacer.setEvictable bm.replacer f true).Nodup := by
          rw [hrepl]
          exact List.nodup_cons.mpr ⟨hnot, h.evictable.1⟩
        have hother : ∀ g, g ≠ f →
            (g ∈ Replacer.setEvictable bm.replacer f true ↔ g ∈ bm.replacer) := by
          intro g hg
          simp [hrepl, hg]
        refine h.setPin hlt hf _ _ rfl hnodup hother ⟨fun _ => h0, fun _ => ?_⟩
        have hself : f ∈ Replacer.setEvictable bm.replacer f true := by simp [hrepl]
        exact hself
      · rename_i h0
        refine h.setPin hlt hf _ _ rfl h.evictable.1 (fun g _ => Iff.rfl) ?_
        simp only [hnot, false_iff]
        exact h0

theorem Consistent.deletePage (h : Consistent bm) (p : PageId) :
    Consistent (bm.deletePage p).1 := by
  unfold BufferManager.deletePage
  split
  · exact h
  · rename_i f hp
    obtain ⟨hlt, hf, hid⟩ := h.table p f hp
    split
    · exact h
    · rename_i hpin
      have hframe : ∀ g, g ≠ f → (bm.setFrame f
          { bm.frames f with pageId := none, dirty := false, pinCount := 0 }).frames g
            = bm.frames g := fun g hg => Function.update_of_ne hg _ _
      refine ⟨fun q g hg => ?_, fun g hg hgf => ?_, ⟨?_, fun g hg => ?_⟩, h.evictable.1.erase f,
        fun g => ?_⟩
      · simp only [Function.update_apply] at hg
        split at hg
        · cases hg
        · rename_i hq
          obtain ⟨h1, h2, h3⟩ := h.table q g hg
          have hgf : g ≠ f := by
            rintro rfl
            exact hq (h3.symm.trans hid)
          simp only [hframe g hgf]
          refine ⟨h1, fun hin => ?_, h3⟩
          rcases List.mem_append.mp hin with hin | hin
          · exact h2 hin
          · exact hgf (List.mem_singleton.mp hin)
      · simp only [List.mem_append, List.mem_singleton, not_or] at hgf
        simp only [hframe g hgf.2, Function.update_apply]
        have hres := h.resident g hg hgf.1
        rw [if_neg]
        · exact hres
        · intro heq
          rw [heq, hp] at hres
          exact hgf.2 (Option.some.inj hres).symm
      · exact List.nodup_append.mpr ⟨h.free.1, List.nodup_singleton _, fun a ha b hb => by
          rw [List.mem_singleton.mp hb]
          rintro rfl
          exact hf ha⟩
      · rcases List.mem_append.mp hg with hg | hg
        · exact h.free.2 g hg
        · rw [List.mem_singleton.mp hg]
          exact hlt
      · unfold Replacer.remove
        by_cases hgf : g = f
        · subst hgf
          simp [h.evictable.1.not_mem_erase]
        · rw [mem_erase_of_ne hgf, h.evictable.2 g]
          simp [hgf, setFrame]

section Ops

variable [PageOps P]

theorem Consistent.fetchPage (h : Consistent bm) (p : PageId) : Consistent (bm.fetchPage p).1 := by
  unfold BufferManager.fetchPage
  cases hp : bm.pageTable p with
  | some f =>
    obtain ⟨hlt, hf, _⟩ := h.table p f hp
    have hnot : f ∉ bm.replacer.erase f := h.evictable.1.not_mem_erase
    have hrepl : Replacer.recordAccess (Replacer.setEvictable bm.replacer f false) f
        = bm.replacer.erase f := by
      simp [Replacer.recordAccess, Replacer.setEvictable, hnot]
    simp only [setFrame, hrepl]
    refine h.setPin hlt hf _ _ rfl (h.evictable.1.erase f) (fun g hg => mem_erase_of_ne hg) ?_
    simp [hnot]
  | none =>
    simp only
    split
    · exact h
    · rename_i bm' f ht
      obtain ⟨hbut, hlt⟩ := h.takeFrame ht
      exact hbut.install hlt (takeFrame_pageTable ht hp) _

theorem Consistent.flushPage (h : Consistent bm) (p : PageId) : Consistent (bm.flushPage p).1 := by
  unfold BufferManager.flushPage
  split
  · exact h
  · exact h.congr (sameShape_flushFrame bm _)

/-- `new_page` takes its id from the disk manager: that id is not resident, or
it is in the frame that `new_page` gives up for it, or there is no frame to take. -/
def NewPageSafe (bm : BufferManager P) : Prop :=
  (bm.freeList = [] ∧ bm.replacer = []) ∨
    ∀ f, bm.pageTable (pageIdOf bm.nextPageId) = some f →
      bm.freeList = [] ∧ bm.replacer.getLast? = some f

theorem getLast?_replacer_of_takeFrame (ht : bm.takeFrame = some (bm', f))
    (hfree : bm.freeList = []) : bm.replacer.getLast? = some f := by
  rcases takeFrame_cases ht with ⟨fl, hfree', _⟩ | ⟨r, _, hrepl, _⟩
  · rw [hfree] at hfree'
    cases hfree'
  · rw [hrepl]
    exact List.getLast?_concat ..

theorem takeFrame_pageId (ht : bm.takeFrame = some (bm', f)) (g : Nat) :
    (bm'.frames g).pageId = (bm.frames g).pageId := by
  rcases takeFrame_cases ht with ⟨fl, _, rfl⟩ | ⟨r, _, _, rfl⟩
  · rfl
  · exact (sameShape_evictPage _ f).pageId g

theorem takeFrame_poolSize (ht : bm.takeFrame = some (bm', f)) : bm'.poolSize = bm.poolSize := by
  rcases takeFrame_cases ht with ⟨fl, _, rfl⟩ | ⟨r, _, _, rfl⟩
  · rfl
  · exact (sameShape_evictPage _ f).poolSize

theorem takeFrame_freeList (ht : bm.takeFrame = some (bm', f)) : bm'.freeList = bm.freeList.tail := by
  rcases takeFrame_cases ht with ⟨fl, hfree, rfl⟩ | ⟨r, hfree, _, rfl⟩
  · rw [hfree]
    rfl
  · rw [(sameShape_evictPage _ f).freeList, hfree]
    rfl

theorem takeFrame_nextPageId (ht : bm.takeFrame = some (bm', f)) :
    bm'.nextPageId = bm.nextPageId := by
  rcases takeFrame_cases ht with ⟨fl, _, rfl⟩ | ⟨r, _, _, rfl⟩
  · rfl
  · exact (sameShape_evictPage _ f).nextPageId

theorem newPage_eq_of_takeFrame (ht : bm.takeFrame = some (bm', f)) :
    bm.newPage.1 = { bm' with nextPageId := (bm.nextPageId + 1) % 2 ^ 32 }.install f
      (pageIdOf bm.nextPageId) (init bm.nextPageId) := by
  unfold BufferManager.newPage
  rw [ht, ← takeFrame_nextPageId ht]

theorem newPage_of_takeFrame_none (ht : bm.takeFrame = none) : bm.newPage = (bm, none) := by
  unfold BufferManager.newPage
  rw [ht]

/-- `new_page` as long as there are ids. -/
theorem newPage_of_idsLeft (hids : bm.IdsLeft) (ht : bm.takeFrame = some (bm', f)) :
    bm.newPage = ({ bm' with nextPageId := bm.nextPageId + 1 }.install f
      (some bm.nextPageId) (init bm.nextPageId), some (some bm.nextPageId, f)) := by
  unfold BufferManager.newPage
  rw [ht, ← hids.pageIdOf, ← hids.next, ← takeFrame_nextPageId ht]

/-- `new_page` with a frame to take and an id that is not resident any more. -/
theorem Consistent.newPage_of_takeFrame (h : Consistent bm) (ht : bm.takeFrame = some (bm', f))
    (hnone : bm'.pageTable (pageIdOf bm.nextPageId) = none) : Consistent bm.newPage.1 := by
  obtain ⟨hbut, hlt⟩ := h.takeFrame ht
  have hbut' : ConsistentBut { bm' with nextPageId := (bm.nextPageId + 1) % 2 ^ 32 } (some f) :=
    ⟨hbut.table, hbut.resident, hbut.free, hbut.evictable⟩
  rw [newPage_eq_of_takeFrame ht]
  exact hbut'.install hlt hnone _

/-- **One `new_page` call.** From a consistent pool it leads to a consistent
pool exactly if its id is not resident elsewhere. -/
theorem consistent_newPage_iff (h : Consistent bm) :
    Consistent bm.newPage.1 ↔ NewPageSafe bm := by
  cases ht : bm.takeFrame with
  | none =>
    rw [newPage_of_takeFrame_none ht]
    exact ⟨fun _ => .inl (takeFrame_eq_none.mp ht), fun _ => h⟩
  | some r =>
    obtain ⟨bm', f⟩ := r
    have hsome : ¬(bm.freeList = [] ∧ bm.replacer = []) := by
      rw [← takeFrame_eq_none, ht]
      exact Option.some_ne_none _
    constructor
    · intro hnew
      right
      intro g hg
      obtain ⟨hlt, hgfree, hid⟩ := h.table _ g hg
      have hshape : bm.newPage.1.pageTable (pageIdOf bm.nextPageId) = some f ∧
          bm.newPage.1.poolSize = bm.poolSize ∧ bm.newPage.1.freeList = bm.freeList.tail ∧
          (g ≠ f → (bm.newPage.1.frames g).pageId = pageIdOf bm.nextPageId) := by
        have hsize := takeFrame_poolSize ht
        have hfl := takeFrame_freeList ht
        rw [newPage_eq_of_takeFrame ht]
        refine ⟨Function.update_self _ _ _, hsize, hfl, fun hne => ?_⟩
        simp only [BufferManager.install, setFrame, Function.update_of_ne hne]
        rw [takeFrame_pageId ht, hid]
      obtain ⟨htable, hsize, hfree', hframe⟩ := hshape
      -- otherwise the id is in the two frames `f` and `g`
      have hgf : g = f := by
        by_contra hne
        have hres := hnew.resident g (hsize ▸ hlt)
          (fun hin => hgfree (List.mem_of_mem_tail (hfree' ▸ hin)))
        rw [hframe hne, htable] at hres
        exact hne (Option.some.inj hres).symm
      subst hgf
      have hnil : bm.freeList = [] := by
        rcases takeFrame_cases ht with ⟨fl, hfl, _⟩ | ⟨r, hfl, _⟩
        · rw [hfl] at hgfree
          exact absurd List.mem_cons_self hgfree
        · exact hfl
      exact ⟨hnil, getLast?_replacer_of_takeFrame ht hnil⟩
    · rintro (hbad | hsafe)
      · exact absurd hbad hsome
      · refine h.newPage_of_takeFrame ht ?_
        cases hres : bm.pageTable (pageIdOf bm.nextPageId) with
        | none => exact takeFrame_pageTable ht hres
        | some g =>
          obtain ⟨hfree, hlast⟩ := hsafe g hres
          rw [getLast?_replacer_of_takeFrame ht hfree] at hlast
          obtain rfl := Option.some.inj hlast
          rcases takeFrame_cases ht with ⟨fl, hfree', _⟩ | ⟨r, _, _, rfl⟩
          · rw [hfree] at hfree'
            cases hfree'
          · rw [(sameShape_evictPage _ f).pageTable]
            simp only [(h.table _ f hres).2.2, Function.update_self]

-- ---------------------------------------------------------------------------
-- Runs
-- ---------------------------------------------------------------------------

/-- The frames of a new pool are all free. -/
theorem consistent_new (poolSize : Nat) (disk : PageId → P) (nextPageId : Nat)
    (log : Option LogManager) : Consistent (new poolSize disk nextPageId log) where
  table p f hp := by cases hp
  resident f hf hfree := absurd (List.mem_range.mpr hf) hfree
  free := ⟨List.nodup_range, fun f hf => List.mem_range.mp hf⟩
  evictable := by
    refine ⟨List.nodup_nil, fun f => ⟨fun hf => (List.not_mem_nil hf).elim, ?_⟩⟩
    rintro ⟨hf, hfree, _⟩
    exact absurd (List.mem_range.mpr hf) hfree

end Ops

/-- The calls of the pool that change its structures, with any page ids. -/
inductive Op
  | fetchPage (p : PageId)
  | newPage
  | unpinPage (p : PageId) (isDirty : Bool)
  | flushPage (p : PageId)
  | flushAllPages
  | deletePage (p : PageId)

section Ops

variable [PageOps P]

/-- Make a call, whatever it returns. -/
def apply (bm : BufferManager P) : Op → BufferManager P
  | .fetchPage p => (bm.fetchPage p).1
  | .newPage => bm.newPage.1
  | .unpinPage p d => (bm.unpinPage p d).1
  | .flushPage p => (bm.flushPage p).1
  | .flushAllPages => bm.flushAllPages
  | .deletePage p => (bm.deletePage p).1

/-- The states that a sequence of calls goes through, the first and the last included. -/
def states (bm : BufferManager P) : List Op → List (BufferManager P)
  | [] => [bm]
  | op :: ops => bm :: (bm.apply op).states ops

/-- Every `new_page` call of the sequence gets an id that is not resident elsewhere. -/
def NewPagesSafe (bm : BufferManager P) : List Op → Prop
  | [] => True
  | .newPage :: ops => NewPageSafe bm ∧ (bm.apply .newPage).NewPagesSafe ops
  | op :: ops => (bm.apply op).NewPagesSafe ops

/-- The calls that get their page id from the caller keep the invariant, for any id. -/
theorem Consistent.apply (h : Consistent bm) {op : Op} (hop : op ≠ .newPage) :
    Consistent (bm.apply op) := by
  cases op with
  | fetchPage p => exact h.fetchPage p
  | newPage => exact absurd rfl hop
  | unpinPage p d => exact h.unpinPage p d
  | flushPage p => exact h.flushPage p
  | flushAllPages => exact h.congr (sameShape_flushAllPages bm)
  | deletePage p => exact h.deletePage p

theorem newPagesSafe_cons {op : Op} {ops : List Op} : bm.NewPagesSafe (op :: ops) ↔
    (op = .newPage → NewPageSafe bm) ∧ (bm.apply op).NewPagesSafe ops := by
  cases op <;> simp [NewPagesSafe]

theorem Consistent.states_iff (h : Consistent bm) (ops : List Op) :
    (∀ s ∈ bm.states ops, Consistent s) ↔ bm.NewPagesSafe ops := by
  induction ops generalizing bm with
  | nil => simp [states, NewPagesSafe, h]
  | cons op ops ih =>
    rw [newPagesSafe_cons, states, List.forall_mem_cons]
    have hfirst : bm.apply op ∈ (bm.apply op).states ops := by
      cases ops <;> exact List.mem_cons_self
    constructor
    · rintro ⟨_, htail⟩
      have hstep : Consistent (bm.apply op) := htail _ hfirst
      refine ⟨?_, (ih hstep).mp htail⟩
      rintro rfl
      exact (consistent_newPage_iff h).mp hstep
    · rintro ⟨hsafe, htail⟩
      have hstep : Consistent (bm.apply op) := by
        by_cases hop : op = .newPage
        · subst hop
          exact (consistent_newPage_iff h).mpr (hsafe rfl)
        · exact h.apply hop
      exact ⟨h, (ih hstep).mpr htail⟩

/-- **Representation invariant.** From a new pool, a sequence of calls with any
page ids goes through consistent states only, exactly if each of its `new_page`
calls gets an id that is not resident, or is resident in the frame it evicts. -/
theorem consistent_states_iff_newPagesSafe (poolSize : Nat) (disk : PageId → P) (nextPageId : Nat)
    (log : Option LogManager) (ops : List Op) :
    (∀ s ∈ (new poolSize disk nextPageId log).states ops, Consistent s) ↔
      (new poolSize disk nextPageId log).NewPagesSafe ops :=
  (consistent_new poolSize disk nextPageId log).states_iff ops

end Ops

/-- On an empty file page 0 is fetched before it is allocated, and `new_page`
hands out the id 0 a second time. -/
theorem fetchPage_newPage_two_frames :
    ¬∀ s ∈ (new 2 (fun _ => (zero : SlotPage)) 0 none).states [.fetchPage (some 0), .newPage],
      Consistent s := by
  intro hall
  have hlast : Consistent
      (((new 2 (fun _ => (zero : SlotPage)) 0 none).apply (.fetchPage (some 0))).apply .newPage) :=
    hall _ (by simp [states])
  have h0 := hlast.resident 0 (by decide) (by decide)
  have h1 := hlast.resident 1 (by decide) (by decide)
  have hsame : some 0 = some 1 := h0.symm.trans h1
  exact absurd hsame (by decide)

end BufferManager

end PersistX.Pool
