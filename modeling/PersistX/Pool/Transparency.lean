import PersistX.Pool.Representation
import PersistX.Lib.Transition
import Mathlib.Data.List.Count

/-!
# PersistX — the buffer pool is transparent

What the pool is for: clients see pages as if they were all in memory. A
`Session` is a pool with the clients that hold pins, and `mem`, the bytes that
clients left in each page, which the pool does not have. Clients follow the
rules of `buffer_manager.hpp`: they use ids of allocated pages, write through
the `Page*` of a pin only, and pass `is_dirty = true` at the end of a pin during
which they wrote and at the first unpin of a page that `new_page` gave out. They
stay within the bounds of the counters: a new page needs an id that is left, and
a fetch a pin count that can go up.

Main result: `transparent_of_steps` — in every session the pool answers from
`mem`, keeps pinned pages where they are, refuses only when every frame is
pinned, and leaves `mem` in the file after `flush_all_pages` when no pin is
left.
-/

namespace PersistX.Pool

open PageOps Transition

variable {P : Type}

/-- A pin: the page, the frame whose address the client got, and whether it has written. -/
structure Pin where
  page : Nat
  frame : Nat
  wrote : Bool
  deriving DecidableEq

/-- A pool and its clients. -/
structure Session (P : Type) where
  bm : BufferManager P
  /-- The bytes last left in each page by any client. -/
  mem : Nat → P
  /-- The pins that clients hold. -/
  pins : List Pin
  /-- The pages from `new_page` that nobody has unpinned yet. -/
  fresh : List Nat

/-- What clients do. -/
inductive ClientEvent (P : Type)
  | fetchPage (n : Nat)
  | newPage
  /-- Write through a pin. -/
  | write (pin : Pin) (page : P)
  | unpinPage (pin : Pin) (isDirty : Bool)
  | flushPage (n : Nat)
  | flushAllPages

namespace Session

section Ops

variable [PageOps P]

/-- A session begins with a new pool on a file. -/
def start (poolSize : Nat) (disk : PageId → P) (nextPageId : Nat) (log : Option LogManager) :
    Session P :=
  ⟨.new poolSize disk nextPageId log, fun n => disk (some n), [], []⟩

/-- The effect of an event. A call that returns `nullptr` gives no pin. -/
def step (s : Session P) : ClientEvent P → Option (Session P)
  | .fetchPage n =>
    match s.bm.fetchPage (some n) with
    | (bm, none) => some { s with bm }
    | (bm, some f) => some { s with bm, pins := ⟨n, f, false⟩ :: s.pins }
  | .newPage =>
    match s.bm.newPage with
    | (bm, some (some n, f)) =>
      some ⟨bm, Function.update s.mem n (init n), ⟨n, f, false⟩ :: s.pins, n :: s.fresh⟩
    | (bm, _) => some { s with bm }
  | .write pin page =>
    some
      { s with
        bm := s.bm.setFrame pin.frame { s.bm.frames pin.frame with page := page }
        mem := Function.update s.mem pin.page page
        pins := { pin with wrote := true } :: s.pins.erase pin }
  | .unpinPage pin isDirty =>
    some
      { s with
        bm := (s.bm.unpinPage (some pin.page) isDirty).1
        pins := s.pins.erase pin
        fresh := s.fresh.filter (· ≠ pin.page) }
  | .flushPage n => some { s with bm := (s.bm.flushPage (some n)).1 }
  | .flushAllPages => some { s with bm := s.bm.flushAllPages }

end Ops

/-- The rules for clients, with the bounds of the page counter and of the pin counts. -/
def Allowed (s : Session P) : ClientEvent P → Prop
  | .fetchPage n => n < s.bm.nextPageId ∧ s.bm.PinsLeft (some n)
  | .newPage => s.bm.IdsLeft
  | .flushPage n => n < s.bm.nextPageId
  | .write pin _ => pin ∈ s.pins
  | .unpinPage pin isDirty =>
    pin ∈ s.pins ∧ (pin.wrote = true ∨ pin.page ∈ s.fresh → isDirty = true)
  | .flushAllPages => True

/-- What a client can rely on. -/
structure Transparent [PageOps P] (s : Session P) : Prop where
  /-- `fetch_page` gives the bytes last left in the page. -/
  fetch : ∀ n < s.bm.nextPageId, ∀ f, (s.bm.fetchPage (some n)).2 = some f →
    ((s.bm.fetchPage (some n)).1.frames f).page = s.mem n
  /-- The frame of a pinned page holds that page. -/
  pinned : ∀ pin ∈ s.pins, (s.bm.frames pin.frame).pageId = some pin.page ∧
    (s.bm.frames pin.frame).page = s.mem pin.page
  /-- A call returns `nullptr` only when every frame is pinned. -/
  null : (∃ n < s.bm.nextPageId, (s.bm.fetchPage (some n)).2 = none) ∨ s.bm.newPage.2 = none →
    ∀ f < s.bm.poolSize, ∃ pin ∈ s.pins, pin.frame = f
  /-- Without pins, a new pool on the file behind `flush_all_pages` sees the same bytes. -/
  durable : s.pins = [] → ∀ poolSize > 0, ∀ nextPageId log n,
    ∃ bm f, (BufferManager.new poolSize s.bm.flushAllPages.disk nextPageId log).fetchPage (some n)
      = (bm, some f) ∧ (bm.frames f).page = s.mem n

-- ---------------------------------------------------------------------------
-- The invariant
-- ---------------------------------------------------------------------------

/-- Somebody still has to write the page of frame `f`: its dirty bit is set, or
a client that will set it holds a pin. -/
def Pending (s : Session P) (n f : Nat) : Prop :=
  (s.bm.frames f).dirty = true ∨ n ∈ s.fresh ∨ ∃ pin ∈ s.pins, pin.page = n ∧ pin.wrote = true

/-- How the pool represents `mem`. -/
structure Inv (s : Session P) : Prop where
  consistent : s.bm.Consistent
  allocated : ∀ p f, s.bm.pageTable p = some f → ∃ n, n < s.bm.nextPageId ∧ p = some n
  pinned : ∀ pin ∈ s.pins, s.bm.pageTable (some pin.page) = some pin.frame
  pinCount : ∀ f, f < s.bm.poolSize → f ∉ s.bm.freeList →
    (s.bm.frames f).pinCount = s.pins.countP (·.frame == f)
  free : ∀ f ∈ s.bm.freeList, (s.bm.frames f).dirty = false
  fresh : ∀ n ∈ s.fresh, ∃ pin ∈ s.pins, pin.page = n
  resident : ∀ n f, s.bm.pageTable (some n) = some f → (s.bm.frames f).page = s.mem n
  clean : ∀ n, s.bm.disk (some n) = s.mem n ∨
    ∃ f, s.bm.pageTable (some n) = some f ∧ s.Pending n f

theorem inv_start [PageOps P] (poolSize : Nat) (disk : PageId → P) (nextPageId : Nat)
    (log : Option LogManager) : Inv (start poolSize disk nextPageId log) where
  consistent := BufferManager.consistent_new ..
  allocated p f hp := by cases hp
  pinned pin hpin := by cases hpin
  pinCount f _ _ := rfl
  free f _ := rfl
  fresh n hn := by cases hn
  resident n f hn := by cases hn
  clean n := .inl rfl

variable {s : Session P} {bm' : BufferManager P} {f : Nat}

/-- A page that is not resident is on disk as clients left it. -/
theorem Inv.disk (h : Inv s) {n : Nat} (hn : s.bm.pageTable (some n) = none) :
    s.bm.disk (some n) = s.mem n := by
  rcases h.clean n with hd | ⟨f, hf, _⟩
  · exact hd
  · rw [hn] at hf
    cases hf

/-- A frame that is not pinned has no pin. -/
theorem Inv.notPinned (h : Inv s) (hlt : f < s.bm.poolSize) (hfree : f ∉ s.bm.freeList)
    (hpin : (s.bm.frames f).pinCount = 0) : ∀ pin ∈ s.pins, pin.frame ≠ f := by
  intro pin hmem heq
  have hcount := h.pinCount f hlt hfree
  rw [hpin] at hcount
  have hnone := List.countP_eq_zero.mp hcount.symm pin hmem
  simp [heq] at hnone

/-- A frame that `flush_all_pages` writes is a resident one. -/
theorem Inv.resident_of_dirty (h : Inv s) (hlt : f < s.bm.poolSize)
    (hid : (s.bm.frames f).pageId ≠ none) (hdirty : (s.bm.frames f).dirty = true) :
    ∃ n, s.bm.pageTable (some n) = some f := by
  have hnfree : f ∉ s.bm.freeList := by
    intro hf
    rw [h.free f hf] at hdirty
    cases hdirty
  have hres := h.consistent.resident f hlt hnfree
  obtain ⟨n, hn⟩ := Option.ne_none_iff_exists'.mp hid
  exact ⟨n, hn ▸ hres⟩

/-- Without pins on its frame, a page is on disk as clients left it, or dirty. -/
theorem Inv.disk_or_dirty (h : Inv s) {n : Nat} (hn : s.bm.pageTable (some n) = some f)
    (hpins : ∀ pin ∈ s.pins, pin.frame ≠ f) :
    s.bm.disk (some n) = s.mem n ∨ (s.bm.frames f).dirty = true := by
  have hnone : ∀ pin ∈ s.pins, pin.page ≠ n := by
    rintro pin hpin rfl
    have hframe := h.pinned pin hpin
    rw [hn] at hframe
    exact hpins pin hpin (Option.some.inj hframe).symm
  rcases h.clean n with hd | ⟨g, hg, hdirty | hfresh | ⟨pin, hpin, hpage, _⟩⟩
  · exact .inl hd
  · obtain rfl := Option.some.inj (hn.symm.trans hg)
    exact .inr hdirty
  · obtain ⟨pin, hpin, hpage⟩ := h.fresh n hfresh
    exact absurd hpage (hnone pin hpin)
  · exact absurd hpage (hnone pin hpin)

/-- The id that the disk manager hands out is not resident. -/
theorem Inv.pageTable_nextPageId (h : Inv s) :
    s.bm.pageTable (some s.bm.nextPageId) = none := by
  by_contra hne
  obtain ⟨g, hg⟩ := Option.ne_none_iff_exists'.mp hne
  obtain ⟨m, hm, heq⟩ := h.allocated _ g hg
  have := Option.some.inj heq
  omega

section Ops

variable [PageOps P]

-- ---------------------------------------------------------------------------
-- Flushing
-- ---------------------------------------------------------------------------

/-- Writing a resident page. -/
theorem Inv.flushFrame (h : Inv s) {n : Nat} (hn : s.bm.pageTable (some n) = some f) :
    Inv { s with bm := s.bm.flushFrame f } := by
  have hshape := BufferManager.sameShape_flushFrame s.bm f
  obtain ⟨hlt, hnfree, hid⟩ := h.consistent.table _ f hn
  have hframes : (s.bm.flushFrame f).frames
      = Function.update s.bm.frames f { s.bm.frames f with dirty := false } := rfl
  have hdisk : (s.bm.flushFrame f).disk
      = Function.update s.bm.disk (s.bm.frames f).pageId (s.bm.frames f).page := rfl
  have hother : ∀ g, g ≠ f → (s.bm.flushFrame f).frames g = s.bm.frames g := by
    intro g hg
    rw [hframes, Function.update_of_ne hg]
  have hpage : ∀ g, ((s.bm.flushFrame f).frames g).page = (s.bm.frames g).page := by
    intro g
    by_cases hg : g = f
    · rw [hg, hframes, Function.update_self]
    · rw [hother g hg]
  constructor
  · exact h.consistent.congr hshape
  · exact h.allocated
  · exact h.pinned
  · intro g hg hgf
    rw [hshape.pinCount]
    exact h.pinCount g hg hgf
  · intro g hg
    rw [hother g (fun heq => hnfree (heq ▸ hg))]
    exact h.free g hg
  · exact h.fresh
  · intro m g hm
    rw [hpage]
    exact h.resident m g hm
  · intro m
    by_cases hm : m = n
    · subst hm
      left
      rw [hdisk, hid, Function.update_self]
      exact h.resident m f hn
    · have hne : some m ≠ (s.bm.frames f).pageId := by
        rw [hid]
        exact fun heq => hm (Option.some.inj heq)
      rw [hdisk, Function.update_of_ne hne]
      rcases h.clean m with hd | ⟨g, hg, hpend⟩
      · exact .inl hd
      · refine .inr ⟨g, hg, ?_⟩
        have hgf : g ≠ f := by
          rintro rfl
          exact hne ((h.consistent.table _ g hg).2.2).symm
        unfold Pending
        rw [hother g hgf]
        exact hpend

theorem Inv.flushPage (h : Inv s) (n : Nat) :
    Inv { s with bm := (s.bm.flushPage (some n)).1 } := by
  unfold BufferManager.flushPage
  split
  · exact h
  · rename_i f hf
    exact h.flushFrame hf

/-- The loop of `flush_all_pages`: what it has passed is clean. -/
theorem Inv.flushAllPages_loop (l : List Nat) (h : Inv s) (hl : ∀ f ∈ l, f < s.bm.poolSize) :
    let bm := l.foldl
      (fun bm f =>
        if (bm.frames f).pageId ≠ none ∧ (bm.frames f).dirty = true then bm.flushFrame f else bm)
      s.bm
    Inv { s with bm := bm } ∧ ∀ f, (bm.frames f).pageId ≠ none ∧ (bm.frames f).dirty = true →
      f ∉ l ∧ (s.bm.frames f).pageId ≠ none ∧ (s.bm.frames f).dirty = true := by
  induction l generalizing s with
  | nil => exact ⟨h, fun f hd => ⟨List.not_mem_nil, hd⟩⟩
  | cons g l ih =>
    have hg := hl g List.mem_cons_self
    have hl' := fun f hf => hl f (List.mem_cons_of_mem _ hf)
    rw [List.foldl_cons]
    split
    · rename_i hc
      obtain ⟨n, hn⟩ := h.resident_of_dirty hg hc.1 hc.2
      obtain ⟨hinv, hclean⟩ := ih (h.flushFrame hn) hl'
      refine ⟨hinv, fun f hd => ?_⟩
      obtain ⟨hnot, hd'⟩ := hclean f hd
      have hframes : (s.bm.flushFrame g).frames
          = Function.update s.bm.frames g { s.bm.frames g with dirty := false } := rfl
      rw [hframes, Function.update_apply] at hd'
      split at hd'
      · exact absurd hd'.2 Bool.false_ne_true
      · rename_i hfg
        exact ⟨List.not_mem_cons_of_ne_of_not_mem hfg hnot, hd'⟩
    · rename_i hc
      obtain ⟨hinv, hclean⟩ := ih h hl'
      refine ⟨hinv, fun f hd => ?_⟩
      obtain ⟨hnot, hd'⟩ := hclean f hd
      have hfg : f ≠ g := by
        rintro rfl
        exact hc hd'
      exact ⟨List.not_mem_cons_of_ne_of_not_mem hfg hnot, hd'⟩

theorem Inv.flushAllPages (h : Inv s) : Inv { s with bm := s.bm.flushAllPages } :=
  (h.flushAllPages_loop (List.range s.bm.poolSize) fun _ hf => List.mem_range.mp hf).1

/-- After `flush_all_pages` with no pins left, every page is on disk as clients left it. -/
theorem Inv.disk_flushAllPages (h : Inv s) (hpins : s.pins = []) (n : Nat) :
    s.bm.flushAllPages.disk (some n) = s.mem n := by
  obtain ⟨hinv, hclean⟩ := h.flushAllPages_loop (List.range s.bm.poolSize)
    fun _ hf => List.mem_range.mp hf
  rcases hinv.clean n with hd | ⟨f, hf, hdirty | hfresh | ⟨pin, hpin, _⟩⟩
  · exact hd
  · obtain ⟨hlt, _, hid⟩ := hinv.consistent.table _ f hf
    have hsize := (BufferManager.sameShape_flushAllPages s.bm).poolSize
    have hnone : (s.bm.flushAllPages.frames f).pageId ≠ none := by
      intro hnil
      exact absurd (hid.symm.trans hnil) (Option.some_ne_none n)
    have hnot := (hclean f ⟨hnone, hdirty⟩).1
    exact absurd (List.mem_range.mpr (hsize ▸ hlt)) hnot
  · obtain ⟨pin, hpin, _⟩ := hinv.fresh n hfresh
    rw [show ({ s with bm := _ } : Session P).pins = [] from hpins] at hpin
    cases hpin
  · rw [show ({ s with bm := _ } : Session P).pins = [] from hpins] at hpin
    cases hpin

-- ---------------------------------------------------------------------------
-- Taking a frame and putting a page into it
-- ---------------------------------------------------------------------------

/-- What taking a frame does to pages: the page in it, if there is one, leaves
the table, and reaches the disk if it is dirty. -/
theorem takeFrame_spec (h : Inv s) (ht : s.bm.takeFrame = some (bm', f)) :
    (∀ g, g ≠ f → bm'.frames g = s.bm.frames g) ∧
    (∀ q g, bm'.pageTable q = some g → s.bm.pageTable q = some g) ∧
    (∀ n, bm'.pageTable (some n) = none → bm'.disk (some n) = s.mem n) ∧
    (∀ n g, bm'.pageTable (some n) = some g → bm'.disk (some n) = s.bm.disk (some n)) ∧
    ∀ pin ∈ s.pins, pin.frame ≠ f := by
  rcases BufferManager.takeFrame_cases ht with ⟨fl, hfree, rfl⟩ | ⟨r, hfree, hrepl, rfl⟩
  · refine ⟨fun _ _ => rfl, fun _ _ hq => hq, fun n hn => h.disk hn, fun _ _ _ => rfl, ?_⟩
    intro pin hpin heq
    have hnot := (h.consistent.table _ _ (h.pinned pin hpin)).2.1
    rw [heq, hfree] at hnot
    exact hnot List.mem_cons_self
  · have hmem : f ∈ s.bm.replacer := by
      rw [hrepl]
      exact List.mem_append_right r (List.mem_singleton.mpr rfl)
    obtain ⟨hlt, hnfree, hpin⟩ := (h.consistent.evictable.2 f).mp hmem
    have hpins := h.notPinned hlt hnfree hpin
    have hres := h.consistent.resident f hlt hnfree
    obtain ⟨m, _, hm⟩ := h.allocated _ f hres
    rw [hm] at hres
    have hpage := h.resident m f hres
    have hshape := BufferManager.sameShape_evictPage { s.bm with replacer := r } f
    have htable : ({ s.bm with replacer := r }.evictPage f).pageTable
        = Function.update s.bm.pageTable (some m) none := hshape.pageTable.trans (by rw [hm])
    have hframes : ∀ g, g ≠ f →
        ({ s.bm with replacer := r }.evictPage f).frames g = s.bm.frames g := by
      intro g hg
      unfold BufferManager.evictPage
      split
      · exact Function.update_of_ne hg _ _
      · rfl
    -- the page of the frame reaches the disk, the others stay as they are there
    have hdisk : ({ s.bm with replacer := r }.evictPage f).disk (some m) = s.mem m ∧
        ∀ n, n ≠ m → ({ s.bm with replacer := r }.evictPage f).disk (some n)
          = s.bm.disk (some n) := by
      unfold BufferManager.evictPage
      split
      · have hupd : ({ s.bm with replacer := r }.flushFrame f).disk
            = Function.update s.bm.disk (s.bm.frames f).pageId (s.bm.frames f).page := rfl
        simp only [hupd, hm]
        refine ⟨(Function.update_self _ _ _).trans hpage, fun n hn => ?_⟩
        exact Function.update_of_ne (fun heq => hn (Option.some.inj heq)) _ _
      · rename_i hdirty
        exact ⟨(h.disk_or_dirty hres hpins).resolve_right hdirty, fun n _ => rfl⟩
    refine ⟨hframes, fun q g hq => ?_, fun n hn => ?_, fun n g hn => ?_, hpins⟩
    · rw [htable, Function.update_apply] at hq
      split at hq
      · cases hq
      · exact hq
    · by_cases hnm : n = m
      · rw [hnm]
        exact hdisk.1
      · rw [htable, Function.update_of_ne (fun heq => hnm (Option.some.inj heq))] at hn
        rw [hdisk.2 n hnm]
        exact h.disk hn
    · have hnm : n ≠ m := by
        rintro rfl
        rw [htable, Function.update_self] at hn
        cases hn
      exact hdisk.2 n hnm

/-- Put page `n` with the bytes that clients are to see into the frame that was taken. -/
theorem Inv.install (h : Inv s) (ht : s.bm.takeFrame = some (bm', f)) {n k : Nat}
    (hn : bm'.pageTable (some n) = none) (hnk : n < k) (hk : s.bm.nextPageId ≤ k) {x : P}
    {mem : Nat → P} (hx : mem n = x) (hmem : ∀ m, m ≠ n → mem m = s.mem m) {fresh : List Nat}
    (hsub : ∀ m ∈ s.fresh, m ∈ fresh) (hfresh : ∀ m ∈ fresh, m = n ∨ m ∈ s.fresh)
    (hclean : bm'.disk (some n) = x ∨ n ∈ fresh) :
    Inv ⟨{ bm' with nextPageId := k }.install f (some n) x, mem, ⟨n, f, false⟩ :: s.pins,
      fresh⟩ := by
  obtain ⟨hbut, hlt⟩ := h.consistent.takeFrame ht
  obtain ⟨hframes, htable, hdisk, hsame, hpins⟩ := takeFrame_spec h ht
  have hbut' : BufferManager.ConsistentBut { bm' with nextPageId := k } (some f) :=
    ⟨hbut.table, hbut.resident, hbut.free, hbut.evictable⟩
  have hself : ({ bm' with nextPageId := k }.install f (some n) x).frames f
      = ⟨some n, x, 1, false⟩ := Function.update_self _ _ _
  have hother : ∀ g, g ≠ f →
      ({ bm' with nextPageId := k }.install f (some n) x).frames g = s.bm.frames g := by
    intro g hg
    rw [← hframes g hg]
    exact Function.update_of_ne hg _ _
  have htable' : ∀ q, ({ bm' with nextPageId := k }.install f (some n) x).pageTable q
      = if q = some n then some f else bm'.pageTable q := fun q => Function.update_apply _ _ _ _
  have hfreeList := BufferManager.takeFrame_freeList ht
  have hne : ∀ m g, m ≠ n → bm'.pageTable (some m) = some g → g ≠ f := by
    rintro m g _ hg rfl
    exact (hbut.table _ g hg).2.2.1 rfl
  -- a pinned page is not the one that was given up
  have hpinned : ∀ pin ∈ s.pins, bm'.pageTable (some pin.page) = some pin.frame := by
    intro pin hpin
    have hres := h.pinned pin hpin
    obtain ⟨hltp, hfreep, hidp⟩ := h.consistent.table _ _ hres
    have hframe := hpins pin hpin
    have hres' := hbut.resident pin.frame (BufferManager.takeFrame_poolSize ht ▸ hltp)
      (fun hin => hfreep (List.mem_of_mem_tail (hfreeList ▸ hin)))
      (fun heq => hframe (Option.some.inj heq))
    rw [hframes _ hframe, hidp] at hres'
    exact hres'
  constructor
  · exact hbut'.install hlt hn x
  · intro q g hq
    rw [htable'] at hq
    split at hq
    · rename_i heq
      exact ⟨n, hnk, heq⟩
    · obtain ⟨m, hm, hqm⟩ := h.allocated q g (htable q g hq)
      exact ⟨m, Nat.lt_of_lt_of_le hm hk, hqm⟩
  · intro pin hpin
    rw [htable']
    rcases List.mem_cons.mp hpin with rfl | hpin
    · exact if_pos rfl
    · have hres := hpinned pin hpin
      rw [if_neg, hres]
      intro heq
      rw [heq, hn] at hres
      cases hres
  · intro g hg hgf
    by_cases hgf' : g = f
    · subst hgf'
      have hzero : s.pins.countP (·.frame == g) = 0 := by
        rw [List.countP_eq_zero]
        intro pin hpin
        simpa using hpins pin hpin
      rw [hself, List.countP_cons, hzero]
      simp
    · rw [hother g hgf', List.countP_cons]
      have hgfree : g ∉ s.bm.freeList := by
        intro hin
        rcases BufferManager.takeFrame_cases ht with ⟨fl, hfl, hbm⟩ | ⟨r, hfl, _⟩
        · rw [hfl] at hin
          rcases List.mem_cons.mp hin with rfl | hin
          · exact hgf' rfl
          · refine hgf ?_
            have hfl' : bm'.freeList = fl := by rw [hbm]
            exact hfl'.symm ▸ hin
        · rw [hfl] at hin
          cases hin
      rw [h.pinCount g (BufferManager.takeFrame_poolSize ht ▸ hg) hgfree]
      simp [Ne.symm hgf']
  · intro g hg
    have hgf : g ≠ f := fun heq => (hbut.free.2 g hg).2 (by rw [heq])
    rw [hother g hgf]
    exact h.free g (List.mem_of_mem_tail (hfreeList ▸ hg))
  · intro m hm
    rcases hfresh m hm with rfl | hm
    · exact ⟨_, List.mem_cons_self, rfl⟩
    · obtain ⟨pin, hpin, hpage⟩ := h.fresh m hm
      exact ⟨pin, List.mem_cons_of_mem _ hpin, hpage⟩
  · intro m g hm
    rw [htable'] at hm
    split at hm
    · rename_i heq
      obtain rfl := Option.some.inj heq
      obtain rfl := Option.some.inj hm
      rw [hself]
      exact hx.symm
    · rename_i heq
      have hmn : m ≠ n := fun h' => heq (by rw [h'])
      rw [hother g (hne m g hmn hm)]
      exact (h.resident m g (htable _ g hm)).trans (hmem m hmn).symm
  · intro m
    show bm'.disk (some m) = mem m ∨ _
    by_cases hmn : m = n
    · subst hmn
      rw [hx]
      rcases hclean with hd | hf
      · exact .inl hd
      · refine .inr ⟨f, ?_, .inr (.inl hf)⟩
        rw [htable', if_pos rfl]
    · rw [hmem m hmn]
      have hmn' : some m ≠ some n := fun heq => hmn (Option.some.inj heq)
      cases hm : bm'.pageTable (some m) with
      | none => exact .inl (hdisk m hm)
      | some g =>
        have hgf := hne m g hmn hm
        rcases h.clean m with hd | ⟨g', hg', hpend⟩
        · exact .inl ((hsame m g hm).trans hd)
        · obtain rfl := Option.some.inj ((htable _ g hm).symm.trans hg')
          refine .inr ⟨g, ?_, ?_⟩
          · rw [htable', if_neg hmn', hm]
          · rcases hpend with hdirty | hfr | ⟨pin, hpin, hpage⟩
            · left
              simp only [hother g hgf]
              exact hdirty
            · exact .inr (.inl (hsub m hfr))
            · exact .inr (.inr ⟨pin, List.mem_cons_of_mem _ hpin, hpage⟩)

/-- Fetching a page that is not resident. -/
theorem Inv.fetchPage_miss (h : Inv s) {n : Nat} (hn : n < s.bm.nextPageId)
    (hmiss : s.bm.pageTable (some n) = none) (ht : s.bm.takeFrame = some (bm', f)) :
    Inv { s with
      bm := bm'.install f (some n) (bm'.disk (some n)), pins := ⟨n, f, false⟩ :: s.pins } := by
  have hmiss' := BufferManager.takeFrame_pageTable ht hmiss
  have hdisk := (takeFrame_spec h ht).2.2.1 n hmiss'
  have hnext := BufferManager.takeFrame_nextPageId ht
  exact h.install ht hmiss' (hnext ▸ hn) (Nat.le_of_eq hnext.symm) hdisk.symm (fun _ _ => rfl)
    (fun _ hm => hm) (fun _ hm => .inr hm) (.inl rfl)

theorem Inv.newPage (h : Inv s) (hids : s.bm.IdsLeft) (ht : s.bm.takeFrame = some (bm', f)) :
    Inv ⟨s.bm.newPage.1, Function.update s.mem s.bm.nextPageId (init s.bm.nextPageId),
      ⟨s.bm.nextPageId, f, false⟩ :: s.pins, s.bm.nextPageId :: s.fresh⟩ := by
  rw [BufferManager.newPage_of_idsLeft hids ht]
  refine h.install ht (BufferManager.takeFrame_pageTable ht h.pageTable_nextPageId)
    (Nat.lt_succ_self _) (Nat.le_succ _) (Function.update_self _ _ _)
    (fun m hm => Function.update_of_ne hm _ _) (fun m hm => List.mem_cons_of_mem _ hm)
    (fun m hm => List.mem_cons.mp hm) (.inr List.mem_cons_self)

end Ops

-- ---------------------------------------------------------------------------
-- Pinning a resident page, writing to it, and giving the pin back
-- ---------------------------------------------------------------------------

/-- A call that changes only the frame of one resident page, and the pins on it. -/
structure OnlyPage (s s' : Session P) (n f : Nat) : Prop where
  poolSize : s'.bm.poolSize = s.bm.poolSize
  pageTable : s'.bm.pageTable = s.bm.pageTable
  freeList : s'.bm.freeList = s.bm.freeList
  disk : s'.bm.disk = s.bm.disk
  nextPageId : s'.bm.nextPageId = s.bm.nextPageId
  frames : ∀ g, g ≠ f → s'.bm.frames g = s.bm.frames g
  mem : ∀ m, m ≠ n → s'.mem m = s.mem m
  pins : ∀ pin, pin.page ≠ n → (pin ∈ s'.pins ↔ pin ∈ s.pins)
  count : ∀ g, g ≠ f → s'.pins.countP (·.frame == g) = s.pins.countP (·.frame == g)
  fresh : ∀ m, m ≠ n → (m ∈ s'.fresh ↔ m ∈ s.fresh)

/-- What is left to show for such a call: the invariant for the one page. -/
theorem Inv.onlyPage {s' : Session P} {n : Nat} (h : Inv s)
    (hn : s.bm.pageTable (some n) = some f) (hs : OnlyPage s s' n f) (hc : s'.bm.Consistent)
    (hpage : (s'.bm.frames f).page = s'.mem n)
    (hframe : ∀ pin ∈ s'.pins, pin.page = n → pin.frame = f)
    (hcount : (s'.bm.frames f).pinCount = s'.pins.countP (·.frame == f))
    (hfresh : n ∈ s'.fresh → ∃ pin ∈ s'.pins, pin.page = n)
    (hclean : s'.bm.disk (some n) = s'.mem n ∨ s'.Pending n f) : Inv s' := by
  have hne : ∀ m g, m ≠ n → s.bm.pageTable (some m) = some g → g ≠ f := by
    rintro m g hmn hm rfl
    have heq := (h.consistent.table _ g hm).2.2.symm.trans (h.consistent.table _ g hn).2.2
    exact hmn (Option.some.inj heq)
  refine ⟨hc, fun q g hq => ?_, fun pin hpin => ?_, fun g hg hgf => ?_, fun g hg => ?_,
    fun m hm => ?_, fun m g hm => ?_, fun m => ?_⟩
  · rw [hs.nextPageId]
    rw [hs.pageTable] at hq
    exact h.allocated q g hq
  · rw [hs.pageTable]
    by_cases hp : pin.page = n
    · rw [hframe pin hpin hp, hp]
      exact hn
    · exact h.pinned pin ((hs.pins pin hp).mp hpin)
  · by_cases hgf' : g = f
    · rw [hgf']
      exact hcount
    · rw [hs.poolSize] at hg
      rw [hs.freeList] at hgf
      rw [hs.frames g hgf', hs.count g hgf']
      exact h.pinCount g hg hgf
  · rw [hs.freeList] at hg
    have hgf : g ≠ f := by
      rintro rfl
      exact (h.consistent.table _ g hn).2.1 hg
    rw [hs.frames g hgf]
    exact h.free g hg
  · by_cases hmn : m = n
    · rw [hmn] at hm ⊢
      exact hfresh hm
    · obtain ⟨pin, hpin, hp⟩ := h.fresh m ((hs.fresh m hmn).mp hm)
      exact ⟨pin, (hs.pins pin (by rw [hp]; exact hmn)).mpr hpin, hp⟩
  · rw [hs.pageTable] at hm
    by_cases hmn : m = n
    · subst hmn
      obtain rfl := Option.some.inj (hn.symm.trans hm)
      exact hpage
    · rw [hs.frames g (hne m g hmn hm), hs.mem m hmn]
      exact h.resident m g hm
  · by_cases hmn : m = n
    · subst hmn
      rcases hclean with hd | hpend
      · exact .inl hd
      · refine .inr ⟨f, ?_, hpend⟩
        rw [hs.pageTable]
        exact hn
    · rw [hs.disk, hs.mem m hmn, hs.pageTable]
      rcases h.clean m with hd | ⟨g, hg, hpend⟩
      · exact .inl hd
      · refine .inr ⟨g, hg, ?_⟩
        rcases hpend with hdirty | hfr | ⟨pin, hpin, hp, hwrote⟩
        · left
          rw [hs.frames g (hne m g hmn hg)]
          exact hdirty
        · exact .inr (.inl ((hs.fresh m hmn).mpr hfr))
        · exact .inr (.inr ⟨pin, (hs.pins pin (by rw [hp]; exact hmn)).mpr hpin, hp, hwrote⟩)

/-- The frame of a pin, and how often it is pinned. -/
theorem Inv.pin (h : Inv s) {pin : Pin} (hpin : pin ∈ s.pins) :
    s.bm.pageTable (some pin.page) = some pin.frame ∧
      (s.bm.frames pin.frame).pinCount = (s.pins.erase pin).countP (·.frame == pin.frame) + 1 ∧
      ∀ g, g ≠ pin.frame →
        (s.pins.erase pin).countP (·.frame == g) = s.pins.countP (·.frame == g) := by
  have hres := h.pinned pin hpin
  obtain ⟨hlt, hnfree, _⟩ := h.consistent.table _ _ hres
  have hcount : ∀ g, s.pins.countP (·.frame == g)
      = (s.pins.erase pin).countP (·.frame == g) + if pin.frame == g then 1 else 0 := by
    intro g
    rw [(List.perm_cons_erase hpin).countP_eq, List.countP_cons]
  refine ⟨hres, ?_, fun g hg => ?_⟩
  · rw [h.pinCount _ hlt hnfree, hcount, beq_self_eq_true, if_pos rfl]
  · rw [hcount g, if_neg (by simpa using Ne.symm hg)]
    rfl

/-- Pins on other pages stay when a pin is given back. -/
theorem mem_erase_pin {pin pin' : Pin} {pins : List Pin} (hne : pin'.page ≠ pin.page) :
    pin' ∈ pins.erase pin ↔ pin' ∈ pins :=
  List.mem_erase_of_ne fun heq => hne (by rw [heq])

/-- The frame of a pin on a page is the page's. -/
theorem Inv.frame_eq (h : Inv s) {n : Nat} (hn : s.bm.pageTable (some n) = some f) :
    ∀ pin ∈ s.pins, pin.page = n → pin.frame = f := by
  rintro pin hpin rfl
  exact Option.some.inj ((h.pinned pin hpin).symm.trans hn)

theorem Inv.write (h : Inv s) {pin : Pin} (hpin : pin ∈ s.pins) (page : P) :
    Inv { s with
      bm := s.bm.setFrame pin.frame { s.bm.frames pin.frame with page := page }
      mem := Function.update s.mem pin.page page
      pins := { pin with wrote := true } :: s.pins.erase pin } := by
  obtain ⟨hres, hself, hcount⟩ := h.pin hpin
  have hshape : BufferManager.SameShape s.bm
      (s.bm.setFrame pin.frame { s.bm.frames pin.frame with page := page }) :=
    BufferManager.sameShape_setFrame rfl rfl
  refine h.onlyPage hres ⟨rfl, rfl, rfl, rfl, rfl, fun g hg => Function.update_of_ne hg _ _,
    fun m hm => Function.update_of_ne hm _ _, fun pin' hp => ?_, fun g hg => ?_, fun m _ => Iff.rfl⟩
    (h.consistent.congr hshape) ?_ (fun pin' hpin' hp => ?_) ?_ (fun _ => ?_) (.inr ?_)
  · rw [List.mem_cons, mem_erase_pin hp]
    refine or_iff_right ?_
    rintro rfl
    exact hp rfl
  · rw [List.countP_cons, hcount g hg, if_neg (by simpa using Ne.symm hg)]
    rfl
  · simp only [BufferManager.setFrame, Function.update_self]
  · rcases List.mem_cons.mp hpin' with rfl | hpin'
    · rfl
    · exact h.frame_eq hres pin' (List.mem_of_mem_erase hpin') hp
  · rw [hshape.pinCount, hself, List.countP_cons, if_pos (beq_self_eq_true _)]
  · exact ⟨_, List.mem_cons_self, rfl⟩
  · exact .inr (.inr ⟨_, List.mem_cons_self, rfl, rfl⟩)

/-- `unpin_page` on a pinned frame: one pin less, and the dirty bit sticks. -/
theorem unpinPage_eq {bm : BufferManager P} {p : PageId} (hp : bm.pageTable p = some f)
    (hpin : (bm.frames f).pinCount ≠ 0) (d : Bool) :
    ∃ r, (bm.unpinPage p d).1 = { bm.setFrame f { bm.frames f with
      pinCount := (bm.frames f).pinCount - 1, dirty := (bm.frames f).dirty || d } with
      replacer := r } := by
  unfold BufferManager.unpinPage
  rw [hp]
  simp only [if_neg hpin]
  split
  · exact ⟨_, rfl⟩
  · exact ⟨bm.replacer, rfl⟩

theorem Inv.unpinPage (h : Inv s) {pin : Pin} (hpin : pin ∈ s.pins) {d : Bool}
    (hd : pin.wrote = true ∨ pin.page ∈ s.fresh → d = true) :
    Inv { s with
      bm := (s.bm.unpinPage (some pin.page) d).1
      pins := s.pins.erase pin
      fresh := s.fresh.filter (· ≠ pin.page) } := by
  obtain ⟨hres, hself, hcount⟩ := h.pin hpin
  have hc := h.consistent.unpinPage (some pin.page) d
  obtain ⟨r, hr⟩ := unpinPage_eq hres (by omega) d
  rw [hr] at hc ⊢
  have hframe : (s.bm.setFrame pin.frame { s.bm.frames pin.frame with
      pinCount := (s.bm.frames pin.frame).pinCount - 1
      dirty := (s.bm.frames pin.frame).dirty || d }).frames pin.frame
        = { s.bm.frames pin.frame with
            pinCount := (s.bm.frames pin.frame).pinCount - 1
            dirty := (s.bm.frames pin.frame).dirty || d } := Function.update_self _ _ _
  refine h.onlyPage hres ⟨rfl, rfl, rfl, rfl, rfl, fun g hg => Function.update_of_ne hg _ _,
    fun m _ => rfl, fun pin' hp => mem_erase_pin hp, hcount, fun m hm => ?_⟩ hc ?_
    (fun pin' hpin' hp => h.frame_eq hres pin' (List.mem_of_mem_erase hpin') hp) ?_ (fun hf => ?_) ?_
  · simp [hm]
  · simp only [hframe]
    exact h.resident _ _ hres
  · simp only [hframe]
    omega
  · simp at hf
  · -- what was pending before is pending now, or in the dirty bit
    rcases h.clean pin.page with hdisk | ⟨g, hg, hpend⟩
    · exact .inl hdisk
    · obtain rfl := Option.some.inj (hres.symm.trans hg)
      right
      by_cases hdt : d = true
      · left
        simp only [hframe]
        simp [hdt]
      · rcases hpend with hdirty | hfr | ⟨pin', hpin', hp, hwrote⟩
        · left
          simp only [hframe]
          simp [hdirty]
        · exact absurd (hd (.inr hfr)) hdt
        · refine .inr (.inr ⟨pin', (List.mem_erase_of_ne ?_).mpr hpin', hp, hwrote⟩)
          rintro rfl
          exact hdt (hd (.inl hwrote))

section Ops

variable [PageOps P]

/-- `fetch_page` on a resident page: one pin more. -/
theorem fetchPage_eq {bm : BufferManager P} {p : PageId} (hp : bm.pageTable p = some f) :
    ∃ r, bm.fetchPage p = ({ bm.setFrame f { bm.frames f with
      pinCount := (bm.frames f).pinCount + 1 } with replacer := r }, some f) := by
  unfold BufferManager.fetchPage
  rw [hp]
  exact ⟨_, rfl⟩

theorem Inv.fetchPage_hit (h : Inv s) {n : Nat} (hn : s.bm.pageTable (some n) = some f) :
    Inv { s with bm := (s.bm.fetchPage (some n)).1, pins := ⟨n, f, false⟩ :: s.pins } := by
  have hc := h.consistent.fetchPage (some n)
  obtain ⟨hlt, hnfree, _⟩ := h.consistent.table _ f hn
  obtain ⟨r, hr⟩ := fetchPage_eq hn
  rw [hr] at hc ⊢
  have hframe : (s.bm.setFrame f { s.bm.frames f with
      pinCount := (s.bm.frames f).pinCount + 1 }).frames f
        = { s.bm.frames f with pinCount := (s.bm.frames f).pinCount + 1 } :=
    Function.update_self _ _ _
  refine h.onlyPage hn ⟨rfl, rfl, rfl, rfl, rfl, fun g hg => Function.update_of_ne hg _ _,
    fun m _ => rfl, fun pin hp => ?_, fun g hg => ?_, fun m _ => Iff.rfl⟩ hc ?_
    (fun pin hpin hp => ?_) ?_ (fun _ => ⟨_, List.mem_cons_self, rfl⟩) ?_
  · rw [List.mem_cons]
    refine or_iff_right ?_
    rintro rfl
    exact hp rfl
  · rw [List.countP_cons, if_neg (by simpa using Ne.symm hg)]
    rfl
  · simp only [hframe]
    exact h.resident _ _ hn
  · rcases List.mem_cons.mp hpin with rfl | hpin
    · rfl
    · exact h.frame_eq hn pin hpin hp
  · simp only [hframe]
    rw [List.countP_cons, h.pinCount f hlt hnfree, if_pos (beq_self_eq_true _)]
  · rcases h.clean n with hdisk | ⟨g, hg, hpend⟩
    · exact .inl hdisk
    · obtain rfl := Option.some.inj (hn.symm.trans hg)
      right
      rcases hpend with hdirty | hfr | ⟨pin, hpin, hp⟩
      · left
        simp only [hframe]
        exact hdirty
      · exact .inr (.inl hfr)
      · exact .inr (.inr ⟨pin, List.mem_cons_of_mem _ hpin, hp⟩)

-- ---------------------------------------------------------------------------
-- Sessions
-- ---------------------------------------------------------------------------

/-- Every event keeps the invariant. -/
theorem inv_step (s : Session P) (e : ClientEvent P) (s' : Session P) (h : Inv s)
    (hok : s.Allowed e) (hs : s.step e = some s') : Inv s' := by
  cases e with
  | fetchPage n =>
    simp only [step] at hs
    cases hp : s.bm.pageTable (some n) with
    | some f =>
      have hinv := h.fetchPage_hit hp
      obtain ⟨r, hr⟩ := fetchPage_eq hp
      rw [hr] at hinv hs
      obtain rfl := Option.some.inj hs
      exact hinv
    | none =>
      unfold BufferManager.fetchPage at hs
      rw [hp] at hs
      cases ht : s.bm.takeFrame with
      | none =>
        rw [ht] at hs
        obtain rfl := Option.some.inj hs
        exact h
      | some r =>
        obtain ⟨bm', f⟩ := r
        rw [ht] at hs
        obtain rfl := Option.some.inj hs
        exact h.fetchPage_miss hok.1 hp ht
  | newPage =>
    simp only [step] at hs
    cases ht : s.bm.takeFrame with
    | none =>
      rw [BufferManager.newPage_of_takeFrame_none ht] at hs
      obtain rfl := Option.some.inj hs
      exact h
    | some r =>
      obtain ⟨bm', f⟩ := r
      have hinv := h.newPage hok ht
      rw [BufferManager.newPage_of_idsLeft hok ht] at hs hinv
      obtain rfl := Option.some.inj hs
      exact hinv
  | write pin page =>
    obtain rfl := Option.some.inj hs
    exact h.write hok page
  | unpinPage pin d =>
    obtain rfl := Option.some.inj hs
    exact h.unpinPage hok.1 hok.2
  | flushPage n =>
    obtain rfl := Option.some.inj hs
    exact h.flushPage n
  | flushAllPages =>
    obtain rfl := Option.some.inj hs
    exact h.flushAllPages

/-- A fetch that returns `nullptr` finds no frame to take. -/
theorem takeFrame_of_fetchPage {bm : BufferManager P} {p : PageId} (h : (bm.fetchPage p).2 = none) :
    bm.takeFrame = none := by
  unfold BufferManager.fetchPage at h
  split at h
  · cases h
  · split at h
    · assumption
    · cases h

theorem takeFrame_of_newPage {bm : BufferManager P} (h : bm.newPage.2 = none) :
    bm.takeFrame = none := by
  unfold BufferManager.newPage at h
  split at h
  · assumption
  · cases h

/-- If there is no frame to take, every frame is pinned. -/
theorem Inv.pinned_of_takeFrame (h : Inv s) (ht : s.bm.takeFrame = none) (hlt : f < s.bm.poolSize) :
    ∃ pin ∈ s.pins, pin.frame = f := by
  obtain ⟨hfree, hrepl⟩ := BufferManager.takeFrame_eq_none.mp ht
  have hnfree : f ∉ s.bm.freeList := by
    rw [hfree]
    exact List.not_mem_nil
  by_contra hnone
  have hzero : (s.bm.frames f).pinCount = 0 := by
    rw [h.pinCount f hlt hnfree, List.countP_eq_zero]
    intro pin hpin heq
    exact hnone ⟨pin, hpin, by simpa using heq⟩
  have hmem := (h.consistent.evictable.2 f).mpr ⟨hlt, hnfree, hzero⟩
  rw [hrepl] at hmem
  cases hmem

/-- `fetch_page` gives what clients left in the page. -/
theorem Inv.fetchPage_page (h : Inv s) {n : Nat}
    (hf : (s.bm.fetchPage (some n)).2 = some f) :
    ((s.bm.fetchPage (some n)).1.frames f).page = s.mem n := by
  cases hp : s.bm.pageTable (some n) with
  | some g =>
    obtain ⟨r, hr⟩ := fetchPage_eq hp
    rw [hr] at hf ⊢
    obtain rfl := Option.some.inj hf
    simp only [BufferManager.setFrame, Function.update_self]
    exact h.resident n g hp
  | none =>
    unfold BufferManager.fetchPage at hf ⊢
    rw [hp] at hf ⊢
    cases ht : s.bm.takeFrame with
    | none =>
      rw [ht] at hf
      cases hf
    | some r =>
      obtain ⟨bm', g⟩ := r
      rw [ht] at hf
      obtain rfl := Option.some.inj hf
      simp only [BufferManager.install, BufferManager.setFrame, Function.update_self]
      exact (takeFrame_spec h ht).2.2.1 n (BufferManager.takeFrame_pageTable ht hp)

/-- A new pool reads pages from the file. -/
theorem fetchPage_new {poolSize : Nat} (hpos : poolSize > 0) (disk : PageId → P) (nextPageId : Nat)
    (log : Option LogManager) (p : PageId) :
    ∃ bm f, (BufferManager.new poolSize disk nextPageId log).fetchPage p = (bm, some f) ∧
      (bm.frames f).page = disk p := by
  obtain ⟨k, rfl⟩ := Nat.exists_eq_succ_of_ne_zero (Nat.pos_iff_ne_zero.mp hpos)
  have hfree : (BufferManager.new (k + 1) disk nextPageId log).freeList
      = 0 :: (List.range k).map Nat.succ := List.range_succ_eq_map
  have htake : (BufferManager.new (k + 1) disk nextPageId log).takeFrame
      = some ({ BufferManager.new (k + 1) disk nextPageId log with
          freeList := (List.range k).map Nat.succ }, 0) := by
    unfold BufferManager.takeFrame
    rw [hfree]
  have htable : (BufferManager.new (k + 1) disk nextPageId log).pageTable p = none := rfl
  have hfetch : ∃ bm, (BufferManager.new (k + 1) disk nextPageId log).fetchPage p = (bm, some 0) ∧
      bm.frames 0 = ⟨p, disk p, 1, false⟩ := by
    unfold BufferManager.fetchPage
    rw [htable, htake]
    refine ⟨_, rfl, ?_⟩
    simp only [BufferManager.install, BufferManager.setFrame, Function.update_self]
    rfl
  obtain ⟨bm, hbm, hframe⟩ := hfetch
  exact ⟨bm, 0, hbm, by rw [hframe]⟩

theorem Inv.transparent (h : Inv s) : Transparent s where
  fetch n _ f hf := h.fetchPage_page hf
  pinned pin hpin := by
    have hres := h.pinned pin hpin
    exact ⟨(h.consistent.table _ _ hres).2.2, h.resident _ _ hres⟩
  null hnull f hf := by
    rcases hnull with ⟨n, _, hn⟩ | hn
    · exact h.pinned_of_takeFrame (takeFrame_of_fetchPage hn) hf
    · exact h.pinned_of_takeFrame (takeFrame_of_newPage hn) hf
  durable hpins poolSize hpos nextPageId log n := by
    rw [← h.disk_flushAllPages hpins n]
    exact fetchPage_new hpos _ nextPageId log (some n)

/-- **The buffer pool is transparent.** Whatever clients that keep the rules
do, on a pool of any size over any file, as long as ids and pins are left. -/
theorem transparent_of_steps (poolSize : Nat) (disk : PageId → P) (nextPageId : Nat)
    (log : Option LogManager)
    (h : Steps step Allowed (start poolSize disk nextPageId log) s) : Transparent s :=
  (h.invariant inv_step (inv_start poolSize disk nextPageId log)).transparent

end Ops

/-- Two pages through a pool of one frame: the first is evicted and read again. -/
theorem transparent_of_two_pages :
    ∃ s : Session SlotPage,
      Steps step Allowed (start 1 (fun _ => zero) 0 none) s ∧ s.bm.nextPageId = 2 ∧
        Transparent s := by
  have hstart : Steps step Allowed (start 1 (fun _ => (zero : SlotPage)) 0 none)
      (start 1 (fun _ => zero) 0 none) := .refl
  have hfirst := hstart.next .newPage (show 0 < invalidPageId by decide) rfl
    |>.next (.write ⟨0, 0, false⟩ ⟨[some [1]], 0⟩) List.mem_cons_self rfl
    |>.next (.unpinPage ⟨0, 0, true⟩ true) ⟨List.mem_cons_self, fun _ => rfl⟩ rfl
  have hsecond := hfirst.next .newPage (show 1 < invalidPageId by decide) rfl
    |>.next (.unpinPage ⟨1, 0, false⟩ true) ⟨List.mem_cons_self, fun _ => rfl⟩ rfl
    |>.next (.fetchPage 0) ⟨show 0 < 2 by decide, fun f hf => by cases hf⟩ rfl
  exact ⟨_, hsecond, rfl, transparent_of_steps 1 _ 0 none hsecond⟩

end Session

end PersistX.Pool
