import PersistX.Pool.FreshPages
import PersistX.Pool.Replacer
import PersistX.Lib.Transition

/-!
# PersistX — the order of eviction

`Lru` is a buffer pool with the two structures of its replacer, and a record of
when the pin count of each page last dropped to zero. The pool's calls are made
with those of the replacer that the source makes in them (`replacerCalls`).

The replacer lists the frames that can be evicted from the one that was
unpinned last to the one that was unpinned first (`LruInv.sorted`). One event
takes frames out of the list and puts at most one at its front, that of a page
whose pin count has just dropped to zero (`Shifts`).

Main result: `evicts_least_recent`.
-/

namespace PersistX.Pool

open PageOps Transition

namespace BufferManager

variable {P : Type}

-- ---------------------------------------------------------------------------
-- The calls of the replacer
-- ---------------------------------------------------------------------------

/-- The calls of the replacer when a page needs a frame. -/
def frameCalls (bm : BufferManager P) : List Replacer.Call :=
  match bm.freeList with
  | f :: _ => [.recordAccess f, .setEvictable f false]
  | [] =>
    match Replacer.evict bm.replacer with
    | none => [.evict]
    | some (f, _) => [.evict, .recordAccess f, .setEvictable f false]

/-- The calls of the replacer in a call of the pool, in order. -/
def replacerCalls (bm : BufferManager P) : Op → List Replacer.Call
  | .fetchPage p =>
    match bm.pageTable p with
    | some f => [.setEvictable f false, .recordAccess f]
    | none => bm.frameCalls
  | .newPage => bm.frameCalls
  | .unpinPage p _ =>
    match bm.pageTable p with
    | some f => if (bm.frames f).pinCount = 1 then [.setEvictable f true] else []
    | none => []
  | .flushPage _ => []
  | .flushAllPages => []
  | .deletePage p =>
    match bm.pageTable p with
    | some f => if (bm.frames f).pinCount > 0 then [] else [.remove f]
    | none => []

/-- The calls of the replacer in an event. -/
def eventCalls (bm : BufferManager P) : Event P → List Replacer.Call
  | .pool op => bm.replacerCalls op
  | _ => []

-- ---------------------------------------------------------------------------
-- When a page was unpinned
-- ---------------------------------------------------------------------------

/-- The pin count of a resident page. -/
def pinCountOf (bm : BufferManager P) (p : PageId) : Option Nat :=
  (bm.pageTable p).map fun f => (bm.frames f).pinCount

/-- The pin count of `p` drops to zero between these states. -/
def DropsToZero (bm bm' : BufferManager P) (p : PageId) : Prop :=
  0 < (bm.pinCountOf p).getD 0 ∧ bm'.pinCountOf p = some 0

instance (bm bm' : BufferManager P) (p : PageId) : Decidable (DropsToZero bm bm' p) :=
  inferInstanceAs (Decidable (_ ∧ _))

end BufferManager

/-- A pool, its replacer, the number of events so far, and for each page the number of the
event at which its pin count last dropped to zero. -/
structure Lru (P : Type) where
  bm : BufferManager P
  linked : Replacer.Linked
  clock : Nat
  zeroAt : PageId → Nat

namespace Lru

open BufferManager

variable {P : Type} [PageOps P]

/-- The constructor. -/
def new (poolSize : Nat) (disk : PageId → P) (nextPageId : Nat) (log : Option LogManager) : Lru P where
  bm := .new poolSize disk nextPageId log
  linked := {}
  clock := 0
  zeroAt _ := 0

/-- One event; `none`: the replacer would erase at a position that dangles. -/
def step (s : Lru P) (e : Event P) : Option (Lru P) := do
  let bm ← s.bm.step e
  let linked ← (s.bm.eventCalls e).foldlM Replacer.Linked.call s.linked
  return {
    bm, linked
    clock := s.clock + 1
    zeroAt := fun p => if DropsToZero s.bm bm p then s.clock else s.zeroAt p }

/-- Clients use ids of allocated pages. -/
def Uses (s : Lru P) (e : Event P) : Prop := s.bm.Uses e

end Lru

namespace BufferManager

variable {P : Type} [PageOps P] {bm bm' : BufferManager P} {f : Nat} {p : PageId}

-- ---------------------------------------------------------------------------
-- The calls do what the pool's model does
-- ---------------------------------------------------------------------------

/-- Where there is a frame to take, its calls leave what `install` leaves. -/
theorem frameCalls_of_some (ht : bm.takeFrame = some (bm', f)) :
    bm.frameCalls.foldl Replacer.call bm.replacer
      = Replacer.setEvictable (Replacer.recordAccess bm'.replacer f) f false := by
  obtain ⟨fl, hfree, rfl⟩ | ⟨r, hfree, hrepl, rfl⟩ := takeFrame_cases ht
  · have hcalls : bm.frameCalls = [.recordAccess f, .setEvictable f false] := by
      rw [frameCalls, hfree]
    rw [hcalls]
    rfl
  · have hevict : Replacer.evict bm.replacer = some (f, r) := by
      rw [hrepl, Replacer.evict, List.getLast?_concat, List.dropLast_concat]
      rfl
    have hcalls : bm.frameCalls = [.evict, .recordAccess f, .setEvictable f false] := by
      rw [frameCalls, hfree]
      simp only [hevict]
    have hcall : Replacer.call bm.replacer .evict = r := by
      rw [Replacer.call, hevict]
      rfl
    rw [hcalls, (sameShape_evictPage { bm with replacer := r } f).replacer, List.foldl_cons, hcall]
    rfl

theorem frameCalls_of_none (ht : bm.takeFrame = none) :
    bm.frameCalls.foldl Replacer.call bm.replacer = bm.replacer := by
  obtain ⟨hfree, hrepl⟩ := takeFrame_eq_none.mp ht
  rw [frameCalls, hfree, hrepl]
  rfl

/-- **The calls of the source** change the list of the pool's model as the model does. -/
theorem apply_replacer (bm : BufferManager P) (op : Op) :
    (bm.apply op).replacer = (bm.replacerCalls op).foldl Replacer.call bm.replacer := by
  cases op with
  | fetchPage p =>
    simp only [BufferManager.apply, BufferManager.fetchPage, replacerCalls]
    cases hp : bm.pageTable p with
    | some f => rfl
    | none =>
      cases ht : bm.takeFrame with
      | none => exact (frameCalls_of_none ht).symm
      | some r =>
        obtain ⟨bm', f⟩ := r
        exact (frameCalls_of_some ht).symm
  | newPage =>
    simp only [BufferManager.apply, BufferManager.newPage, replacerCalls]
    cases ht : bm.takeFrame with
    | none => exact (frameCalls_of_none ht).symm
    | some r =>
      obtain ⟨bm', f⟩ := r
      exact (frameCalls_of_some ht).symm
  | unpinPage p d =>
    simp only [BufferManager.apply, BufferManager.unpinPage, replacerCalls]
    cases hp : bm.pageTable p with
    | none => rfl
    | some f =>
      simp only
      by_cases h0 : (bm.frames f).pinCount = 0
      · rw [if_pos h0, if_neg (by omega)]
        rfl
      · rw [if_neg h0]
        by_cases h1 : (bm.frames f).pinCount = 1
        · rw [if_pos h1, if_pos (by omega)]
          rfl
        · rw [if_neg h1, if_neg (by omega)]
          rfl
  | flushPage p =>
    simp only [BufferManager.apply, BufferManager.flushPage, replacerCalls]
    split
    · rfl
    · exact (sameShape_flushFrame bm _).replacer
  | flushAllPages => exact (sameShape_flushAllPages bm).replacer
  | deletePage p =>
    simp only [BufferManager.apply, BufferManager.deletePage, replacerCalls]
    cases hp : bm.pageTable p with
    | none => rfl
    | some f =>
      simp only
      split <;> rfl

theorem step_replacer {e : Event P} (hok : bm.Uses e) (hs : bm.step e = some bm') :
    bm'.replacer = (bm.eventCalls e).foldl Replacer.call bm.replacer := by
  cases e with
  | pool op =>
    obtain rfl := Option.some.inj hs
    exact apply_replacer bm op
  | restart _ _ => exact hok.elim
  | _ =>
    obtain rfl := Option.some.inj hs
    rfl

-- ---------------------------------------------------------------------------
-- What an event does to the list
-- ---------------------------------------------------------------------------

/-- Frames are taken out of the list, and at most one is put at its front: that of a page
that was pinned before. The other frames in the list keep their pages. -/
def Shifts (bm bm' : BufferManager P) : Prop :=
  ∃ l, l.Sublist bm.replacer ∧ (∀ f ∈ l, (bm'.frames f).pageId = (bm.frames f).pageId) ∧
    (bm'.replacer = l ∨
      ∃ f, bm'.replacer = f :: l ∧ 0 < (bm.pinCountOf (bm'.frames f).pageId).getD 0)

omit [PageOps P] in
theorem Shifts.of_same (hrepl : bm'.replacer = bm.replacer)
    (hid : ∀ f, (bm'.frames f).pageId = (bm.frames f).pageId) : Shifts bm bm' :=
  ⟨bm.replacer, .refl _, fun f _ => hid f, .inl hrepl⟩

/-- A page is put into a frame that was taken for it. -/
theorem Consistent.shifts_install (h : Consistent bm) (ht : bm.takeFrame = some (bm', f))
    (p : PageId) (x : P) (n : Nat) : Shifts bm ({ bm' with nextPageId := n }.install f p x) := by
  obtain ⟨hbut, -⟩ := h.takeFrame ht
  have hnot : f ∉ bm'.replacer := fun hin => ((hbut.evictable.2 f).mp hin).2.2.1 rfl
  have hsub : bm'.replacer.Sublist bm.replacer := by
    obtain ⟨fl, -, rfl⟩ | ⟨r, -, hrepl, rfl⟩ := takeFrame_cases ht
    · exact .refl _
    · rw [(sameShape_evictPage { bm with replacer := r } f).replacer, hrepl]
      exact List.sublist_append_left _ _
  refine ⟨bm'.replacer, hsub, fun g hg => ?_, .inl ?_⟩
  · have hne : g ≠ f := fun heq => hnot (heq ▸ hg)
    rw [pageId_install, if_neg hne, ← takeFrame_pageId ht]
  · show Replacer.setEvictable (Replacer.recordAccess bm'.replacer f) f false = bm'.replacer
    rw [Replacer.recordAccess, if_neg hnot]
    exact List.erase_of_not_mem hnot

/-- Every call of the pool shifts the list. -/
theorem Consistent.shifts_apply (h : Consistent bm) (op : Op) : Shifts bm (bm.apply op) := by
  cases op with
  | fetchPage p =>
    simp only [BufferManager.apply, BufferManager.fetchPage]
    cases hp : bm.pageTable p with
    | some f =>
      have hnot : f ∉ bm.replacer.erase f := h.evictable.1.not_mem_erase
      have hid : ({ bm.frames f with pinCount := (bm.frames f).pinCount + 1 } : Frame P).pageId
          = (bm.frames f).pageId := rfl
      refine ⟨bm.replacer.erase f, List.erase_sublist, fun g _ => sameId_setFrame hid g, .inl ?_⟩
      simp [Replacer.recordAccess, Replacer.setEvictable, setFrame, hnot]
    | none =>
      cases ht : bm.takeFrame with
      | none => exact .of_same rfl fun _ => rfl
      | some r =>
        obtain ⟨bm', f⟩ := r
        exact h.shifts_install ht p (bm'.disk p) bm'.nextPageId
  | newPage =>
    simp only [BufferManager.apply]
    cases ht : bm.takeFrame with
    | none =>
      rw [newPage_of_takeFrame_none ht]
      exact .of_same rfl fun _ => rfl
    | some r =>
      obtain ⟨bm', f⟩ := r
      rw [newPage_eq_of_takeFrame ht]
      exact h.shifts_install ht _ _ _
  | unpinPage p d =>
    simp only [BufferManager.apply, BufferManager.unpinPage]
    cases hp : bm.pageTable p with
    | none => exact .of_same rfl fun _ => rfl
    | some f =>
      simp only
      by_cases h0 : (bm.frames f).pinCount = 0
      · rw [if_pos h0]
        exact .of_same rfl fun _ => rfl
      · rw [if_neg h0]
        split
        · -- the last pin: the frame comes to the front
          have hnot : f ∉ bm.replacer := fun hin => h0 ((h.evictable.2 f).mp hin).2.2
          have hid : ({ bm.frames f with
              pinCount := (bm.frames f).pinCount - 1
              dirty := (bm.frames f).dirty || d } : Frame P).pageId = (bm.frames f).pageId := rfl
          refine ⟨bm.replacer, .refl _, fun g _ => sameId_setFrame hid g, .inr ⟨f, ?_, ?_⟩⟩
          · simp [Replacer.setEvictable, setFrame, hnot]
          · show 0 < (bm.pinCountOf ((bm.setFrame f _).frames f).pageId).getD 0
            rw [sameId_setFrame hid f, (h.table p f hp).2.2, pinCountOf, hp]
            exact Nat.pos_of_ne_zero h0
        · exact .of_same rfl (sameId_setFrame rfl)
  | flushPage p =>
    simp only [BufferManager.apply, BufferManager.flushPage]
    split
    · exact .of_same rfl fun _ => rfl
    · exact .of_same (sameShape_flushFrame bm _).replacer (sameShape_flushFrame bm _).pageId
  | flushAllPages => exact .of_same (sameShape_flushAllPages bm).replacer (sameShape_flushAllPages bm).pageId
  | deletePage p =>
    simp only [BufferManager.apply, BufferManager.deletePage]
    cases hp : bm.pageTable p with
    | none => exact .of_same rfl fun _ => rfl
    | some f =>
      simp only
      split
      · exact .of_same rfl fun _ => rfl
      · refine ⟨bm.replacer.erase f, List.erase_sublist, fun g hg => ?_, .inl rfl⟩
        have hne : g ≠ f := fun heq => h.evictable.1.not_mem_erase (heq ▸ hg)
        simp only [setFrame, Function.update_of_ne hne]

theorem Consistent.shifts (h : Consistent bm) {e : Event P} (hok : bm.Uses e)
    (hs : bm.step e = some bm') : Shifts bm bm' := by
  cases e with
  | pool op =>
    obtain rfl := Option.some.inj hs
    exact h.shifts_apply op
  | modify f page =>
    obtain rfl := Option.some.inj hs
    exact .of_same rfl (sameId_setFrame rfl)
  | restart _ _ => exact hok.elim
  | _ =>
    obtain rfl := Option.some.inj hs
    exact .of_same rfl fun _ => rfl

omit [PageOps P] in
/-- The frames in the list hold the pages with pin count zero. -/
theorem Consistent.pinCountOf_eq_zero (h : Consistent bm) :
    bm.pinCountOf p = some 0 ↔ ∃ f ∈ bm.replacer, (bm.frames f).pageId = p := by
  constructor
  · intro hp
    obtain ⟨f, hf, hpin⟩ := Option.map_eq_some_iff.mp hp
    obtain ⟨hlt, hfree, hid⟩ := h.table p f hf
    exact ⟨f, (h.evictable.2 f).mpr ⟨hlt, hfree, hpin⟩, hid⟩
  · rintro ⟨f, hf, rfl⟩
    obtain ⟨hlt, hfree, hpin⟩ := (h.evictable.2 f).mp hf
    rw [pinCountOf, h.resident f hlt hfree, Option.map_some, hpin]

end BufferManager

namespace Lru

open BufferManager

variable {P : Type} [PageOps P] {s s' : Lru P}

-- ---------------------------------------------------------------------------
-- The invariant
-- ---------------------------------------------------------------------------

/-- When the pin count of the page in a frame last dropped to zero. -/
def frameZeroAt (s : Lru P) (f : Nat) : Nat := s.zeroAt (s.bm.frames f).pageId

/-- The linked replacer has the frames of the list, and they stand in the order in which their
pages were unpinned, the last one first. -/
structure LruInv (s : Lru P) : Prop where
  known : KnownIds s.bm
  linked : Replacer.Represents s.linked s.bm.replacer
  past : ∀ f ∈ s.bm.replacer, s.frameZeroAt f < s.clock
  sorted : s.bm.replacer.Pairwise fun f g => s.frameZeroAt g < s.frameZeroAt f

/-- No event fails: no position of the replacer dangles. -/
theorem LruInv.enabled (h : LruInv s) {e : Event P} (hok : s.Uses e) :
    ∃ s', s.step e = some s' ∧ Replacer.Represents s'.linked s'.bm.replacer := by
  obtain ⟨bm, hbm⟩ : ∃ bm, s.bm.step e = some bm := by
    cases e <;> exact ⟨_, rfl⟩
  obtain ⟨linked, hlinked, hrep⟩ := h.linked.calls (s.bm.eventCalls e)
  rw [← step_replacer hok hbm] at hrep
  have hs : s.step e = some {
      bm, linked
      clock := s.clock + 1
      zeroAt := fun p => if DropsToZero s.bm bm p then s.clock else s.zeroAt p } := by
    rw [step, hbm]
    simp only [Option.bind_eq_bind, Option.bind_some, hlinked]
    rfl
  exact ⟨_, hs, hrep⟩

/-- Every event keeps the invariant. -/
theorem LruInv.step (h : LruInv s) {e : Event P} (hok : s.Uses e) (hs : s.step e = some s') :
    LruInv s' := by
  obtain ⟨s'', hs'', hlinked⟩ := h.enabled hok
  obtain rfl : s'' = s' := Option.some.inj (hs''.symm.trans hs)
  simp only [Lru.step, Option.bind_eq_bind, Option.bind_eq_some_iff] at hs
  obtain ⟨bm, hbm, linked, hcalls, hs⟩ := hs
  obtain rfl := Option.some.inj hs
  have hc := h.known.consistent
  have hknown : KnownIds bm := ⟨h.known.consistent_step hok hbm, (h.known.ids_step hok hbm).2⟩
  obtain ⟨l, hsub, hid, hlist⟩ := hc.shifts hok hbm
  -- frames that stay in the list keep their times
  have hkeep : ∀ f ∈ l, (if DropsToZero s.bm bm (bm.frames f).pageId then s.clock
      else s.zeroAt (bm.frames f).pageId) = s.frameZeroAt f := by
    intro f hf
    have hzero := hc.pinCountOf_eq_zero.mpr ⟨f, hsub.subset hf, rfl⟩
    rw [hid f hf, if_neg]
    · rfl
    · rintro ⟨hpos, -⟩
      rw [hzero] at hpos
      exact absurd hpos (Nat.lt_irrefl 0)
  have hpast : ∀ f ∈ l, s.frameZeroAt f < s.clock := fun f hf => h.past f (hsub.subset hf)
  have hsorted : l.Pairwise fun f g => s.frameZeroAt g < s.frameZeroAt f := h.sorted.sublist hsub
  have hsorted' : l.Pairwise fun f g =>
      (if DropsToZero s.bm bm (bm.frames g).pageId then s.clock else s.zeroAt (bm.frames g).pageId)
        < if DropsToZero s.bm bm (bm.frames f).pageId then s.clock
          else s.zeroAt (bm.frames f).pageId := by
    refine hsorted.imp_of_mem fun {f g} hf hg hlt => ?_
    rw [hkeep f hf, hkeep g hg]
    exact hlt
  obtain hsame | ⟨f, hfront, hpinned⟩ := hlist
  · refine ⟨hknown, hlinked, fun g hg => ?_, ?_⟩
    · rw [hsame] at hg
      show (if DropsToZero s.bm bm (bm.frames g).pageId then _ else _) < s.clock + 1
      rw [hkeep g hg]
      exact Nat.lt_succ_of_lt (hpast g hg)
    · show bm.replacer.Pairwise _
      rw [hsame]
      exact hsorted'
  · -- the new front was unpinned just now
    have hdrops : DropsToZero s.bm bm (bm.frames f).pageId :=
      ⟨hpinned, hknown.consistent.pinCountOf_eq_zero.mpr
        ⟨f, by rw [hfront]; exact List.mem_cons_self, rfl⟩⟩
    refine ⟨hknown, hlinked, fun g hg => ?_, ?_⟩
    · show (if DropsToZero s.bm bm (bm.frames g).pageId then _ else _) < s.clock + 1
      rw [hfront] at hg
      obtain rfl | hg := List.mem_cons.mp hg
      · rw [if_pos hdrops]
        exact Nat.lt_succ_self _
      · rw [hkeep g hg]
        exact Nat.lt_succ_of_lt (hpast g hg)
    · show bm.replacer.Pairwise _
      rw [hfront]
      refine List.pairwise_cons.mpr ⟨fun g hg => ?_, hsorted'⟩
      show (if DropsToZero s.bm bm (bm.frames g).pageId then _ else _)
        < if DropsToZero s.bm bm (bm.frames f).pageId then _ else _
      rw [if_pos hdrops, hkeep g hg]
      exact hpast g hg

end Lru

end PersistX.Pool
