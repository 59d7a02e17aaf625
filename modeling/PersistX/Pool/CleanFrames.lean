import PersistX.Pool.WriteFailure

/-!
# PersistX — clean frames when writes fail

A session whose writes may fail: every call carries the outcome of the writes it
makes. A victim that could not be written is lost to the replacer
(`Pool/WriteFailure.lean`), so the invariant of `Pool/Transparency.lean` does not
hold of the pool; it holds of the pool with the lost frames put back, which is
enough, because no page depends on the order in which frames are evicted
(`TryInv`).

Main result: `clean_matches_disk_of_steps` — as long as no write inside
`flush_all_pages` fails and `new_page` gives out no id that is resident already,
a frame whose dirty bit is clear holds the bytes of the file, whatever becomes of
the other writes.
-/

namespace PersistX.Pool

open PageOps Transition

variable {P : Type}

namespace Replacer

variable {l : List Nat} {f g : Nat}

theorem nodup_recordAccess (h : l.Nodup) (f : Nat) : (recordAccess l f).Nodup := by
  unfold recordAccess
  split
  · exact List.nodup_cons.mpr ⟨h.not_mem_erase, h.erase f⟩
  · exact h

theorem mem_recordAccess : g ∈ recordAccess l f ↔ g ∈ l := by
  unfold recordAccess
  split
  · rename_i hf
    exact (List.perm_cons_erase hf).mem_iff.symm
  · exact Iff.rfl

theorem nodup_setEvictable (h : l.Nodup) (f : Nat) (b : Bool) : (setEvictable l f b).Nodup := by
  cases b with
  | false => exact h.erase f
  | true =>
    unfold setEvictable
    rw [if_pos rfl]
    split
    · exact h
    · rename_i hf
      exact List.nodup_cons.mpr ⟨hf, h⟩

theorem mem_setEvictable_true : g ∈ setEvictable l f true ↔ g = f ∨ g ∈ l := by
  unfold setEvictable
  rw [if_pos rfl]
  split
  · rename_i hf
    exact ⟨.inr, fun hg => hg.elim (fun heq => heq ▸ hf) id⟩
  · exact List.mem_cons

theorem mem_setEvictable_false (h : l.Nodup) : g ∈ setEvictable l f false ↔ g ≠ f ∧ g ∈ l :=
  h.mem_erase_iff

end Replacer

-- ---------------------------------------------------------------------------
-- Sessions in which writes may fail
-- ---------------------------------------------------------------------------

/-- What clients do, with the outcome of the writes. -/
inductive TryEvent (P : Type)
  | fetchPage (n : Nat) (ok : Bool)
  | newPage (ok : Bool)
  /-- Write through a pin. -/
  | write (pin : Pin) (page : P)
  | unpinPage (pin : Pin) (isDirty : Bool)
  | flushPage (n : Nat) (ok : Bool)
  /-- The outcome is that of the write of each frame. -/
  | flushAllPages (ok : Nat → Bool)

namespace Session

section Ops

variable [PageOps P]

/-- The effect of an event. -/
def tryStep (s : Session P) : TryEvent P → Option (Session P)
  | .fetchPage n ok =>
    match s.bm.tryFetchPage (some n) ok with
    | (bm, none) => some { s with bm }
    | (bm, some f) => some { s with bm, pins := ⟨n, f, false⟩ :: s.pins }
  | .newPage ok =>
    match s.bm.tryNewPage ok with
    | (bm, some (some n, f)) =>
      some ⟨bm, Function.update s.mem n (init n), ⟨n, f, false⟩ :: s.pins, n :: s.fresh⟩
    | (bm, _) => some { s with bm }
  | .write pin page =>
    some
      { s with
        bm := s.bm.setFrame pin.frame { s.bm.frames pin.frame with page := page }
        mem := Function.update s.mem pin.page page
        pins := { pin with wrote := true } :: s.pins.erase pin }
  | .unpinPage pin isDirty =>
    some
      { s with
        bm := (s.bm.unpinPage (some pin.page) isDirty).1
        pins := s.pins.erase pin
        fresh := s.fresh.filter (· ≠ pin.page) }
  | .flushPage n ok => some { s with bm := (s.bm.tryFlushPage (some n) ok).1 }
  | .flushAllPages ok => some { s with bm := s.bm.tryFlushAllPages ok }

end Ops

/-- The rules for clients: write and unpin through a pin, and say `is_dirty` after a write and
at the first unpin of a new page. -/
def ClientRules (s : Session P) : TryEvent P → Prop
  | .write pin _ => pin ∈ s.pins
  | .unpinPage pin isDirty =>
    pin ∈ s.pins ∧ (pin.wrote = true ∨ pin.page ∈ s.fresh → isDirty = true)
  | _ => True

/-- `flush_all_pages` meets no failing write, and `new_page` gives out no id that is
resident in a frame other than the one it evicts; the counters stay within their bounds. -/
def Sound (s : Session P) : TryEvent P → Prop
  | .fetchPage n _ => s.bm.PinsLeft (some n)
  | .newPage _ => s.bm.NewPageSafe ∧ s.bm.IdsLeft
  | .flushAllPages ok => ∀ f < s.bm.poolSize, s.bm.toFlush f = true → ok f = true
  | _ => True

/-- A resident frame with a clear dirty bit, to which no client is writing, holds
the bytes of its page in the file. -/
def CleanMatchesDisk (s : Session P) : Prop :=
  ∀ n f, s.bm.pageTable (some n) = some f → (s.bm.frames f).dirty = false → n ∉ s.fresh →
    (∀ pin ∈ s.pins, pin.page = n → pin.wrote = false) →
    (s.bm.frames f).page = s.bm.disk (some n)

-- ---------------------------------------------------------------------------
-- The invariant: put the lost frames back
-- ---------------------------------------------------------------------------

/-- The session with another replacer list and another page counter. -/
def restored (s : Session P) (r : List Nat) (k : Nat) : Session P :=
  { s with bm := { s.bm with replacer := r, nextPageId := k } }

/-- The replacer has some of the frames that the pool's invariant wants there; the
page counter may be behind the ids that are resident. -/
structure TryInv (s : Session P) : Prop where
  nodup : s.bm.replacer.Nodup
  restored : ∃ r k, s.bm.replacer ⊆ r ∧ Inv (s.restored r k)

/-- Order of the replacer, page counter and log do not matter to the invariant. -/
theorem Inv.relax {s : Session P} (h : Inv s) {r : List Nat} {k : Nat} (hr : r.Nodup)
    (hmem : ∀ f, f ∈ r ↔ f ∈ s.bm.replacer) (hk : s.bm.nextPageId ≤ k) (log : Option LogManager) :
    Inv { s with bm := { s.bm with replacer := r, nextPageId := k, log := log } } := by
  have hc := h.consistent
  refine ⟨⟨hc.table, hc.resident, hc.free, hr, fun f => ?_⟩, fun p f hp => ?_, h.pinned,
    h.pinCount, h.free, h.fresh, h.resident, h.clean⟩
  · exact (hmem f).trans (hc.evictable.2 f)
  · obtain ⟨n, hn, heq⟩ := h.allocated p f hp
    exact ⟨n, Nat.lt_of_lt_of_le hn hk, heq⟩

/-- What the invariant is for. -/
theorem Inv.cleanMatchesDisk {s : Session P} (h : Inv s) : CleanMatchesDisk s := by
  intro n f hf hclean hfresh hpins
  rw [h.resident n f hf]
  rcases h.clean n with hdisk | ⟨g, hg, hdirty | hfr | ⟨pin, hpin, hpage, hwrote⟩⟩
  · exact hdisk.symm
  · obtain rfl := Option.some.inj (hf.symm.trans hg)
    rw [hclean] at hdirty
    cases hdirty
  · exact absurd hfr hfresh
  · rw [hpins pin hpin hpage] at hwrote
    cases hwrote

theorem TryInv.cleanMatchesDisk {s : Session P} (h : TryInv s) : CleanMatchesDisk s := by
  obtain ⟨r, k, -, hinv⟩ := h.restored
  exact hinv.cleanMatchesDisk

variable {s : Session P} {bm' : BufferManager P} {f : Nat}

/-- `unpin_page` looks at the replacer only to change it. -/
theorem unpinPage_restored {bm : BufferManager P} (hnd : bm.replacer.Nodup) {r : List Nat}
    (hsub : bm.replacer ⊆ r) (k : Nat) (p : PageId) (d : Bool) :
    (bm.unpinPage p d).1.replacer.Nodup ∧
    ∃ r', (bm.unpinPage p d).1.replacer ⊆ r' ∧
      ({ bm with replacer := r, nextPageId := k }.unpinPage p d).1
        = { (bm.unpinPage p d).1 with replacer := r', nextPageId := k } := by
  unfold BufferManager.unpinPage
  simp only
  split
  · exact ⟨hnd, r, hsub, rfl⟩
  · rename_i f _
    split
    · exact ⟨hnd, r, hsub, rfl⟩
    · split
      · refine ⟨Replacer.nodup_setEvictable hnd f true, Replacer.setEvictable r f true,
          fun g hg => ?_, rfl⟩
        rw [Replacer.mem_setEvictable_true]
        exact (Replacer.mem_setEvictable_true.mp hg).imp_right fun hg => hsub hg
      · exact ⟨hnd, r, hsub, rfl⟩

theorem TryInv.unpinPage (h : TryInv s) {pin : Pin} (hpin : pin ∈ s.pins) {d : Bool}
    (hd : pin.wrote = true ∨ pin.page ∈ s.fresh → d = true) :
    TryInv { s with
      bm := (s.bm.unpinPage (some pin.page) d).1
      pins := s.pins.erase pin
      fresh := s.fresh.filter (· ≠ pin.page) } := by
  obtain ⟨hnd, r, k, hsub, hinv⟩ := h
  obtain ⟨hnd', r', hsub', heq⟩ := unpinPage_restored hnd hsub k (some pin.page) d
  have hunpin := hinv.unpinPage hpin hd
  unfold Session.restored at hunpin
  simp only [heq] at hunpin
  exact ⟨hnd', r', k, hsub', hunpin⟩

theorem TryInv.write (h : TryInv s) {pin : Pin} (hpin : pin ∈ s.pins) (page : P) :
    TryInv { s with
      bm := s.bm.setFrame pin.frame { s.bm.frames pin.frame with page := page }
      mem := Function.update s.mem pin.page page
      pins := { pin with wrote := true } :: s.pins.erase pin } := by
  obtain ⟨hnd, r, k, hsub, hinv⟩ := h
  exact ⟨hnd, r, k, hsub, hinv.write hpin page⟩

section Ops

variable [PageOps P]

-- ---------------------------------------------------------------------------
-- Flushing
-- ---------------------------------------------------------------------------

omit [PageOps P] in
/-- A call that changes nothing but the log and may lose frames from the replacer. -/
theorem TryInv.lose (h : TryInv s) {r : List Nat} (hr : r.Sublist s.bm.replacer)
    (log : Option LogManager) :
    TryInv { s with bm := { s.bm with replacer := r, log := log } } := by
  obtain ⟨hnd, r', k, hsub, hinv⟩ := h
  refine ⟨hnd.sublist hr, r', k, fun g hg => hsub (hr.subset hg), ?_⟩
  exact hinv.relax hinv.consistent.evictable.1 (fun _ => Iff.rfl) (Nat.le_refl _) log

theorem TryInv.tryFlushPage (h : TryInv s) (n : Nat) (ok : Bool) :
    TryInv { s with bm := (s.bm.tryFlushPage (some n) ok).1 } := by
  cases ok with
  | false =>
    unfold BufferManager.tryFlushPage
    split
    · exact h
    · exact h.lose (List.Sublist.refl _) _
  | true =>
    obtain ⟨hnd, r, k, hsub, hinv⟩ := h
    have hflush := hinv.flushPage n
    rw [BufferManager.tryFlushPage_true]
    unfold BufferManager.flushPage Session.restored at hflush
    unfold BufferManager.flushPage
    simp only at hflush
    split at hflush
    · exact ⟨hnd, r, k, hsub, hinv⟩
    · exact ⟨hnd, r, k, hsub, hflush⟩

/-- When its writes succeed, `flush_all_pages` is that of the pool without failures. -/
theorem tryFlushAllPages_of_writes {bm : BufferManager P} {ok : Nat → Bool} (l : List Nat)
    (h : ∀ f ∈ l, bm.toFlush f = true → ok f = true) :
    l.foldl (fun bm f => if bm.toFlush f then bm.flushAnyway f (ok f) else bm) bm
      = l.foldl (fun bm f =>
        if (bm.frames f).pageId ≠ none ∧ (bm.frames f).dirty = true then bm.flushFrame f
        else bm) bm := by
  induction l generalizing bm with
  | nil => rfl
  | cons g l ih =>
    have hiff : bm.toFlush g = true ↔
        (bm.frames g).pageId ≠ none ∧ (bm.frames g).dirty = true := by
      unfold BufferManager.toFlush
      rw [Bool.and_eq_true, Option.isSome_iff_ne_none]
    have htail := fun f hf => h f (List.mem_cons_of_mem _ hf)
    rw [List.foldl_cons, List.foldl_cons]
    by_cases hg : bm.toFlush g = true
    · have hflush : bm.flushAnyway g (ok g) = bm.flushFrame g := by
        rw [h g List.mem_cons_self hg]
        rfl
      rw [if_pos hg, if_pos (hiff.mp hg), hflush]
      refine ih fun f hf hd => htail f hf ?_
      have hframes : (bm.flushFrame g).frames
          = Function.update bm.frames g { bm.frames g with dirty := false } := rfl
      unfold BufferManager.toFlush at hd ⊢
      rw [hframes, Function.update_apply] at hd
      split at hd
      · simp at hd
      · exact hd
    · rw [if_neg hg, if_neg fun hc => hg (hiff.mpr hc)]
      exact ih htail

/-- The loop looks at neither replacer nor page counter. -/
theorem flushAllPages_restored (bm : BufferManager P) (r : List Nat) (k : Nat) (l : List Nat) :
    l.foldl (fun bm f =>
        if (bm.frames f).pageId ≠ none ∧ (bm.frames f).dirty = true then bm.flushFrame f
        else bm) { bm with replacer := r, nextPageId := k }
      = { l.foldl (fun bm f =>
            if (bm.frames f).pageId ≠ none ∧ (bm.frames f).dirty = true then bm.flushFrame f
            else bm) bm with replacer := r, nextPageId := k } := by
  induction l generalizing bm with
  | nil => rfl
  | cons g l ih =>
    rw [List.foldl_cons, List.foldl_cons]
    by_cases hg : (bm.frames g).pageId ≠ none ∧ (bm.frames g).dirty = true
    · rw [if_pos hg, if_pos (show _ from hg)]
      exact ih (bm.flushFrame g)
    · rw [if_neg hg, if_neg (show ¬ _ from hg)]
      exact ih bm

theorem TryInv.tryFlushAllPages (h : TryInv s) {ok : Nat → Bool}
    (hok : ∀ f < s.bm.poolSize, s.bm.toFlush f = true → ok f = true) :
    TryInv { s with bm := s.bm.tryFlushAllPages ok } := by
  obtain ⟨hnd, r, k, hsub, hinv⟩ := h
  have heq : s.bm.tryFlushAllPages ok = s.bm.flushAllPages :=
    tryFlushAllPages_of_writes _ fun f hf => hok f (List.mem_range.mp hf)
  have hrepl := (BufferManager.sameShape_flushAllPages s.bm).replacer
  have hflush := hinv.flushAllPages
  have hcomm : (s.restored r k).bm.flushAllPages
      = { s.bm.flushAllPages with replacer := r, nextPageId := k } :=
    flushAllPages_restored s.bm r k (List.range s.bm.poolSize)
  rw [hcomm] at hflush
  rw [heq]
  refine ⟨?_, r, k, ?_, hflush⟩
  · simp only [hrepl]
    exact hnd
  · simp only [hrepl]
    exact hsub

-- ---------------------------------------------------------------------------
-- Taking a frame
-- ---------------------------------------------------------------------------

/-- A frame that was taken was taken as if nothing could fail. -/
theorem takeFrame_of_tryTakeFrame {bm : BufferManager P} {ok : Bool}
    (h : bm.tryTakeFrame ok = (bm', some f)) : bm.takeFrame = some (bm', f) := by
  have htrue : bm.tryTakeFrame ok = bm.tryTakeFrame true := by
    unfold BufferManager.tryTakeFrame at h ⊢
    cases hfree : bm.freeList with
    | cons g fl => rfl
    | nil =>
      rw [hfree] at h
      cases hev : Replacer.evict bm.replacer with
      | none => rfl
      | some e =>
        obtain ⟨g, r⟩ := e
        rw [hev] at h
        simp only [BufferManager.tryEvictPage] at h ⊢
        cases hd : (bm.frames g).dirty with
        | false => rfl
        | true =>
          cases ok with
          | true => rfl
          | false => simp [hd, BufferManager.tryFlushFrame] at h
  rw [htrue, BufferManager.tryTakeFrame_true] at h
  cases ht : bm.takeFrame with
  | none =>
    rw [ht] at h
    cases h
  | some e =>
    rw [ht] at h
    obtain ⟨h1, h2⟩ := Prod.mk.inj h
    exact congrArg some (Prod.ext h1 (Option.some.inj h2))

/-- When no frame could be taken, the pool has at most lost the victim. -/
theorem TryInv.tryTakeFrame_none (h : TryInv s) {ok : Bool}
    (ht : s.bm.tryTakeFrame ok = (bm', none)) : TryInv { s with bm := bm' } := by
  unfold BufferManager.tryTakeFrame at ht
  split at ht
  · cases ht
  · cases hl : s.bm.replacer.getLast? with
    | none =>
      have hev : Replacer.evict s.bm.replacer = none := by
        unfold Replacer.evict
        rw [hl]
        rfl
      rw [hev] at ht
      obtain ⟨rfl, -⟩ := Prod.mk.inj ht
      exact h
    | some g =>
      have hev : Replacer.evict s.bm.replacer = some (g, s.bm.replacer.dropLast) := by
        unfold Replacer.evict
        rw [hl]
        rfl
      rw [hev] at ht
      simp only [BufferManager.tryEvictPage] at ht
      cases hd : (s.bm.frames g).dirty with
      | false => simp [hd] at ht
      | true =>
        cases ok with
        | true => simp [hd, BufferManager.tryFlushFrame] at ht
        | false =>
          simp only [hd, if_true, BufferManager.tryFlushFrame, Bool.false_eq_true, if_false] at ht
          obtain ⟨rfl, -⟩ := Prod.mk.inj ht
          exact h.lose (List.dropLast_sublist _) _

theorem takeFrame_of_evict {bm : BufferManager P} {r : List Nat} (hfree : bm.freeList = [])
    (hev : Replacer.evict bm.replacer = some (f, r)) :
    bm.takeFrame = some ({ bm with replacer := r }.evictPage f, f) := by
  unfold BufferManager.takeFrame
  split
  · rename_i hcons
    rw [hfree] at hcons
    cases hcons
  · rw [hev]

theorem evictPage_restored (bm : BufferManager P) (l r : List Nat) (k f : Nat) :
    { bm with replacer := r, nextPageId := k }.evictPage f
      = { { bm with replacer := l }.evictPage f with replacer := r, nextPageId := k } := by
  unfold BufferManager.evictPage
  by_cases hd : (bm.frames f).dirty = true
  · rw [if_pos hd, if_pos (show _ from hd)]
    rfl
  · rw [if_neg hd, if_neg (show ¬ _ from hd)]

/-- Taking a frame, seen in the pool with the lost frames put back: there the same
frame can be taken, once it is moved to the end of the replacer. -/
theorem TryInv.takeFrame (h : TryInv s) (ht : s.bm.takeFrame = some (bm', f)) :
    ∃ r r' k, Inv (s.restored r k) ∧ bm'.replacer.Nodup ∧ bm'.replacer ⊆ r' ∧ r'.Nodup ∧
      (s.restored r k).bm.takeFrame
        = some ({ bm' with replacer := r', nextPageId := k }, f) := by
  obtain ⟨hnd, r, k, hsub, hinv⟩ := h
  rcases BufferManager.takeFrame_cases ht with ⟨fl, hfree, rfl⟩ | ⟨l, hfree, hrepl, rfl⟩
  · refine ⟨r, r, k, hinv, hnd, hsub, hinv.consistent.evictable.1, ?_⟩
    unfold BufferManager.takeFrame
    rw [show (s.restored r k).bm.freeList = f :: fl from hfree]
    rfl
  · have hrnd := hinv.consistent.evictable.1
    have hf : f ∈ r := hsub (hrepl ▸ List.mem_append_right l (List.mem_singleton.mpr rfl))
    have hperm : (r.erase f ++ [f]).Perm r :=
      (List.perm_append_singleton f (r.erase f)).trans (List.perm_cons_erase hf).symm
    have hshape := BufferManager.sameShape_evictPage { s.bm with replacer := l } f
    have hlnd : (l ++ [f]).Nodup := hrepl ▸ hnd
    have hfl : f ∉ l := fun hin => (List.nodup_append.mp hlnd).2.2 f hin f
      (List.mem_singleton.mpr rfl) rfl
    refine ⟨r.erase f ++ [f], r.erase f, k, ?_, ?_, ?_, hrnd.erase f, ?_⟩
    · exact hinv.relax (hperm.nodup_iff.mpr hrnd) (fun g => hperm.mem_iff) (Nat.le_refl k)
        s.bm.log
    · rw [hshape.replacer]
      exact (List.nodup_append.mp hlnd).1
    · rw [hshape.replacer]
      intro g hg
      have hgf : g ≠ f := fun heq => hfl (heq ▸ hg)
      exact (List.mem_erase_of_ne hgf).mpr (hsub (hrepl ▸ List.mem_append_left [f] hg))
    · have hev : Replacer.evict (s.restored (r.erase f ++ [f]) k).bm.replacer
          = some (f, r.erase f) := by
        unfold Replacer.evict Session.restored
        simp
      have hfree' : (s.restored (r.erase f ++ [f]) k).bm.freeList = [] := hfree
      rw [takeFrame_of_evict hfree' hev]
      exact congrArg (fun bm => some (bm, f)) (evictPage_restored s.bm l (r.erase f) k f)

-- ---------------------------------------------------------------------------
-- Fetching pages and new pages
-- ---------------------------------------------------------------------------

/-- Put page `n` into the frame that was taken. -/
theorem TryInv.install (h : TryInv s) (ht : s.bm.takeFrame = some (bm', f)) {n j : Nat}
    (hn : ∀ g, s.bm.pageTable (some n) = some g → g = f) {x : P} {mem : Nat → P} (hx : mem n = x)
    (hmem : ∀ m, m ≠ n → mem m = s.mem m) {fresh : List Nat} (hsub : ∀ m ∈ s.fresh, m ∈ fresh)
    (hfresh : ∀ m ∈ fresh, m = n ∨ m ∈ s.fresh) (hclean : bm'.disk (some n) = x ∨ n ∈ fresh) :
    TryInv ⟨{ bm' with nextPageId := j }.install f (some n) x, mem, ⟨n, f, false⟩ :: s.pins,
      fresh⟩ := by
  obtain ⟨r, r', k, hinv, hnd, hsubr, hnd', htake⟩ := h.takeFrame ht
  have hnone : bm'.pageTable (some n) = none := by
    by_contra hne
    obtain ⟨g, hg⟩ := Option.ne_none_iff_exists'.mp hne
    have hbut := (hinv.consistent.takeFrame htake).1
    refine (hbut.table (some n) g hg).2.2.1 ?_
    rw [hn g ((takeFrame_spec hinv htake).2.1 (some n) g hg)]
  have hinst := hinv.install htake (k := max k (n + 1)) hnone (by omega) (Nat.le_max_left k (n + 1))
    hx hmem hsub hfresh hclean
  refine ⟨?_, _, max k (n + 1), ?_, hinst⟩
  · exact Replacer.nodup_setEvictable (Replacer.nodup_recordAccess hnd f) f false
  · intro g hg
    have hg' := (Replacer.mem_setEvictable_false (Replacer.nodup_recordAccess hnd f)).mp hg
    refine (Replacer.mem_setEvictable_false (Replacer.nodup_recordAccess hnd' f)).mpr ⟨hg'.1, ?_⟩
    exact Replacer.mem_recordAccess.mpr (hsubr (Replacer.mem_recordAccess.mp hg'.2))

theorem TryInv.fetchPage_hit (h : TryInv s) {n : Nat} (hn : s.bm.pageTable (some n) = some f) :
    TryInv { s with bm := (s.bm.fetchPage (some n)).1, pins := ⟨n, f, false⟩ :: s.pins } := by
  obtain ⟨hnd, r, k, hsub, hinv⟩ := h
  have hhit := hinv.fetchPage_hit (n := n) hn
  have hrnd := hinv.consistent.evictable.1
  unfold BufferManager.fetchPage Session.restored at hhit
  unfold BufferManager.fetchPage
  rw [hn] at hhit ⊢
  refine ⟨?_, _, k, ?_, hhit⟩
  · exact Replacer.nodup_recordAccess (Replacer.nodup_setEvictable hnd f false) f
  · intro g hg
    have hg' := (Replacer.mem_setEvictable_false hnd).mp (Replacer.mem_recordAccess.mp hg)
    exact Replacer.mem_recordAccess.mpr
      ((Replacer.mem_setEvictable_false hrnd).mpr ⟨hg'.1, hsub hg'.2⟩)

theorem TryInv.fetchPage_miss (h : TryInv s) {n : Nat} (hmiss : s.bm.pageTable (some n) = none)
    (ht : s.bm.takeFrame = some (bm', f)) :
    TryInv { s with
      bm := bm'.install f (some n) (bm'.disk (some n)), pins := ⟨n, f, false⟩ :: s.pins } := by
  obtain ⟨r, r', k, hinv, -, -, -, htake⟩ := h.takeFrame ht
  have hdisk : bm'.disk (some n) = s.mem n :=
    (takeFrame_spec hinv htake).2.2.1 n (BufferManager.takeFrame_pageTable htake hmiss)
  refine h.install ht (j := bm'.nextPageId) (fun g hg => ?_) hdisk.symm (fun _ _ => rfl)
    (fun _ hm => hm) (fun _ hm => .inr hm) (.inl rfl)
  rw [hmiss] at hg
  cases hg

theorem TryInv.newPage (h : TryInv s) (hsafe : s.bm.NewPageSafe) (hids : s.bm.IdsLeft)
    (ht : s.bm.takeFrame = some (bm', f)) :
    TryInv ⟨s.bm.newPage.1, Function.update s.mem s.bm.nextPageId (init s.bm.nextPageId),
      ⟨s.bm.nextPageId, f, false⟩ :: s.pins, s.bm.nextPageId :: s.fresh⟩ := by
  rw [BufferManager.newPage_of_idsLeft hids ht]
  refine h.install ht (fun g hg => ?_) (Function.update_self _ _ _)
    (fun m hm => Function.update_of_ne hm _ _) (fun m hm => List.mem_cons_of_mem _ hm)
    (fun m hm => List.mem_cons.mp hm) (.inr List.mem_cons_self)
  rcases hsafe with hnull | hvictim
  · rw [BufferManager.takeFrame_eq_none.mpr hnull] at ht
    cases ht
  · obtain ⟨hfree, hlast⟩ := hvictim g (by rw [hids.pageIdOf]; exact hg)
    exact Option.some.inj
      (hlast.symm.trans (BufferManager.getLast?_replacer_of_takeFrame ht hfree))

-- ---------------------------------------------------------------------------
-- Sessions
-- ---------------------------------------------------------------------------

theorem tryInv_start (poolSize : Nat) (disk : PageId → P) (nextPageId : Nat)
    (log : Option LogManager) : TryInv (start poolSize disk nextPageId log) :=
  ⟨List.nodup_nil, [], nextPageId, fun _ h => h, inv_start poolSize disk nextPageId log⟩

/-- Every event keeps the invariant. -/
theorem tryInv_step (s : Session P) (e : TryEvent P) (s' : Session P) (h : TryInv s)
    (hok : s.ClientRules e ∧ s.Sound e) (hs : s.tryStep e = some s') : TryInv s' := by
  cases e with
  | fetchPage n ok =>
    simp only [tryStep] at hs
    cases hp : s.bm.pageTable (some n) with
    | some f =>
      have hinv := h.fetchPage_hit hp
      obtain ⟨r, hr⟩ := fetchPage_eq hp
      unfold BufferManager.tryFetchPage at hs
      rw [hp] at hs
      simp only [hr] at hinv hs
      obtain rfl := Option.some.inj hs
      exact hinv
    | none =>
      unfold BufferManager.tryFetchPage at hs
      rw [hp] at hs
      simp only at hs
      cases ht : s.bm.tryTakeFrame ok with
      | mk bm' o =>
        rw [ht] at hs
        cases o with
        | none =>
          obtain rfl := Option.some.inj hs
          exact h.tryTakeFrame_none ht
        | some f =>
          obtain rfl := Option.some.inj hs
          exact h.fetchPage_miss hp (takeFrame_of_tryTakeFrame ht)
  | newPage ok =>
    simp only [tryStep] at hs
    unfold BufferManager.tryNewPage at hs
    cases ht : s.bm.tryTakeFrame ok with
    | mk bm' o =>
      rw [ht] at hs
      cases o with
      | none =>
        obtain rfl := Option.some.inj hs
        exact h.tryTakeFrame_none ht
      | some f =>
        have htake := takeFrame_of_tryTakeFrame ht
        have hinv := h.newPage hok.2.1 hok.2.2 htake
        have hnext := BufferManager.takeFrame_nextPageId htake
        rw [BufferManager.newPage_of_idsLeft hok.2.2 htake] at hinv
        simp only [hnext, hok.2.2.pageIdOf, hok.2.2.next] at hs
        obtain rfl := Option.some.inj hs
        exact hinv
  | write pin page =>
    obtain rfl := Option.some.inj hs
    exact h.write hok.1 page
  | unpinPage pin d =>
    obtain rfl := Option.some.inj hs
    exact h.unpinPage hok.1.1 hok.1.2
  | flushPage n ok =>
    obtain rfl := Option.some.inj hs
    exact h.tryFlushPage n ok
  | flushAllPages ok =>
    obtain rfl := Option.some.inj hs
    exact h.tryFlushAllPages hok.2

/-- **A clean frame matches the disk.** In every session of clients that keep the
rules, on a pool of any size over any file, with any outcome of the writes of
`fetch_page`, `new_page` and `flush_page`: as long as the writes of
`flush_all_pages` succeed, `new_page` gives out no id that is resident, and ids and
pins are left. -/
theorem clean_matches_disk_of_steps (poolSize : Nat) (disk : PageId → P) (nextPageId : Nat)
    (log : Option LogManager)
    (h : Steps tryStep (fun s e => s.ClientRules e ∧ s.Sound e)
      (start poolSize disk nextPageId log) s) : CleanMatchesDisk s :=
  (h.invariant tryInv_step (tryInv_start poolSize disk nextPageId log)).cleanMatchesDisk

end Ops

/-- A pool of one frame: the victim of the second `new_page` cannot be written; it is
written later by `flush_page`, and is clean then. -/
theorem clean_matches_disk_after_failure :
    ∃ s : Session SlotPage,
      Steps tryStep (fun s e => s.ClientRules e ∧ s.Sound e) (start 1 (fun _ => zero) 0 none) s ∧
        (s.bm.frames 0).dirty = false ∧ s.bm.disk (some 0) = ⟨[some [1]], 0⟩ ∧
        CleanMatchesDisk s := by
  have hstart : Steps tryStep (fun s e => s.ClientRules e ∧ s.Sound e)
      (start 1 (fun _ => (zero : SlotPage)) 0 none) (start 1 (fun _ => zero) 0 none) := .refl
  have hdirty := hstart.next (.newPage true)
      ⟨trivial, .inr fun _ hf => (by cases hf), show 0 < invalidPageId by decide⟩ rfl
    |>.next (.write ⟨0, 0, false⟩ ⟨[some [1]], 0⟩) ⟨List.mem_cons_self, trivial⟩ rfl
    |>.next (.unpinPage ⟨0, 0, true⟩ true) ⟨⟨List.mem_cons_self, fun _ => rfl⟩, trivial⟩ rfl
  have hfail := hdirty.next (.newPage false)
      ⟨trivial, .inr fun _ hf => (by cases hf), show 1 < invalidPageId by decide⟩ rfl
    |>.next (.flushPage 0 true) ⟨trivial, trivial⟩ rfl
  exact ⟨_, hfail, rfl, rfl, clean_matches_disk_of_steps 1 _ 0 none hfail⟩

/-- The write inside `flush_all_pages` fails, and the dirty bit is cleared all the
same: the page in the frame is not that of the file, and nothing will write it. -/
theorem failed_flush_all_clears_dirty :
    ∃ s : Session SlotPage,
      Steps tryStep ClientRules (start 1 (fun _ => zero) 0 none) s ∧ ¬ CleanMatchesDisk s := by
  have hstart : Steps tryStep ClientRules (start 1 (fun _ => (zero : SlotPage)) 0 none)
      (start 1 (fun _ => zero) 0 none) := .refl
  have hrun := hstart.next (.newPage true) trivial rfl
    |>.next (.write ⟨0, 0, false⟩ ⟨[some [1]], 0⟩) List.mem_cons_self rfl
    |>.next (.unpinPage ⟨0, 0, true⟩ true) ⟨List.mem_cons_self, fun _ => rfl⟩ rfl
    |>.next (.flushAllPages fun _ => false) trivial rfl
  refine ⟨_, hrun, fun h => ?_⟩
  have heq := h 0 0 rfl rfl List.not_mem_nil fun pin hpin => by cases hpin
  cases heq

end Session

end PersistX.Pool
