import PersistX.Disk.DiskManager
import PersistX.Page.Layout
import PersistX.Pool.Transparency

/-!
# PersistX — the buffer pool over the bytes of its file

`Pool/BufferManager.lean` takes the file to be a function from page ids to pages
and keeps a list of its `write_page` calls. Here the disk manager makes these
calls on a file of bytes, with pages that are their 4096 bytes. The clients
are those of `Pool/Transparency.lean`.

Main result: `reopened_pool` — when the clients have given back their pins,
`flush_all_pages` and a new disk manager on the file lose nothing: the page
counter is the one of before, and a new pool of any size fetches from every
page the bytes that were last left in it.
-/

namespace PersistX

open Bytes

namespace Image

/-- The bytes, as the code of `page.cpp` sees them. -/
def toPage (x : Image) : Page := ⟨byteAt x.val, 0⟩

def ofPage (x : Page) : Image := ⟨slice x.buf 0 pageSize, length_slice _ _ _⟩

end Image

instance : PageOps Image where
  zero := Image.zeros
  init p := Image.ofPage (Page.init p)
  inited x := PageOps.inited x.toPage
  pageLsn x := PageOps.pageLsn x.toPage
  setPageLsn x l := Image.ofPage (PageOps.setPageLsn x.toPage l)
  readRecord x s := PageOps.readRecord x.toPage s
  insertRecord x d l := (PageOps.insertRecord x.toPage d l).map fun r => (Image.ofPage r.1, r.2)
  redoInsert x s d l := Image.ofPage (PageOps.redoInsert x.toPage s d l)
  deleteRecord x s l :=
    (Image.ofPage (PageOps.deleteRecord x.toPage s l).1, (PageOps.deleteRecord x.toPage s l).2)
  updateRecord x s d l :=
    (Image.ofPage (PageOps.updateRecord x.toPage s d l).1, (PageOps.updateRecord x.toPage s d l).2)
  fits x s d := PageOps.fits x.toPage s d
  sizeOk := PageOps.sizeOk Page

end PersistX

namespace PersistX.Pool

open PageOps Transition

variable {P : Type}

-- ---------------------------------------------------------------------------
-- What a call writes
-- ---------------------------------------------------------------------------

/-- The file behind some `write_page` calls, the last one first. -/
def replay (d : PageId → P) (ws : List (Write P)) : PageId → P :=
  ws.foldr (fun w d => Function.update d w.pageId w.image) d

/-- A call of the pool writes at most one page. -/
inductive Writes (bm bm' : BufferManager P) : Option Nat → Prop where
  | none : bm'.writes = bm.writes → bm'.disk = bm.disk → Writes bm bm' none
  | one {n : Nat} {x : P} {log : Option LogManager} : bm'.writes = ⟨some n, x, log⟩ :: bm.writes →
    bm'.disk = Function.update bm.disk (some n) x → Writes bm bm' (some n)

namespace Session

/-- A page that is still to be written: its dirty bit is set, or its first unpin will do that. -/
def Due (s : Session P) (n : Nat) : Prop :=
  ∃ f, s.bm.pageTable (some n) = some f ∧ ((s.bm.frames f).dirty = true ∨ n ∈ s.fresh)

/-- The file is `d` with the writes over it, pages are allocated before they are written, and
those allocated since the counter stood at `k` are written, or due. -/
structure FileInv (d : PageId → P) (k : Nat) (s : Session P) : Prop where
  disk : s.bm.disk = replay d s.bm.writes
  allocated : ∀ w ∈ s.bm.writes, ∃ n < s.bm.nextPageId, w.pageId = some n
  kept : ∀ n, k ≤ n → n < s.bm.nextPageId → (∃ w ∈ s.bm.writes, w.pageId = some n) ∨ s.Due n
  start : k ≤ s.bm.nextPageId

variable {d : PageId → P} {k n f : Nat} {p : Option Nat} {s s' : Session P} {bm' : BufferManager P}

/-- A step keeps the invariant if what is due is written or stays due, and new pages are due. -/
theorem FileInv.next (h : FileInv d k s) (hw : Writes s.bm s'.bm p)
    (hp : ∀ n, p = some n → n < s.bm.nextPageId) (hnext : s.bm.nextPageId ≤ s'.bm.nextPageId)
    (hdue : ∀ n, s.Due n → p = some n ∨ s'.Due n)
    (hnew : ∀ n, s.bm.nextPageId ≤ n → n < s'.bm.nextPageId → s'.Due n) : FileInv d k s' := by
  have hkept : (∀ w ∈ s.bm.writes, w ∈ s'.bm.writes) →
      (∀ n, p = some n → ∃ w ∈ s'.bm.writes, w.pageId = some n) →
      ∀ n, k ≤ n → n < s'.bm.nextPageId → (∃ w ∈ s'.bm.writes, w.pageId = some n) ∨ s'.Due n := by
    intro hold hwritten n hk hn
    by_cases hlt : n < s.bm.nextPageId
    · rcases h.kept n hk hlt with ⟨w, hw, hid⟩ | hd
      · exact .inl ⟨w, hold w hw, hid⟩
      · exact (hdue n hd).imp_left (hwritten n)
    · exact .inr (hnew n (Nat.le_of_not_lt hlt) hn)
  have hgrow : ∀ w ∈ s.bm.writes, ∃ n < s'.bm.nextPageId, w.pageId = some n := by
    intro w hw
    obtain ⟨n, hn, hid⟩ := h.allocated w hw
    exact ⟨n, Nat.lt_of_lt_of_le hn hnext, hid⟩
  cases hw with
  | none hwrites hdisk =>
    refine ⟨by rw [hdisk, hwrites, h.disk], by rwa [hwrites], hkept ?_ ?_, Nat.le_trans h.start hnext⟩
    · intro w hw
      rwa [hwrites]
    · intro n hn
      cases hn
  | one hwrites hdisk =>
    refine ⟨?_, ?_, hkept ?_ ?_, Nat.le_trans h.start hnext⟩
    · rw [hdisk, hwrites, h.disk]
      rfl
    · rw [hwrites]
      intro w hw
      rcases List.mem_cons.mp hw with rfl | hw
      · exact ⟨_, Nat.lt_of_lt_of_le (hp _ rfl) hnext, rfl⟩
      · exact hgrow w hw
    · intro w hw
      rw [hwrites]
      exact List.mem_cons_of_mem _ hw
    · intro m hm
      rw [hwrites]
      exact ⟨_, List.mem_cons_self, hm⟩

/-- Only a frame changes, and its dirty bit does not go. -/
theorem FileInv.setFrame (h : FileInv d k s) {fr : Frame P} {mem : Nat → P} {pins : List Pin}
    {fresh : List Nat} {r : List Nat} (hdirty : (s.bm.frames f).dirty = true → fr.dirty = true)
    (hfresh : ∀ n, n ∈ s.fresh → n ∈ fresh ∨ s.bm.pageTable (some n) = some f ∧ fr.dirty = true) :
    FileInv d k ⟨{ s.bm.setFrame f fr with replacer := r }, mem, pins, fresh⟩ := by
  refine h.next (.none rfl rfl) (fun n hn => by cases hn) (Nat.le_refl _) ?_
    (fun n hle hlt => absurd hlt (Nat.not_lt.mpr hle))
  rintro n ⟨g, hg, hdue⟩
  right
  have hself : (s.bm.setFrame f fr).frames f = fr := Function.update_self _ _ _
  have hstays : (s.bm.frames g).dirty = true → ((s.bm.setFrame f fr).frames g).dirty = true := by
    intro hd
    by_cases hgf : g = f
    · subst hgf
      rw [hself]
      exact hdirty hd
    · have hother : (s.bm.setFrame f fr).frames g = s.bm.frames g := Function.update_of_ne hgf _ _
      rwa [hother]
  rcases hdue with hd | hfr
  · exact ⟨g, hg, .inl (hstays hd)⟩
  · rcases hfresh n hfr with hin | ⟨hf, hd⟩
    · exact ⟨g, hg, .inr hin⟩
    · exact ⟨f, hf, .inl ((congrArg Frame.dirty hself).trans hd)⟩

section Ops

variable [PageOps P]

theorem fileInv_start (poolSize : Nat) (disk : PageId → P) (nextPageId : Nat) (log : Option LogManager) :
    FileInv disk nextPageId (start poolSize disk nextPageId log) where
  disk := rfl
  allocated w hw := by cases hw
  kept n hk hn := absurd hn (Nat.not_lt.mpr hk)
  start := Nat.le_refl _

/-- Writing the page of a frame. -/
theorem writes_flushFrame {bm : BufferManager P} (h : (bm.frames f).pageId = some n) :
    Writes bm (bm.flushFrame f) (some n) := by
  have hwrites : (bm.flushFrame f).writes = ⟨some n, (bm.frames f).page,
      bm.log.map fun lm => lm.flush (pageLsn (bm.frames f).page)⟩ :: bm.writes := by
    rw [← h]
    rfl
  have hdisk : (bm.flushFrame f).disk = Function.update bm.disk (some n) (bm.frames f).page := by
    rw [← h]
    rfl
  exact .one hwrites hdisk

theorem dirty_flushFrame {bm : BufferManager P} {g : Nat} (h : g ≠ f) :
    (bm.flushFrame f).frames g = bm.frames g :=
  Function.update_of_ne h _ _

/-- A resident page is written. -/
theorem FileInv.flushFrame (h : FileInv d k s) (hinv : Inv s)
    (hf : s.bm.pageTable (some n) = some f) : FileInv d k { s with bm := s.bm.flushFrame f } := by
  obtain ⟨-, -, hid⟩ := hinv.consistent.table _ f hf
  refine h.next (writes_flushFrame hid) ?_ (Nat.le_refl _) ?_ ?_
  · intro m hm
    obtain rfl := Option.some.inj hm
    obtain ⟨m, hm, heq⟩ := hinv.allocated _ f hf
    rwa [Option.some.inj heq]
  · rintro m ⟨g, hg, hdue⟩
    by_cases hgf : g = f
    · left
      rw [← hid, ← (hinv.consistent.table _ g hg).2.2, hgf]
    · refine .inr ⟨g, hg, ?_⟩
      rwa [show ({ s with bm := s.bm.flushFrame f } : Session P).bm.frames g = s.bm.frames g from
        dirty_flushFrame hgf]
  · exact fun m hle hlt => absurd hlt (Nat.not_lt.mpr hle)

/-- The loop of `flush_all_pages`. -/
theorem FileInv.flushAllPages (h : FileInv d k s) (hinv : Inv s) :
    FileInv d k { s with bm := s.bm.flushAllPages } := by
  unfold BufferManager.flushAllPages
  have hl : ∀ f ∈ List.range s.bm.poolSize, f < s.bm.poolSize := fun _ hf => List.mem_range.mp hf
  generalize List.range s.bm.poolSize = l at hl
  induction l generalizing s with
  | nil => exact h
  | cons g l ih =>
    rw [List.foldl_cons]
    have hg := hl g List.mem_cons_self
    have hl' := fun f hf => hl f (List.mem_cons_of_mem _ hf)
    split
    · rename_i hc
      obtain ⟨n, hn⟩ := hinv.resident_of_dirty hg hc.1 hc.2
      exact ih (h.flushFrame hinv hn) (hinv.flushFrame hn) hl'
    · exact ih h hinv hl'

/-- Taking a frame writes at most the page that was in it, and this one if it was due. -/
theorem takeFrame_writes (hinv : Inv s) (ht : s.bm.takeFrame = some (bm', f)) :
    ∃ p, Writes s.bm bm' p ∧ (∀ n, p = some n → n < s.bm.nextPageId) ∧
      ∀ n g, s.bm.pageTable (some n) = some g → (s.bm.frames g).dirty = true ∨ n ∈ s.fresh →
        p = some n ∨ g ≠ f ∧ bm'.pageTable (some n) = some g := by
  rcases BufferManager.takeFrame_cases ht with ⟨fl, hfree, rfl⟩ | ⟨r, hfree, hrepl, rfl⟩
  · refine ⟨none, .none rfl rfl, (fun n hn => by cases hn), fun n g hg _ => .inr ⟨?_, hg⟩⟩
    rintro rfl
    exact (hinv.consistent.table _ g hg).2.1 (hfree ▸ List.mem_cons_self)
  · have hmem : f ∈ s.bm.replacer := by
      rw [hrepl]
      exact List.mem_append_right r (List.mem_singleton.mpr rfl)
    obtain ⟨hlt, hnfree, hpin⟩ := (hinv.consistent.evictable.2 f).mp hmem
    have hpins := hinv.notPinned hlt hnfree hpin
    have hres := hinv.consistent.resident f hlt hnfree
    obtain ⟨m, hm, hid⟩ := hinv.allocated _ f hres
    have hshape := BufferManager.sameShape_evictPage { s.bm with replacer := r } f
    have htable : ({ s.bm with replacer := r }.evictPage f).pageTable
        = Function.update s.bm.pageTable (some m) none := hshape.pageTable.trans (by rw [hid])
    have hother : ∀ n g, g ≠ f → s.bm.pageTable (some n) = some g →
        ({ s.bm with replacer := r }.evictPage f).pageTable (some n) = some g := by
      intro n g hgf hg
      rw [htable, Function.update_of_ne, hg]
      intro heq
      rw [← hid] at heq
      rw [heq, hres] at hg
      exact hgf (Option.some.inj hg).symm
    by_cases hdirty : (s.bm.frames f).dirty = true
    · refine ⟨some m, ?_, fun n hn => ?_, fun n g hg _ => ?_⟩
      · rw [BufferManager.evictPage, if_pos hdirty]
        have hevict : ({ s.bm with replacer := r }.frames f).pageId = some m := hid
        cases writes_flushFrame hevict with
        | one hwrites hdisk => exact .one hwrites hdisk
      · exact Option.some.inj hn ▸ hm
      · by_cases hgf : g = f
        · left
          rw [← hid, ← (hinv.consistent.table _ g hg).2.2, hgf]
        · exact .inr ⟨hgf, hother n g hgf hg⟩
    · refine ⟨none, ?_, (fun n hn => by cases hn), fun n g hg hdue => ?_⟩
      · rw [BufferManager.evictPage, if_neg hdirty]
        exact .none rfl rfl
      · -- a frame that is clean and has no pin is not due
        have hgf : g ≠ f := by
          rintro rfl
          rcases hdue with hd | hfresh
          · exact hdirty hd
          · obtain ⟨pin, hpin, hpage⟩ := hinv.fresh n hfresh
            have hframe := hinv.pinned pin hpin
            rw [hpage, hg] at hframe
            exact hpins pin hpin (Option.some.inj hframe).symm
        exact .inr ⟨hgf, hother n g hgf hg⟩

/-- A page is put into a frame that was taken. -/
theorem FileInv.install (h : FileInv d k s) (hinv : Inv s) (ht : s.bm.takeFrame = some (bm', f))
    {m j : Nat} (hm : bm'.pageTable (some m) = none) (hj : s.bm.nextPageId ≤ j) {x : P}
    {mem : Nat → P} {pins : List Pin} {fresh : List Nat} (hfresh : ∀ n ∈ s.fresh, n ∈ fresh)
    (hnew : ∀ n, s.bm.nextPageId ≤ n → n < j → n = m ∧ n ∈ fresh) :
    FileInv d k ⟨{ bm' with nextPageId := j }.install f (some m) x, mem, pins, fresh⟩ := by
  obtain ⟨p, hw, hp, hkeep⟩ := takeFrame_writes hinv ht
  have hframes := (takeFrame_spec hinv ht).1
  have hw' : Writes s.bm ({ bm' with nextPageId := j }.install f (some m) x) p := by
    cases hw with
    | none hwrites hdisk => exact .none hwrites hdisk
    | one hwrites hdisk => exact .one hwrites hdisk
  refine h.next hw' hp hj ?_ ?_
  · rintro n ⟨g, hg, hdue⟩
    rcases hkeep n g hg hdue with hn | ⟨hgf, hg'⟩
    · exact .inl hn
    · refine .inr ⟨g, ?_, hdue.imp (fun hd => ?_) (hfresh n)⟩
      · have hne : some n ≠ some m := by
          intro heq
          rw [heq, hm] at hg'
          cases hg'
        exact (Function.update_of_ne hne _ _).trans hg'
      · have hframe : ({ bm' with nextPageId := j }.install f (some m) x).frames g = s.bm.frames g := by
          rw [← hframes g hgf]
          exact Function.update_of_ne hgf _ _
        exact (congrArg Frame.dirty hframe).trans hd
  · intro n hle hlt
    obtain ⟨rfl, hmem⟩ := hnew n hle hlt
    exact ⟨f, Function.update_self _ _ _, .inr hmem⟩

/-- Every event keeps the invariant. -/
theorem fileInv_step (s : Session P) (e : ClientEvent P) (s' : Session P)
    (h : Inv s ∧ FileInv d k s) (hok : s.Allowed e) (hs : s.step e = some s') :
    Inv s' ∧ FileInv d k s' := by
  obtain ⟨hinv, h⟩ := h
  refine ⟨inv_step s e s' hinv hok hs, ?_⟩
  cases e with
  | fetchPage n =>
    simp only [step] at hs
    cases hp : s.bm.pageTable (some n) with
    | some f =>
      obtain ⟨r, hr⟩ := fetchPage_eq hp
      rw [hr] at hs
      obtain rfl := Option.some.inj hs
      exact h.setFrame id fun n hn => .inl hn
    | none =>
      unfold BufferManager.fetchPage at hs
      rw [hp] at hs
      cases ht : s.bm.takeFrame with
      | none =>
        rw [ht] at hs
        obtain rfl := Option.some.inj hs
        exact h
      | some r =>
        obtain ⟨bm', f⟩ := r
        rw [ht] at hs
        obtain rfl := Option.some.inj hs
        have hnext := BufferManager.takeFrame_nextPageId ht
        exact h.install (j := bm'.nextPageId) hinv ht (BufferManager.takeFrame_pageTable ht hp)
          (Nat.le_of_eq hnext.symm) (fun _ hn => hn) fun n hle hlt =>
            absurd (hnext ▸ hlt) (Nat.not_lt.mpr hle)
  | newPage =>
    simp only [step] at hs
    cases ht : s.bm.takeFrame with
    | none =>
      rw [BufferManager.newPage_of_takeFrame_none ht] at hs
      obtain rfl := Option.some.inj hs
      exact h
    | some r =>
      obtain ⟨bm', f⟩ := r
      rw [BufferManager.newPage_of_idsLeft hok ht] at hs
      obtain rfl := Option.some.inj hs
      refine h.install hinv ht (BufferManager.takeFrame_pageTable ht hinv.pageTable_nextPageId)
        (Nat.le_succ _) (fun _ hn => List.mem_cons_of_mem _ hn) fun n hle hlt => ?_
      obtain rfl : n = s.bm.nextPageId := by omega
      exact ⟨rfl, List.mem_cons_self⟩
  | write pin page =>
    obtain rfl := Option.some.inj hs
    exact h.setFrame (r := s.bm.replacer) id fun n hn => .inl hn
  | unpinPage pin isDirty =>
    obtain rfl := Option.some.inj hs
    obtain ⟨hres, hself, hcount⟩ := hinv.pin hok.1
    obtain ⟨r, hr⟩ := unpinPage_eq hres (by omega) isDirty
    simp only [hr]
    refine h.setFrame (fun hd => by simp [hd]) fun n hn => ?_
    by_cases hpage : n = pin.page
    · -- the first unpin of a new page sets its dirty bit
      subst hpage
      exact .inr ⟨hres, by simp [hok.2 (.inr hn)]⟩
    · exact .inl (List.mem_filter.mpr ⟨hn, by simpa using hpage⟩)
  | flushPage n =>
    obtain rfl := Option.some.inj hs
    unfold BufferManager.flushPage
    split
    · exact h
    · rename_i f hf
      exact h.flushFrame hinv hf
  | flushAllPages =>
    obtain rfl := Option.some.inj hs
    exact h.flushAllPages hinv

/-- Behind `flush_all_pages`, without pins, all pages are written that were allocated since. -/
theorem FileInv.written (h : FileInv d k s) (hinv : Inv s) (hpins : s.pins = []) (hk : k ≤ n)
    (hn : n < s.bm.nextPageId) : ∃ w ∈ s.bm.flushAllPages.writes, w.pageId = some n := by
  obtain ⟨hinv', hclean⟩ := hinv.flushAllPages_loop (List.range s.bm.poolSize)
    fun _ hf => List.mem_range.mp hf
  have hshape := BufferManager.sameShape_flushAllPages s.bm
  rcases (h.flushAllPages hinv).kept n hk (hshape.nextPageId ▸ hn) with hw | ⟨f, hf, hdirty | hfresh⟩
  · exact hw
  · obtain ⟨hlt, -, hid⟩ := hinv'.consistent.table _ f hf
    have hnone : (s.bm.flushAllPages.frames f).pageId ≠ none := by
      intro hnil
      exact absurd (hid.symm.trans hnil) (Option.some_ne_none n)
    have hnot := (hclean f ⟨hnone, hdirty⟩).1
    exact absurd (List.mem_range.mpr (hshape.poolSize ▸ hlt)) hnot
  · obtain ⟨pin, hpin, -⟩ := hinv.fresh n hfresh
    rw [hpins] at hpin
    cases hpin

end Ops

end Session

-- ---------------------------------------------------------------------------
-- The calls on the file of bytes
-- ---------------------------------------------------------------------------

/-- A `page_id_t` as a number. -/
def number (p : PageId) : Nat := p.getD invalidPageId

/-- What `read_page` gives. -/
def diskOf (dm : DiskManager) : PageId → Image := fun p => dm.readPage (number p)

/-- `write_page` calls, the last one first. -/
def perform (dm : DiskManager) (ws : List (Write Image)) : DiskManager :=
  ws.foldr (fun w dm => (dm.writePage (number w.pageId) w.image pageSize).1) dm

variable {dm : DiskManager} {ws : List (Write Image)} {n k : Nat} {s : Session Image}

/-- A write that gets to its end leaves nothing of the old page. -/
theorem tear_pageSize (src old : Image) : src.tear old pageSize = src := by
  apply Subtype.ext
  show src.val.take pageSize ++ old.val.drop pageSize = src.val
  rw [List.take_of_length_le (Nat.le_of_eq src.2), List.drop_of_length_le (Nat.le_of_eq old.2),
    List.append_nil]

/-- The file has the last writes. -/
theorem readPage_perform (hws : ∀ w ∈ ws, ∃ m, w.pageId = some m) (n : Nat) :
    (perform dm ws).readPage n = replay (diskOf dm) ws (some n) := by
  induction ws with
  | nil => rfl
  | cons w ws ih =>
    rw [List.forall_mem_cons] at hws
    obtain ⟨⟨m, hm⟩, hws⟩ := hws
    show ((perform dm ws).writePage (number w.pageId) w.image pageSize).1.readPage n =
      Function.update (replay (diskOf dm) ws) w.pageId w.image (some n)
    rw [hm]
    by_cases hn : n = m
    · subst hn
      rw [Function.update_self]
      exact DiskManager.readPage_writePage_self.trans (tear_pageSize _ _)
    · rw [Function.update_of_ne (fun h => hn (Option.some.inj h)), ← ih hws]
      exact DiskManager.readPage_writePage_of_ne hn

/-- The file has the pages that were there and those that were written. -/
theorem count_perform (dm : DiskManager) (ws : List (Write Image)) :
    (∀ w ∈ ws, number w.pageId < (perform dm ws).file.length / pageSize) ∧
    dm.file.length / pageSize ≤ (perform dm ws).file.length / pageSize ∧
    ∀ k, dm.file.length / pageSize ≤ k → (∀ w ∈ ws, number w.pageId < k) →
      (perform dm ws).file.length / pageSize ≤ k := by
  induction ws with
  | nil => exact ⟨fun w hw => absurd hw List.not_mem_nil, Nat.le_refl _, fun k hk _ => hk⟩
  | cons w ws ih =>
    obtain ⟨hin, hle, hmax⟩ := ih
    have hcount : (perform dm (w :: ws)).file.length / pageSize =
        max ((perform dm ws).file.length / pageSize) (number w.pageId + 1) :=
      DiskManager.count_writePage
    rw [hcount]
    refine ⟨List.forall_mem_cons.mpr ⟨by omega, fun v hv => ?_⟩, by omega, fun k hk hws => ?_⟩
    · have := hin v hv
      omega
    · rw [List.forall_mem_cons] at hws
      have := hmax k hk hws.2
      omega

/-- The pool's clients, on a pool over this file. -/
def Clients (file : Bytes) (poolSize : Nat) (log : Option LogManager) : Session Image → Prop :=
  Steps Session.step Session.Allowed
    (Session.start poolSize (diskOf (.new file)) (DiskManager.new file).nextPageId log)

/-- `flush_all_pages`, and the file is closed and opened again. -/
def reopen (file : Bytes) (s : Session Image) : DiskManager :=
  .new (perform (.new file) s.bm.flushAllPages.writes).file

/-- Closing the file when no pin is left loses neither a page nor its id. -/
theorem reopened_pool {file : Bytes} {poolSize : Nat} {log : Option LogManager}
    (hfile : file.length / pageSize < 2 ^ 32) (h : Clients file poolSize log s)
    (hids : s.bm.nextPageId < 2 ^ 32) (hpins : s.pins = []) :
    (reopen file s).nextPageId = s.bm.nextPageId ∧
      ∀ size > 0, ∀ log n, ∃ bm f,
        (BufferManager.new size (diskOf (reopen file s)) (reopen file s).nextPageId log).fetchPage
          (some n) = (bm, some f) ∧ (bm.frames f).page = s.mem n := by
  obtain ⟨hinv, hf⟩ := h.invariant Session.fileInv_step
    ⟨Session.inv_start _ _ _ _, Session.fileInv_start _ _ _ _⟩
  have hflush := hf.flushAllPages hinv
  have hnext := (BufferManager.sameShape_flushAllPages s.bm).nextPageId
  have hstart : (DiskManager.new file).nextPageId = file.length / pageSize := Nat.mod_eq_of_lt hfile
  constructor
  · obtain ⟨hin, hle, hmax⟩ := count_perform (.new file) s.bm.flushAllPages.writes
    have hcount : (perform (.new file) s.bm.flushAllPages.writes).file.length / pageSize =
        s.bm.nextPageId := by
      apply Nat.le_antisymm
      · refine hmax _ (hstart ▸ hf.start) fun w hw => ?_
        obtain ⟨m, hm, hid⟩ := hflush.allocated w hw
        rw [hid]
        exact hnext ▸ hm
      · -- the last page that was allocated is written
        by_contra hlt
        have hmore := Nat.lt_of_not_le hlt
        have hpos := Nat.lt_of_le_of_lt (Nat.zero_le _) hmore
        have hlast : (DiskManager.new file).nextPageId ≤ s.bm.nextPageId - 1 :=
          hstart ▸ Nat.le_sub_one_of_lt (Nat.lt_of_le_of_lt hle hmore)
        obtain ⟨w, hw, hid⟩ := hf.written hinv hpins hlast (Nat.sub_lt hpos Nat.one_pos)
        have hnum := hin w hw
        rw [hid] at hnum
        have : number (some (s.bm.nextPageId - 1)) = s.bm.nextPageId - 1 := rfl
        omega
    rw [reopen, DiskManager.new, hcount, Nat.mod_eq_of_lt hids]
  · intro size hsize log n
    have hpage : diskOf (reopen file s) (some n) = s.mem n := by
      rw [← hinv.disk_flushAllPages hpins n, hflush.disk]
      refine (DiskManager.readPage_congr rfl).trans (readPage_perform (fun w hw => ?_) n)
      obtain ⟨m, -, hid⟩ := hflush.allocated w hw
      exact ⟨m, hid⟩
    rw [← hpage]
    exact Session.fetchPage_new hsize _ _ log (some n)

/-- Two pages through a pool of one frame; the first one is evicted before the second is there. -/
theorem reopened_two_pages : ∃ s : Session Image, Clients [] 1 none s ∧ s.mem 0 = PageOps.init 0 ∧
    (reopen [] s).nextPageId = 2 ∧ ∃ bm f,
      (BufferManager.new 3 (diskOf (reopen [] s)) (reopen [] s).nextPageId none).fetchPage (some 0) =
        (bm, some f) ∧ (bm.frames f).page = s.mem 0 := by
  have hstart : Clients [] 1 none (.start 1 (diskOf (.new [])) (DiskManager.new []).nextPageId none) :=
    .refl
  have hfirst := hstart.next .newPage (show 0 < invalidPageId by decide) rfl
    |>.next (.unpinPage ⟨0, 0, false⟩ true) ⟨List.mem_cons_self, fun _ => rfl⟩ rfl
  have hsecond := hfirst.next .newPage (show 1 < invalidPageId by decide) rfl
    |>.next (.unpinPage ⟨1, 0, false⟩ true) ⟨List.mem_cons_self, fun _ => rfl⟩ rfl
  obtain ⟨hcount, hfetch⟩ := reopened_pool (by decide) hsecond (by decide) rfl
  exact ⟨_, hsecond, rfl, hcount, hfetch 3 (by decide) none 0⟩

end PersistX.Pool
