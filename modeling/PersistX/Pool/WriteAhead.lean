import PersistX.Pool.Representation
import PersistX.Lib.Transition

/-!
# PersistX — the write-ahead rule of the buffer pool

The pool writes pages from four places (`fetch_page`, `new_page`, `flush_page`,
`flush_all_pages`), always behind `enforce_wal`. A run here mixes the calls of
the pool with those of the log manager, with clients that change the pages in
the frames, and with restarts: a restart loses the pool and the unflushed log
records, opens a new log manager on the log file and reads the log. `flush`
stops early on `flushed_lsn_`, which a new log manager does not know; the LSNs
on pages from earlier runs are below the counter all the same.

Main result: `writeAhead_of_steps` — at every `write_page` of every such run,
the log records up to the page's LSN are in the log file.
-/

namespace PersistX.Pool

open PageOps LawfulPageOps Transition

variable {P : Type}

/-- At the moment of a `write_page`, every log record with an LSN up to that of
the page is in the log file, and the page's own LSN, unless it is the initial 0,
is that of a record in the file. -/
def Write.WriteAhead [PageOps P] (w : Write P) : Prop :=
  ∃ lm, w.log = some lm ∧
    (∀ r ∈ lm.log, r.lsn ≤ pageLsn w.image → r ∈ lm.file) ∧
    (pageLsn w.image = 0 ∨ ∃ r ∈ lm.file, r.lsn = pageLsn w.image)

namespace BufferManager

/-- What happens around the pool. -/
inductive Event (P : Type)
  | pool (op : Op)
  | append (txnId : Nat) (prevLsn : Option Nat) (body : RecordBody)
  | flush (upTo : Nat)
  | flushAll
  /-- A client changes the page in a frame. -/
  | modify (f : Nat) (page : P)
  /-- A new pool and a new log manager on the two files; `read_log` is called on open. -/
  | restart (poolSize nextPageId : Nat)

section Ops

variable [PageOps P]

/-- The effect of an event. -/
def step (bm : BufferManager P) : Event P → Option (BufferManager P)
  | .pool op => some (bm.apply op)
  | .append t pr b => some { bm with log := bm.log.map fun lm => (lm.append t pr b).1 }
  | .flush l => some { bm with log := bm.log.map fun lm => lm.flush l }
  | .flushAll => some { bm with log := bm.log.map LogManager.flushAll }
  | .modify f page => some (bm.setFrame f { bm.frames f with page := page })
  | .restart poolSize nextPageId =>
    some { new poolSize bm.disk nextPageId
        (bm.log.map fun lm => (LogManager.ofFile lm.file).readLog.1) with
      writes := bm.writes }

/-- Clients set the LSN of a page only to one that `append` has returned; `init` sets it to 0. -/
def Allowed (bm : BufferManager P) : Event P → Prop
  | .modify f page => pageLsn page = pageLsn (bm.frames f).page ∨ pageLsn page = 0 ∨
      ∃ lm, bm.log = some lm ∧ ∃ r ∈ lm.log, r.lsn = pageLsn page
  | _ => True

-- ---------------------------------------------------------------------------
-- The invariant
-- ---------------------------------------------------------------------------

/-- The LSN of the page is 0 or that of a record of the list. -/
def Stamped (l : List Record) (x : P) : Prop := pageLsn x = 0 ∨ pageLsn x < l.length

/-- Pages in frames carry LSNs of the log, pages on disk LSNs of the log file. -/
structure WalInv (bm : BufferManager P) (lm : LogManager) : Prop where
  log : bm.log = some lm
  ok : lm.Ok
  lsn : ∀ (i : Nat) (r : Record), lm.log[i]? = some r → r.lsn = i
  frames : ∀ f, Stamped lm.log (bm.frames f).page
  disk : ∀ p, Stamped lm.file (bm.disk p)
  writes : ∀ w ∈ bm.writes, w.WriteAhead

variable {bm bm' : BufferManager P} {lm lm' : LogManager} {f : Nat} {x : P}

theorem Stamped.mono {l l' : List Record} (h : Stamped l x) (hle : l.length ≤ l'.length) :
    Stamped l' x := by
  rcases h with h | h
  · exact .inl h
  · exact .inr (by omega)

/-- The invariant looks only at pages, log and writes. -/
theorem WalInv.congr (h : WalInv bm lm) (hlog : bm'.log = bm.log)
    (hframes : ∀ f, (bm'.frames f).page = (bm.frames f).page) (hdisk : bm'.disk = bm.disk)
    (hwrites : bm'.writes = bm.writes) : WalInv bm' lm where
  log := hlog.trans h.log
  ok := h.ok
  lsn := h.lsn
  frames f := by
    rw [hframes]
    exact h.frames f
  disk := by
    rw [hdisk]
    exact h.disk
  writes := by
    rw [hwrites]
    exact h.writes

/-- A log manager that has the same records, more of them in the file. -/
theorem WalInv.setLog (h : WalInv bm lm) (hok : lm'.Ok) (hlog : lm'.log = lm.log)
    (hfile : lm.file.length ≤ lm'.file.length) : WalInv { bm with log := some lm' } lm' where
  log := rfl
  ok := hok
  lsn := by
    rw [hlog]
    exact h.lsn
  frames := by
    rw [hlog]
    exact h.frames
  disk p := (h.disk p).mono hfile
  writes := h.writes

/-- Put a page with a known LSN into a frame. -/
theorem WalInv.setFrame (h : WalInv bm lm) {fr : Frame P} (hfr : Stamped lm.log fr.page) :
    WalInv (bm.setFrame f fr) lm where
  log := h.log
  ok := h.ok
  lsn := h.lsn
  frames g := by
    unfold BufferManager.setFrame
    simp only [Function.update_apply]
    split
    · exact hfr
    · exact h.frames g
  disk := h.disk
  writes := h.writes

/-- **`enforce_wal`.** Behind it every record up to the page's LSN is in the file. -/
theorem flush_writeAhead (hok : lm.Ok)
    (hlsn : ∀ (i : Nat) (r : Record), lm.log[i]? = some r → r.lsn = i) (l : Nat) :
    ∀ r ∈ (lm.flush l).log, r.lsn ≤ l → r ∈ (lm.flush l).file := by
  intro r hr hle
  rw [LogManager.flush_log] at hr
  obtain ⟨i, hi⟩ := List.mem_iff_getElem?.mp hr
  have hri := hlsn i r hi
  unfold LogManager.flush
  split
  · rename_i fl hfl
    split
    · -- `flush` stops early: the LSN is below `flushed_lsn_`
      have hflushed := hok.flushed fl hfl
      have hget : lm.file[i]? = some r := by
        rw [← hi, LogManager.log, List.getElem?_append_left (by omega)]
      exact List.mem_of_getElem? hget
    · rw [LogManager.flushAll_file]
      exact hr
  · rw [LogManager.flushAll_file]
    exact hr

/-- Writing a frame behind `enforce_wal`. -/
theorem WalInv.flushFrame (h : WalInv bm lm) (f : Nat) :
    WalInv (bm.flushFrame f) (lm.flush (pageLsn (bm.frames f).page)) := by
  generalize hl : pageLsn (bm.frames f).page = l
  have hwal : (bm.enforceWal f) = { bm with log := some (lm.flush l) } := by
    unfold enforceWal
    rw [h.log, hl]
    rfl
  have hlog : WalInv (bm.enforceWal f) (lm.flush l) := by
    rw [hwal]
    exact h.setLog (h.ok.flush l) (LogManager.flush_log l) (LogManager.length_file_le_flush l)
  have hpage : ((bm.enforceWal f).frames f).page = (bm.frames f).page := rfl
  have hstamp : Stamped (lm.flush l).file (bm.frames f).page := by
    rcases h.frames f with h0 | hlt
    · exact .inl h0
    · rw [hl] at hlt
      exact .inr (by rw [hl]; exact h.ok.lt_flush hlt)
  have hwrite : WalInv ((bm.enforceWal f).writePage f) (lm.flush l) := by
    refine ⟨hlog.log, hlog.ok, hlog.lsn, hlog.frames, fun p => ?_, fun w hw => ?_⟩
    · unfold writePage
      simp only [Function.update_apply]
      split
      · exact hstamp
      · exact hlog.disk p
    · rcases List.mem_cons.mp hw with rfl | hw
      · refine ⟨lm.flush l, hlog.log, ?_, ?_⟩
        · simp only [hpage, hl]
          exact flush_writeAhead h.ok h.lsn l
        · simp only [hpage]
          rcases hstamp with h0 | hlt
          · exact .inl h0
          · refine .inr ⟨(lm.flush l).file[pageLsn (bm.frames f).page], List.getElem_mem hlt, ?_⟩
            refine hlog.lsn _ _ ?_
            rw [LogManager.log, List.getElem?_append_left hlt]
            exact List.getElem?_eq_getElem hlt
      · exact hlog.writes w hw
  exact hwrite.setFrame (hwrite.frames f)

-- ---------------------------------------------------------------------------
-- One event
-- ---------------------------------------------------------------------------

theorem WalInv.evictPage (h : WalInv bm lm) (f : Nat) : ∃ lm', WalInv (bm.evictPage f) lm' := by
  unfold BufferManager.evictPage
  split
  · exact ⟨_, (h.flushFrame f).congr rfl (fun _ => rfl) rfl rfl⟩
  · exact ⟨lm, h.congr rfl (fun _ => rfl) rfl rfl⟩

theorem WalInv.takeFrame (h : WalInv bm lm) (ht : bm.takeFrame = some (bm', f)) :
    ∃ lm', WalInv bm' lm' := by
  rcases takeFrame_cases ht with ⟨fl, _, rfl⟩ | ⟨r, _, _, rfl⟩
  · exact ⟨lm, h.congr rfl (fun _ => rfl) rfl rfl⟩
  · have hr : WalInv { bm with replacer := r } lm := h.congr rfl (fun _ => rfl) rfl rfl
    exact hr.evictPage f

theorem WalInv.install (h : WalInv bm lm) (f : Nat) (p : PageId) (hx : Stamped lm.log x) :
    WalInv (bm.install f p x) lm := by
  have hset : WalInv (bm.setFrame f ⟨p, x, 1, false⟩) lm := h.setFrame hx
  exact hset.congr rfl (fun _ => rfl) rfl rfl

theorem WalInv.fetchPage (h : WalInv bm lm) (p : PageId) :
    ∃ lm', WalInv (bm.fetchPage p).1 lm' := by
  unfold BufferManager.fetchPage
  split
  · rename_i f _
    have hset : WalInv
        (bm.setFrame f { bm.frames f with pinCount := (bm.frames f).pinCount + 1 }) lm :=
      h.setFrame (h.frames f)
    exact ⟨lm, hset.congr rfl (fun _ => rfl) rfl rfl⟩
  · split
    · exact ⟨lm, h⟩
    · rename_i bm' f ht
      obtain ⟨lm', h'⟩ := h.takeFrame ht
      exact ⟨lm', h'.install f p ((h'.disk p).mono LogManager.length_file_le)⟩

theorem WalInv.unpinPage (h : WalInv bm lm) (p : PageId) (d : Bool) :
    WalInv (bm.unpinPage p d).1 lm := by
  unfold BufferManager.unpinPage
  split
  · exact h
  · rename_i f _
    have hset : WalInv (bm.setFrame f { bm.frames f with
        pinCount := (bm.frames f).pinCount - 1, dirty := (bm.frames f).dirty || d }) lm :=
      h.setFrame (h.frames f)
    simp only
    split
    · exact h
    · split
      · exact hset.congr rfl (fun _ => rfl) rfl rfl
      · exact hset

theorem WalInv.flushPage (h : WalInv bm lm) (p : PageId) :
    ∃ lm', WalInv (bm.flushPage p).1 lm' := by
  unfold BufferManager.flushPage
  split
  · exact ⟨lm, h⟩
  · exact ⟨_, h.flushFrame _⟩

theorem WalInv.flushAllPages (h : WalInv bm lm) : ∃ lm', WalInv bm.flushAllPages lm' := by
  unfold BufferManager.flushAllPages
  generalize List.range bm.poolSize = l
  induction l generalizing bm lm with
  | nil => exact ⟨lm, h⟩
  | cons f l ih =>
    rw [List.foldl_cons]
    split
    · exact ih (h.flushFrame f)
    · exact ih h

theorem WalInv.deletePage (h : WalInv bm lm) (p : PageId) : WalInv (bm.deletePage p).1 lm := by
  unfold BufferManager.deletePage
  split
  · exact h
  · rename_i f _
    split
    · exact h
    · have hset : WalInv (bm.setFrame f { bm.frames f with
          pageId := none, dirty := false, pinCount := 0 }) lm := h.setFrame (h.frames f)
      exact hset.congr rfl (fun _ => rfl) rfl rfl

end Ops

section Laws

variable [LawfulPageOps P] {bm bm' : BufferManager P} {lm : LogManager}

theorem pageLsn_init (p : Nat) : pageLsn (init p : P) = 0 :=
  (eqv_lsn (eqv_init p)).trans lsn_zero

theorem WalInv.newPage (h : WalInv bm lm) : ∃ lm', WalInv bm.newPage.1 lm' := by
  cases ht : bm.takeFrame with
  | none =>
    refine ⟨lm, ?_⟩
    rw [newPage_of_takeFrame_none ht]
    exact h
  | some r =>
    obtain ⟨bm', f⟩ := r
    obtain ⟨lm', h'⟩ := h.takeFrame ht
    rw [newPage_eq_of_takeFrame ht]
    have hnext : WalInv { bm' with nextPageId := (bm.nextPageId + 1) % 2 ^ 32 } lm' :=
      h'.congr rfl (fun _ => rfl) rfl rfl
    exact ⟨lm', hnext.install f _ (.inl (pageLsn_init _))⟩

theorem WalInv.apply (h : WalInv bm lm) (op : Op) : ∃ lm', WalInv (bm.apply op) lm' := by
  cases op with
  | fetchPage p => exact h.fetchPage p
  | newPage => exact h.newPage
  | unpinPage p d => exact ⟨lm, h.unpinPage p d⟩
  | flushPage p => exact h.flushPage p
  | flushAllPages => exact h.flushAllPages
  | deletePage p => exact ⟨lm, h.deletePage p⟩

theorem WalInv.append (h : WalInv bm lm) (t : Nat) (pr : Option Nat) (b : RecordBody) :
    WalInv { bm with log := some (lm.append t pr b).1 } (lm.append t pr b).1 where
  log := rfl
  ok := h.ok.append t pr b
  lsn i r hr := by
    rw [LogManager.append_log] at hr
    rcases Nat.lt_or_ge i lm.log.length with hlt | hge
    · rw [List.getElem?_append_left hlt] at hr
      exact h.lsn i r hr
    · rw [List.getElem?_append_right hge] at hr
      obtain ⟨hi, hrec⟩ := List.getElem?_eq_some_iff.mp hr
      have hi' : i = lm.log.length := by
        rw [List.length_singleton] at hi
        omega
      subst hi'
      rw [← h.ok.next]
      simp at hrec
      rw [← hrec]
  frames f := (h.frames f).mono (by rw [LogManager.append_log, List.length_append]; omega)
  disk := h.disk
  writes := h.writes

/-- Restart: what is on disk carries LSNs of the log file, and there is nothing else. -/
theorem WalInv.restart (h : WalInv bm lm) (poolSize nextPageId : Nat) :
    WalInv { new poolSize bm.disk nextPageId (some (LogManager.ofFile lm.file).readLog.1) with
      writes := bm.writes } (LogManager.ofFile lm.file).readLog.1 := by
  have hfile : ∀ (i : Nat) (r : Record), lm.file[i]? = some r → r.lsn = i := by
    intro i r hr
    refine h.lsn i r ?_
    rw [LogManager.log, List.getElem?_append_left (List.getElem?_eq_some_iff.mp hr).1]
    exact hr
  have hlog : (LogManager.ofFile lm.file).readLog.1.log = lm.file := List.append_nil _
  refine ⟨rfl, LogManager.readLog_ok hfile, ?_, fun _ => .inl lsn_zero, h.disk, h.writes⟩
  rw [hlog]
  exact hfile

/-- Every event keeps the invariant. -/
theorem walInv_step (bm : BufferManager P) (e : Event P) (bm' : BufferManager P)
    (h : ∃ lm, WalInv bm lm) (hok : bm.Allowed e) (hs : bm.step e = some bm') :
    ∃ lm, WalInv bm' lm := by
  obtain ⟨lm, h⟩ := h
  cases e <;> obtain rfl := Option.some.inj hs
  case pool op => exact h.apply op
  case append t pr b =>
    refine ⟨(lm.append t pr b).1, ?_⟩
    simp only [h.log]
    exact h.append t pr b
  case flush l =>
    refine ⟨lm.flush l, ?_⟩
    simp only [h.log]
    exact h.setLog (h.ok.flush l) (LogManager.flush_log l) (LogManager.length_file_le_flush l)
  case flushAll =>
    refine ⟨lm.flushAll, ?_⟩
    simp only [h.log]
    refine h.setLog h.ok.flushAll LogManager.flushAll_log ?_
    rw [LogManager.flushAll_file]
    exact LogManager.length_file_le
  case modify f page =>
    refine ⟨lm, h.setFrame ?_⟩
    rcases hok with hsame | hzero | ⟨lm', hlm, r, hr, hlsn⟩
    · have hold := h.frames f
      unfold Stamped at hold ⊢
      rw [hsame]
      exact hold
    · exact .inl hzero
    · obtain rfl := Option.some.inj (h.log.symm.trans hlm)
      obtain ⟨i, hi⟩ := List.mem_iff_getElem?.mp hr
      right
      rw [← hlsn, h.lsn i r hi]
      exact (List.getElem?_eq_some_iff.mp hi).1
  case restart n k =>
    refine ⟨(LogManager.ofFile lm.file).readLog.1, ?_⟩
    simp only [h.log]
    exact h.restart n k

-- ---------------------------------------------------------------------------
-- Runs
-- ---------------------------------------------------------------------------

theorem walInv_new (poolSize : Nat) :
    WalInv (new poolSize (fun _ => (zero : P)) 0 (some (LogManager.ofFile [])))
      (LogManager.ofFile []) where
  log := rfl
  ok := ⟨rfl, fun f hf => by cases hf⟩
  lsn i r hr := by cases hr
  frames _ := .inl lsn_zero
  disk _ := .inl lsn_zero
  writes w hw := by cases hw

/-- **Write-ahead rule of the buffer pool.** In every run from an empty
database, over any number of restarts, every page that the pool wrote went to
the file behind all log records up to its LSN. -/
theorem writeAhead_of_steps (poolSize : Nat) {bm : BufferManager P}
    (h : Steps step Allowed (new poolSize (fun _ => zero) 0 (some (LogManager.ofFile []))) bm) :
    ∀ w ∈ bm.writes, w.WriteAhead := by
  obtain ⟨lm, hinv⟩ := h.invariant walInv_step ⟨_, walInv_new poolSize⟩
  exact hinv.writes

end Laws

/-- A record is appended, its LSN put on a page, the page flushed, read by a new
pool and flushed again. -/
theorem append_modify_flush_writeAhead :
    let bm : BufferManager SlotPage := new 1 (fun _ => zero) 0 (some (LogManager.ofFile []))
    ∃ bm', Steps step Allowed bm bm' ∧ bm'.writes ≠ [] ∧ ∀ w ∈ bm'.writes, w.WriteAhead := by
  intro bm
  have hstart : Steps step Allowed bm bm := .refl
  have hlogged := hstart.next (.append 1 none .begin) trivial rfl
    |>.next (.append 1 (some 0) .commit) trivial rfl
  have hpage := hlogged.next (.pool .newPage) trivial rfl
    |>.next (.modify 0 ⟨[], 1⟩) (.inr (.inr ⟨_, rfl, ⟨1, 1, some 0, .commit⟩, by decide, rfl⟩)) rfl
  have hrun := hpage.next (.pool (.flushPage (some 0))) trivial rfl
    |>.next (.restart 1 1) trivial rfl
    |>.next (.pool (.fetchPage (some 0))) trivial rfl
    |>.next (.pool (.flushPage (some 0))) trivial rfl
  exact ⟨_, hrun, List.cons_ne_nil _ _, writeAhead_of_steps 1 hrun⟩


end BufferManager

end PersistX.Pool
