import PersistX.Shell.Running

/-!
# PersistX — begin, commit, abort, and the writes in between

What else keeps `RunInv`: a page of the heap or of the index that is written at any
stage, a flush of the log, and the commands that open and close a transaction. While
the undo loop of `abort` is under way `Aborting` holds instead.

Main results: `RunInv.writePage`, `Aborting.step`, `Aborting.finish` — what is left
when the loop has come to its end is the store as it was at `begin`.
-/

namespace PersistX

open PageOps LawfulPageOps DataPageOps

variable {n n' t p last : Nat} {st : Store} {m m' : Machine} {heap : Nat → Page}
  {kv committed : Int64 → Option Bytes} {s : Shell Page} {undo : Option Nat} {w : Visible}

-- ---------------------------------------------------------------------------
-- Log and pages reach the files
-- ---------------------------------------------------------------------------

/-- Only the files have changed, and what of the log is in its file. -/
structure Machine.Same (m m' : Machine) : Prop where
  shell : m'.shell = { m.shell with db := { m.shell.db with lm := m'.shell.db.lm } }
  log : m'.shell.db.lm.log = m.shell.db.lm.log
  stage : m'.stage = m.stage

theorem Machine.Same.seen (h : m.Same m') : m'.seen = m.seen := by
  rw [Machine.seen, Machine.seen, h.log, h.shell]

theorem BetweenInv.same {txn : Option Nat} (h : BetweenInv st m txn) (hm : m.Same m') :
    BetweenInv st m' txn := by
  cases txn with
  | none =>
    intro t
    rw [hm.log]
    exact h t
  | some t =>
    refine ⟨hm.log ▸ h.1, ?_⟩
    rw [hm.seen]
    exact h.2.congr hm.log (by rw [hm.shell]) (by rw [hm.shell])

theorem StageInv.same {stage : CommandStage} (h : StageInv st m heap kv stage) (hm : m.Same m') :
    StageInv st m' heap kv stage := by
  have hheap : m'.shell.db.heap = m.shell.db.heap := by rw [hm.shell]
  have hindex : m'.shell.db.index = m.shell.db.index := by rw [hm.shell]
  have hnext : m'.shell.nextPageId = m.shell.nextPageId := by rw [hm.shell]
  have hkey : m'.shell.nextFillKey = m.shell.nextFillKey := by rw [hm.shell]
  have htxn : m'.shell.activeTxn = m.shell.activeTxn := by rw [hm.shell]
  have hbusy : ∀ {kv v t auto left}, Busy st m kv v t auto left → Busy st m' kv v t auto left :=
    fun hb => hb.congr hm.log (by rw [hm.shell]) (Nat.le_of_eq hnext.symm) htxn
  cases stage with
  | ready =>
    simp only [StageInv, hheap, htxn] at h ⊢
    exact ⟨h.1, h.2.1, h.2.2.same hm⟩
  | loop t auto k i inserted =>
    simp only [StageInv, hheap, hkey, hm.seen] at h ⊢
    exact ⟨h.1, h.2.1, hbusy h.2.2⟩
  | store key record sequel =>
    simp only [StageInv, hheap, hkey, hm.seen] at h ⊢
    obtain ⟨h₁, h₂, h₃, value, h₄, hb⟩ := h
    exact ⟨h₁, h₂, h₃, value, h₄, hbusy hb⟩
  | stored key rid record sequel =>
    simp only [StageInv, hheap, hkey, hnext, hm.seen] at h ⊢
    obtain ⟨h₁, h₂, h₃, h₄, h₅, value, h₆, hb⟩ := h
    exact ⟨h₁, h₂, h₃, h₄, h₅, value, h₆, hbusy hb⟩
  | erase key rid record t auto =>
    simp only [StageInv, hheap, hindex, hm.seen] at h ⊢
    obtain ⟨h₁, h₂, value, h₃, h₄, hb⟩ := h
    exact ⟨h₁, h₂, value, h₃, h₄, hbusy hb⟩
  | erased key rid old record t auto =>
    simp only [StageInv, hheap, hindex, hm.seen] at h ⊢
    obtain ⟨h₁, h₂, h₃, h₄, value, h₅, hb⟩ := h
    exact ⟨h₁, h₂, h₃, h₄, value, h₅, hbusy hb⟩
  | changed rid old new key sequel =>
    simp only [StageInv, hheap, hindex, hkey, hnext, hm.log] at h ⊢
    obtain ⟨h₁, h₂, h₃, h₄, h₅, h₆, h₇, k, value, v, h₈, h₉, h₁₀, hb⟩ := h
    exact ⟨h₁, h₂, h₃, h₄, h₅, h₆, h₇, k, value, v, h₈, h₉, h₁₀, hbusy hb⟩
  | logged rid lsn sequel =>
    simp only [StageInv, hheap, hkey, hm.seen] at h ⊢
    exact ⟨h.1, h.2.1, hbusy h.2.2⟩

theorem RunInvAt.same (h : RunInvAt n st m heap kv) (hm : m.Same m')
    (hwal : WalInv n' m.shell.nextPageId st.committed m'.shell.db.lm m'.disk heap) :
    RunInvAt n' st m' heap kv where
  base := h.base.still (by rw [hm.shell]) (by rw [hm.shell]) (by rw [hm.shell]) ⟨hwal.ok, hwal.lsn⟩
  ids := by
    rw [hm.shell]
    exact h.ids
  log := by
    rw [show m'.shell.nextPageId = m.shell.nextPageId by rw [hm.shell]]
    exact hwal
  txns := by
    rw [hm.log, hm.shell]
    exact h.txns
  store := by
    rw [hm.log]
    exact h.store
  index := by
    have hslots : m'.slots = m.slots := by
      rw [Machine.slots, Machine.slots, hm.stage, hm.log]
    rw [hslots, hm.shell]
    exact h.index
  stage := by
    rw [hm.stage]
    exact h.stage.same hm

/-- A page that no change is pending for is as the log has it. -/
theorem StageInv.heap_eq {stage : CommandStage} (h : StageInv st m heap kv stage)
    (hp : ∀ rid, stage.slot = some rid → rid.pageId ≠ p) : m.shell.db.heap p = heap p := by
  cases stage with
  | ready => exact congrFun h.1 p
  | loop t auto k i inserted => exact congrFun h.1 p
  | store key record sequel => exact congrFun h.1 p
  | stored key rid record sequel => rw [h.1, if_neg (hp rid rfl).symm]
  | erase key rid record t auto => exact congrFun h.1 p
  | erased key rid old record t auto => rw [h.1, if_neg (hp rid rfl).symm]
  | changed rid old new key sequel => exact h.1 p (hp rid rfl).symm
  | logged rid lsn sequel => rw [h.1, if_neg (hp rid rfl).symm]

theorem Machine.canWrite_slot (h : m.canWrite p = true) (hok : Session.keepsStep m (.write p) = true) :
    p < m.shell.nextPageId ∧ ∀ rid, m.stage.slot = some rid → rid.pageId ≠ p := by
  rw [Machine.canWrite, Bool.and_eq_true, decide_eq_true_iff] at h
  refine ⟨h.1, fun rid hrid => ?_⟩
  have hpending : ∀ rid, m.stage.pending = some rid → rid.pageId ≠ p := by
    intro rid hrid
    rw [Session.keepsStep, hrid, Option.all_some, bne_iff_ne] at hok
    exact hok
  cases hstage : m.stage with
  | logged rid' lsn sequel =>
    rw [hstage] at hrid
    obtain rfl := Option.some.inj hrid
    have hne := h.2
    rw [hstage, bne_iff_ne] at hne
    exact hne
  | _ =>
    refine hpending rid ?_
    rw [hstage] at hrid ⊢
    exact hrid

/-- **A data page is written**, in the middle of a command or between two. -/
theorem RunInv.writePage (h : RunInv n st m) (hwrite : m.canWrite p = true)
    (hok : Session.keepsStep m (.write p) = true) : RunInv (max n (p + 1)) st (m.writePage p) := by
  obtain ⟨heap, kv, h⟩ := h
  obtain ⟨hp, hslot⟩ := m.canWrite_slot hwrite hok
  have hheap := h.stage.heap_eq hslot
  refine ⟨heap, kv, h.same ⟨rfl, LogManager.flush_log _, rfl⟩ ?_⟩
  show WalInv _ _ _ (m.shell.db.lm.flush (m.shell.db.heap p).pageLsn)
    (fun q => if q = p then m.shell.db.heap p else m.disk q) heap
  rw [hheap]
  exact h.log.write hp

/-- A node of the index is written. -/
theorem RunInv.writeNode (h : RunInv n st m) (hp : p < m.shell.nextPageId) (upTo : Nat) :
    RunInv (max n (p + 1)) st (m.flushLogTo upTo) := by
  obtain ⟨heap, kv, h⟩ := h
  exact ⟨heap, kv, h.same ⟨rfl, LogManager.flush_log _, rfl⟩ ((h.log.flush upTo).lengthen hp)⟩

theorem RunInv.flushLog (h : RunInv n st m) : RunInv n st m.flushLog := by
  obtain ⟨heap, kv, h⟩ := h
  exact ⟨heap, kv, h.same ⟨rfl, LogManager.flushAll_log, rfl⟩ h.log.flushAll⟩

/-- **The process goes.** -/
theorem RunInv.crash (h : RunInv n st m) : Files m.shell.db.lm.file m.disk n ∧
    Represents (committedContents m.shell.db.lm.file) st.committed := by
  obtain ⟨heap, kv, h⟩ := h
  exact h.log.crash

-- ---------------------------------------------------------------------------
-- Begin and commit
-- ---------------------------------------------------------------------------

theorem RunInv.begin (h : RunInv n st m) (hstage : m.stage = .ready) :
    RunInv n st { m with shell := m.shell.begin } := by
  obtain ⟨heven, hbetween⟩ := h.ready hstage
  rw [Shell.begin]
  split
  · exact h
  · rename_i htxn
    rw [htxn] at hbetween
    obtain ⟨he, honly, hback⟩ := heven.begin (heven.committed_of_none hbetween) hbetween
      (s := { m.shell with db := m.shell.db.begin, activeTxn := some m.shell.db.nextTxnId }) rfl rfl rfl .ready
    have hrun : RunInv n st (m.goTo ({ m.shell with
        db := m.shell.db.begin, activeTxn := some m.shell.db.nextTxnId }, .ready)) :=
      he.runInv rfl ⟨rfl, rfl, honly, hback⟩
    rw [Machine.goTo, ← hstage] at hrun
    exact hrun

/-- **What the transaction has done is committed.** -/
theorem RunInv.commit (h : RunInv n st m) (hstage : m.stage = .ready) (hs : m.shell.commit = some s) :
    RunInv n { st with committed := st.current } { m with shell := s } := by
  obtain ⟨heven, hbetween⟩ := h.ready hstage
  rw [Shell.commit] at hs
  split at hs
  · rename_i htxn
    obtain rfl := Option.some.inj hs
    rw [htxn] at hbetween
    have hstore := heven.store
    rw [contents_eq_committed heven.log.hist.logLegit hbetween] at hstore
    have heven' : Even n st.current m st.current :=
      { heven with log := { heven.log with committed := hstore } }
    refine Even.runInv heven' (by rw [Machine.slots, hstage]) ?_
    rw [hstage]
    refine ⟨rfl, rfl, ?_⟩
    rw [htxn]
    exact hbetween
  · rename_i t htxn
    rw [htxn] at hbetween
    rw [Option.map_eq_some_iff] at hs
    obtain ⟨s₁, hc, rfl⟩ := hs
    obtain ⟨heven', hnone, -⟩ := heven.commit hbetween.1 hc .ready
    have heven'' : Even n st.current (m.goTo ({ s₁ with activeTxn := none }, .ready)) st.current :=
      heven'.congr rfl rfl (Nat.le_refl _) heven'.ids rfl
    have hrun : RunInv n { st with committed := st.current } _ := Even.runInv heven'' rfl ⟨rfl, rfl, hnone⟩
    rw [Machine.goTo, ← hstage] at hrun
    exact hrun

-- ---------------------------------------------------------------------------
-- Abort
-- ---------------------------------------------------------------------------

/-- **In the undo loop** of transaction `t`, whose last record is at `last`; the record at `undo`
is next. -/
structure Aborting (n : Nat) (st : Store) (m : Machine) (t last : Nat) (undo : Option Nat) : Prop where
  stage : m.stage = .ready
  ids : m.shell.nextPageId ≤ invalidPageId
  dataPage : m.shell.dataPage < m.shell.nextPageId
  inited : PageOps.inited (m.shell.db.heap m.shell.dataPage) = true
  log : WalInv n m.shell.nextPageId st.committed m.shell.db.lm m.disk m.shell.db.heap
  view : ∃ v, active m.shell.db.lm.log t = some v ∧ v.last = last ∧
    (∀ u, undo = some u → UndoChain m.shell.db.lm.log t u v.pend) ∧ (undo = none → v.pend = [])
  only : ∀ t' v, active m.shell.db.lm.log t' = some v → t' = t
  table : ∀ t', t' ≠ t → m.shell.db.att.lookup t' = none
  goal : ∃ w, Represents w.slots st.committed ∧ Corresponds m.shell.nextPageId w ∧
    (∀ u, undo = some u → Rollback m.shell.db.lm.log u m.seen w) ∧ (undo = none → m.seen = w)

/-- Pages that the log does not name hold no record. -/
theorem WalInv.base (h : WalInv n s.nextPageId committed s.db.lm (m.disk) s.db.heap)
    (hpage : s.dataPage < s.nextPageId) (hinit : PageOps.inited (s.db.heap s.dataPage) = true) :
    Shell.Base s where
  sound := ⟨h.ok, h.lsn⟩
  wf p := (h.mirror p).tighter.right
  inited := hinit
  fresh p u hp := by
    show (s.db.heap p).readRecord u = none
    rw [(h.mirror p).read, contents_of_not_named fun hn => Nat.not_lt.mpr hp (h.named p hn)]
  dataPage := hpage

/-- `abort` up to the loop. -/
theorem RunInv.abort {prev : Nat} (h : RunInv n st m) (hstage : m.stage = .ready)
    (htxn : m.shell.activeTxn = some t) (hl : m.shell.db.att.lookup t = some prev) :
    Aborting n st (m.withDb { m.shell.db with lm := (m.shell.db.lm.append t (some prev) .abort).1 }) t
      m.shell.db.lm.nextLsn (some prev) := by
  obtain ⟨heven, hbetween⟩ := h.ready hstage
  rw [htxn] at hbetween
  obtain ⟨honly, prev', w, hl', hroll, hrep, hcor⟩ := hbetween
  obtain rfl : prev = prev' := Option.some.inj (hl.symm.trans hl')
  obtain ⟨v, hv, hnot⟩ := honly.opened
  obtain rfl : prev = v.last := Option.some.inj (hl.symm.trans (heven.txns.lookup hv))
  have hlife : Lifecycle m.shell.db.lm.log ⟨m.shell.db.lm.nextLsn, t, some v.last, .abort⟩ :=
    ⟨heven.log.ok.next, v, hv, hnot, rfl⟩
  have hchain := ((heven.log.hist.logLegit.lifecycle fun _ _ hr => hr.1).2 t v hv).chain
  have hwal := heven.log.append_quiet hlife rfl rfl (by simp)
  have hlog : (m.shell.db.lm.append t (some v.last) .abort).1.log = _ := LogManager.append_log _ _ _
  generalize (m.shell.db.lm.append t (some v.last) .abort).1 = lm at hwal hlog
  have hcontents : contents lm.log = contents m.shell.db.lm.log := by
    rw [hlog, contents_append_one]
    rfl
  refine ⟨hstage, heven.ids, heven.base.dataPage, heven.base.inited, hwal,
    ⟨⟨m.shell.db.lm.nextLsn, v.pend, true⟩, ?_, rfl, fun u hu => ?_, fun hn => (by cases hn)⟩,
    fun t' v' hv' => ?_, fun t' ht' => ?_, ⟨w, hrep, hcor, fun u hu => ?_, fun hn => (by cases hn)⟩⟩
  · show active lm.log t = _
    rw [hlog]
    exact active_append_abort hv
  · rw [← Option.some.inj hu]
    show UndoChain lm.log t _ _
    rw [hlog]
    exact hchain.append _
  · by_contra hne
    replace hv' : active lm.log t' = some v' := hv'
    rw [hlog, active_append_one_ne (Ne.symm hne)] at hv'
    exact hne (honly.only t' v' hv')
  · show m.shell.db.att.lookup t' = none
    rw [heven.txns.exact t']
    cases hv' : active m.shell.db.lm.log t' with
    | none => rfl
    | some v' => exact absurd (honly.only t' v' hv') ht'
  · rw [← Option.some.inj hu]
    show Rollback lm.log _ ⟨contents lm.log, m.shell.db.index⟩ w
    rw [hcontents, hlog]
    exact hroll.mono (List.prefix_append _ _)

/-- Only the files have changed. -/
theorem Aborting.same (h : Aborting n st m t last undo) (hm : m.Same m')
    (hwal : WalInv n' m.shell.nextPageId st.committed m'.shell.db.lm m'.disk m.shell.db.heap) :
    Aborting n' st m' t last undo := by
  have hnext : m'.shell.nextPageId = m.shell.nextPageId := by rw [hm.shell]
  have hheap : m'.shell.db.heap = m.shell.db.heap := by rw [hm.shell]
  have hpage : m'.shell.dataPage = m.shell.dataPage := by rw [hm.shell]
  have hatt : m'.shell.db.att = m.shell.db.att := by rw [hm.shell]
  refine ⟨hm.stage.trans h.stage, hnext ▸ h.ids, ?_, ?_, ?_, ?_, ?_, hatt ▸ h.table, ?_⟩
  · rw [hnext, hpage]
    exact h.dataPage
  · rw [hheap, hpage]
    exact h.inited
  · rw [hnext, hheap]
    exact hwal
  · rw [hm.log]
    exact h.view
  · rw [hm.log]
    exact h.only
  · rw [hm.log, hm.seen, hnext]
    exact h.goal

/-- A data page is written while the loop is under way. -/
theorem Aborting.writePage (h : Aborting n st m t last undo) (hp : p < m.shell.nextPageId) :
    Aborting (max n (p + 1)) st (m.writePage p) t last undo :=
  h.same ⟨rfl, LogManager.flush_log _, rfl⟩ (h.log.write hp)

theorem Aborting.writeNode (h : Aborting n st m t last undo) (hp : p < m.shell.nextPageId) (upTo : Nat) :
    Aborting (max n (p + 1)) st (m.flushLogTo upTo) t last undo :=
  h.same ⟨rfl, LogManager.flush_log _, rfl⟩ ((h.log.flush upTo).lengthen hp)

theorem Aborting.flushLog (h : Aborting n st m t last undo) : Aborting n st m.flushLog t last undo :=
  h.same ⟨rfl, LogManager.flushAll_log, rfl⟩ h.log.flushAll

/-- The index takes pages. -/
theorem Aborting.grow {grow : Nat} (h : Aborting n st m t last undo)
    (hids : m.shell.nextPageId + grow ≤ invalidPageId) : Aborting n st (m.grow grow) t last undo := by
  have hle : m.shell.nextPageId ≤ m.shell.nextPageId + grow := Nat.le_add_right _ _
  obtain ⟨w, hrep, hcor, hroll, hend⟩ := h.goal
  exact ⟨h.stage, hids, Nat.lt_of_lt_of_le h.dataPage hle, h.inited, h.log.grow hle, h.view, h.only, h.table,
    w, hrep, hcor.mono hle, hroll, hend⟩

/-- The loop meets BEGIN. -/
theorem Aborting.step_begin {u : Nat} {r : Record} (h : Aborting n st m t last (some u))
    (hr : m.shell.db.lm.log[u]? = some r) (hb : r.body = .begin) : Aborting n st m.flushLog t last none := by
  obtain ⟨v, hv, hlast, hchain, -⟩ := h.view
  obtain ⟨w, hrep, hcor, hroll, -⟩ := h.goal
  have hother : ∀ {r' : Record} {P : Prop}, m.shell.db.lm.log[u]? = some r' → r'.body ≠ .begin → P :=
    fun hr' hne => absurd (Option.some.inj (hr'.symm.trans hr) ▸ hb) hne
  have hpend : v.pend = [] := by
    generalize hus : v.pend = us at hchain
    cases hchain u rfl with
    | begin => rfl
    | update hr' _ hb' =>
      obtain ⟨p, s, o, k, key, hb'⟩ := hb'
      exact hother hr' (by simp [hb'])
    | clr hr' _ hb' =>
      obtain ⟨p, s, k, hb'⟩ := hb'
      exact hother hr' (by simp [hb'])
    | abort hr' _ hb' => exact hother hr' (by simp [hb'])
  have hw : m.seen = w := by
    cases hroll u rfl with
    | begin => rfl
    | update hr' hb' => exact hother hr' (by simp [hb'])
  have hsame : m.Same m.flushLog := ⟨rfl, LogManager.flushAll_log, rfl⟩
  have hflushed := h.flushLog
  refine { hflushed with view := ⟨v, ?_, hlast, fun u hu => ?_, fun _ => hpend⟩, goal := ⟨w, hrep, hcor, ?_, ?_⟩ }
  · rw [hsame.log]
    exact hv
  · cases hu
  · exact fun u hu => by cases hu
  · rw [hsame.seen]
    exact fun _ => hw

/-- **The loop meets an UPDATE**, and takes it back. -/
theorem Aborting.step_update {u slot : Nat} {r : Record} {old new : Bytes} {key : Int} {db : Database Page}
    {last' : Nat} (h : Aborting n st m t last (some u)) (hr : m.shell.db.lm.log[u]? = some r)
    (hb : r.body = .update p slot old new key)
    (hroom : undoFits (m.shell.db.heap p) slot old new = true)
    (hdb : m.flushLog.shell.db.undoUpdate t last r.prevLsn p slot old new key = (db, last')) :
    Aborting n st (m.withDb db) t last' r.prevLsn := by
  obtain ⟨v, hv, rfl, hchain, -⟩ := h.view
  obtain ⟨w, hrep, hcor, hroll, -⟩ := h.goal
  obtain ⟨l, us, hpend, hprev, hrest⟩ : ∃ l us, v.pend = u :: us ∧ r.prevLsn = some l ∧
      UndoChain m.shell.db.lm.log t l us := by
    have hother : ∀ {r' : Record} {P : Prop}, m.shell.db.lm.log[u]? = some r' →
        r'.body ≠ .update p slot old new key → P :=
      fun hr' hne => absurd (Option.some.inj (hr'.symm.trans hr) ▸ hb) hne
    generalize v.pend = us at hchain
    cases hchain u rfl with
    | begin hr' _ hb' => exact hother hr' (by simp [hb'])
    | @update _ l r' us hr' _ _ hp' _ hrest =>
      exact ⟨l, us, rfl, Option.some.inj (hr'.symm.trans hr) ▸ hp', hrest⟩
    | clr hr' _ hb' =>
      obtain ⟨p, s, k, hb'⟩ := hb'
      exact hother hr' (by simp [hb'])
    | abort hr' _ hb' => exact hother hr' (by simp [hb'])
  have hback : Rollback m.shell.db.lm.log l (m.seen.undo p slot old new key) w := by
    cases hroll u rfl with
    | begin hr' hb' => rw [Option.some.inj (hr'.symm.trans hr), hb] at hb'; cases hb'
    | @update _ l' p' s' r' o' n' k' _ _ hr' hb' hp' _ hback =>
      obtain rfl : r' = r := Option.some.inj (hr'.symm.trans hr)
      obtain ⟨rfl, rfl, rfl, rfl, rfl⟩ := RecordBody.update.inj (hb'.symm.trans hb)
      obtain rfl : l' = l := Option.some.inj (hp'.symm.trans hprev)
      exact hback
  have hsame : m.Same m.flushLog := ⟨rfl, LogManager.flushAll_log, rfl⟩
  have hf := h.flushLog
  have hwal := hf.log.clr (t := t) (v := v) (by rw [hsame.log]; exact hv) hpend (by rw [hsame.log]; exact hr)
    hb hroom
  have hdb₁ : (m.flushLog.shell.db.undoUpdate t v.last r.prevLsn p slot old new key).1 = db :=
    congrArg Prod.fst hdb
  have hlm : db.lm = (m.flushLog.shell.db.lm.append t (some v.last) (.clr p slot old r.prevLsn)).1 := by
    rw [← hdb₁]
    rfl
  have hheap : db.heap = fun q => if q = p then
      undoRecord (m.shell.db.heap p) slot old new m.flushLog.shell.db.lm.nextLsn else m.shell.db.heap q := by
    rw [← hdb₁]
    rfl
  have hindex : db.index = (m.seen.undo p slot old new key).index := by
    rw [← hdb₁]
    rfl
  have hatt : db.att = m.shell.db.att := by
    rw [← hdb₁]
    rfl
  obtain rfl : m.flushLog.shell.db.lm.nextLsn = last' := congrArg Prod.snd hdb
  have hlog : db.lm.log = m.shell.db.lm.log ++ [⟨m.flushLog.shell.db.lm.nextLsn, t, some v.last,
      .clr p slot old r.prevLsn⟩] := by
    rw [hlm, LogManager.append_log, hsame.log]
  rw [← hlm] at hwal
  have hseen : (m.withDb db).seen = m.seen.undo p slot old new key := by
    show Visible.mk (contents db.lm.log) db.index = _
    rw [hlog, contents_append_one, hindex]
    rfl
  refine ⟨h.stage, h.ids, h.dataPage, ?_, ?_, ⟨⟨m.flushLog.shell.db.lm.nextLsn, v.pend.tail, true⟩, ?_, rfl,
    fun u' hu' => ?_, fun hn => ?_⟩, fun t' v' hv' => ?_, fun t' ht' => ?_, w, hrep, hcor, fun u' hu' => ?_,
    fun hn => ?_⟩
  · show PageOps.inited (db.heap m.shell.dataPage) = true
    rw [hheap]
    show PageOps.inited (if m.shell.dataPage = p then _ else _) = true
    split
    · rename_i hp
      exact inited_undoRecord _ (h.log.mirror p).tighter.right (hp ▸ h.inited) hroom
    · exact h.inited
  · show WalInv n m.shell.nextPageId st.committed db.lm m.disk db.heap
    rw [hheap]
    exact hwal
  · show active db.lm.log t = _
    rw [hlog]
    exact active_append_clr hv
  · obtain rfl : l = u' := Option.some.inj (hprev.symm.trans hu')
    show UndoChain db.lm.log t l v.pend.tail
    rw [hlog, hpend]
    exact hrest.append _
  · rw [hprev] at hn
    cases hn
  · by_contra hne
    replace hv' : active db.lm.log t' = some v' := hv'
    rw [hlog, active_append_one_ne (Ne.symm hne)] at hv'
    exact hne (h.only t' v' hv')
  · show db.att.lookup t' = none
    rw [hatt]
    exact h.table t' ht'
  · obtain rfl : l = u' := Option.some.inj (hprev.symm.trans hu')
    show Rollback db.lm.log l _ w
    rw [hseen, hlog]
    exact hback.mono (List.prefix_append _ _)
  · rw [hprev] at hn
    cases hn

/-- **An iteration of the undo loop.** -/
theorem Aborting.step {u : Nat} {db : Database Page} {last' : Nat} (h : Aborting n st m t last (some u))
    (hroom : m.shell.db.roomAt u = true) (hone : m.shell.db.undoOne t last u = (db, last', undo)) :
    Aborting n st (m.withDb db) t last' undo := by
  obtain ⟨w, -, -, hroll, -⟩ := h.goal
  cases hroll u rfl with
  | begin hr hb =>
    simp only [Database.undoOne, LogManager.readRecordAtLsn_eq h.log.lsn hr, hb, Prod.mk.injEq] at hone
    obtain ⟨rfl, rfl, rfl⟩ := hone
    exact h.step_begin hr hb
  | @update _ l p slot r old new key _ _ hr hb =>
    rw [Database.roomAt, LogManager.readRecordAtLsn_eq h.log.lsn hr, Option.map_some, hb] at hroom
    simp only [Database.undoOne, LogManager.readRecordAtLsn_eq h.log.lsn hr, hb, Prod.mk.injEq] at hone
    obtain ⟨rfl, rfl, rfl⟩ := hone
    exact h.step_update hr hb hroom rfl

/-- **TXN_END**: the store is what the last commit left. -/
theorem Aborting.finish (h : Aborting n st m t last none) :
    RunInv n { st with current := st.committed } { m with shell := { m.shell with
      db := { m.shell.db with
        lm := (m.shell.db.lm.append t (some last) .txnEnd).1
        att := m.shell.db.att.erase t }
      activeTxn := none } } := by
  obtain ⟨v, hv, rfl, -, hpend⟩ := h.view
  obtain ⟨w, hrep, hcor, -, hw⟩ := h.goal
  have hlife : Lifecycle m.shell.db.lm.log ⟨m.shell.db.lm.nextLsn, t, some v.last, .txnEnd⟩ := by
    refine ⟨h.log.ok.next, fun v' hv' => ?_⟩
    rw [← Option.some.inj (hv.symm.trans hv')]
    exact hpend rfl
  have hwal := h.log.append_quiet hlife rfl rfl (by simp)
  have hlog : (m.shell.db.lm.append t (some v.last) .txnEnd).1.log = _ := LogManager.append_log _ _ _
  generalize (m.shell.db.lm.append t (some v.last) .txnEnd).1 = lm at hwal hlog
  have hnone : ∀ t', active lm.log t' = none := by
    intro t'
    rw [hlog]
    by_cases htt : t = t'
    · rw [← htt]
      exact active_append_one_self
    · rw [active_append_one_ne htt]
      cases hv' : active m.shell.db.lm.log t' with
      | none => rfl
      | some v' => exact absurd (h.only t' v' hv').symm htt
  have hseen : Visible.mk (contents lm.log) m.shell.db.index = w := by
    rw [← hw rfl, hlog, contents_append_one]
    rfl
  have hslots : contents lm.log = w.slots := congrArg Visible.slots hseen
  have heven : Even n st.committed (m.goTo ({ m.shell with
      db := { m.shell.db with lm, att := m.shell.db.att.erase t }, activeTxn := none }, .ready))
      st.committed := by
    refine ⟨hwal.base h.dataPage h.inited, h.ids, hwal, ⟨fun t' => ?_, fun t' _ => hnone t'⟩, ?_, ?_⟩
    · show (m.shell.db.att.erase t).lookup t' = (active lm.log t').map TxnView.last
      rw [hnone]
      by_cases htt : t' = t
      · rw [htt]
        exact AList.lookup_erase _ _
      · rw [AList.lookup_erase_ne htt]
        exact h.table t' htt
    · show Represents (contents lm.log) _
      rw [hslots]
      exact hrep
    · show Corresponds _ ⟨contents lm.log, m.shell.db.index⟩
      rw [hseen]
      exact hcor
  have hrun : RunInv n { st with current := st.committed } _ := Even.runInv heven rfl ⟨rfl, rfl, hnone⟩
  rw [Machine.goTo, ← h.stage] at hrun
  exact hrun

end PersistX
