import PersistX.Aries.Preservation

/-!
# PersistX — checkpoints and crashes keep the invariant

The steps of `checkpoint()`. The snapshots are exact because nothing else runs
between them and CHECKPOINT_END. What can go wrong is the moment at which
CHECKPOINT_END reaches the log file: `enforce_wal` for one dirty page may write
it out while another page is still dirty (`Inv.ckptForce` needs `CkptSafe`);
at the end of the checkpoint every page is clean (`Inv.ckptFinish`).
-/

namespace PersistX

open PageOps LawfulPageOps

variable {P : Type} [LawfulPageOps P] {strict : Prop}

-- ---------------------------------------------------------------------------
-- Snapshots
-- ---------------------------------------------------------------------------

/-- Reading a snapshot without repeated keys back gives its entries. -/
theorem lookup_toTable {l : List (Nat × Nat)} (h : (l.map Prod.fst).Nodup) (k v : Nat) :
    (toTable l).lookup k = some v ↔ (k, v) ∈ l := by
  induction l using List.reverseRecOn with
  | nil =>
    simp only [List.not_mem_nil, iff_false]
    intro h
    cases h
  | append_singleton l e ih =>
    rw [List.map_append, List.nodup_append] at h
    obtain ⟨hl, -, hdisj⟩ := h
    have hins : toTable (l ++ [e]) = (toTable l).insert e.1 e.2 := by
      simp [toTable, List.foldl_append]
    have hnot : ∀ w, (e.1, w) ∉ l := by
      intro w hw
      exact hdisj _ (List.mem_map_of_mem (f := Prod.fst) hw) e.1 (by simp) rfl
    rw [hins]
    by_cases hk : k = e.1
    · subst hk
      rw [AList.lookup_insert, List.mem_append, List.mem_singleton]
      constructor
      · intro hv
        exact Or.inr (by rw [← Option.some.inj hv])
      · rintro (hm | hm)
        · exact absurd hm (hnot v)
        · rw [← hm]
    · rw [AList.lookup_insert_ne hk, ih hl, List.mem_append, List.mem_singleton]
      constructor
      · exact Or.inl
      · rintro (hm | hm)
        · exact hm
        · exact absurd (by rw [← hm]) hk

theorem lookup_attSnapshot (tm : TransactionManager) (t : Nat) :
    (toTable tm.getAttSnapshot).lookup t = (tm.att.lookup t).map Txn.prevLsn := by
  have hn : (tm.getAttSnapshot.map Prod.fst).Nodup := by
    have : tm.getAttSnapshot.map Prod.fst = tm.att.keys := by
      simp [TransactionManager.getAttSnapshot, AList.keys, List.keys]
    rw [this]
    exact tm.att.keys_nodup
  ext v
  rw [lookup_toTable hn, Option.map_eq_some_iff]
  simp only [TransactionManager.getAttSnapshot, List.mem_map, Prod.mk.injEq]
  constructor
  · rintro ⟨e, he, rfl, rfl⟩
    exact ⟨e.2, AList.mem_lookup_iff.mpr he, rfl⟩
  · rintro ⟨x, hx, rfl⟩
    exact ⟨⟨t, x⟩, AList.mem_lookup_iff.mp hx, rfl, rfl⟩

omit [LawfulPageOps P] in
theorem lookup_dirtyPages [PageOps P] (bm : BufferManager P) (p l : Nat) :
    (toTable bm.getDirtyPages).lookup p = some l ↔
      ∃ f, bm.frames.lookup p = some f ∧ f.dirty = true ∧ pageLsn f.page = l := by
  have hn : (bm.getDirtyPages.map Prod.fst).Nodup := by
    have : bm.getDirtyPages.map Prod.fst = (bm.frames.entries.filter (·.2.dirty)).map Sigma.fst := by
      simp [BufferManager.getDirtyPages]
    rw [this]
    exact bm.frames.keys_nodup.sublist (List.filter_sublist.map _)
  rw [lookup_toTable hn]
  simp only [BufferManager.getDirtyPages, List.mem_map, List.mem_filter, Prod.mk.injEq]
  constructor
  · rintro ⟨e, ⟨he, hd⟩, rfl, rfl⟩
    exact ⟨e.2, AList.mem_lookup_iff.mpr he, hd, rfl⟩
  · rintro ⟨f, hf, hd, rfl⟩
    exact ⟨⟨p, f⟩, ⟨AList.mem_lookup_iff.mp hf, hd⟩, rfl, rfl⟩

-- ---------------------------------------------------------------------------
-- The steps of a checkpoint
-- ---------------------------------------------------------------------------

theorem Inv.setCkpt {s : Sys P} (h : Inv strict s) {c : Ckpt} (hc : c ≠ .idle)
    (hck : CkptInv { s with ckpt := c }) : Inv strict { s with ckpt := c } :=
  ⟨h.hist, h.disk, fun hs => h.redo (hs.elim Or.inl fun hi => absurd hi hc), h.live, h.mode, hck⟩

theorem Inv.ckptBegin {s : Sys P} (h : Inv strict s) (hrun : s.running = true)
    (hprot : Protocol s .ckptBegin) : Inv strict s.ckptBegin := by
  obtain ⟨hn, hidle⟩ := running_iff.mp hrun
  obtain ⟨-, htm⟩ := h.normal hn
  have hact : ∀ t, active (s.log ++ [⟨s.lm.nextLsn, invalidU64, none, .checkpointBegin⟩]) t =
      active s.log t := by
    intro t
    rw [active_append_one]
    split <;> rfl
  have htm' : TmInv (s.log ++ [⟨s.lm.nextLsn, invalidU64, none, .checkpointBegin⟩]) s.tm :=
    ⟨fun t => (htm.txns t).append_same (hact t), htm.fresh⟩
  have h' := h.appendQuiet hrun ⟨h.next_eq hn, trivial⟩ rfl rfl htm'
  refine h'.setCkpt (by simp) ?_
  have hno := h'.ckpt
  simp only [CkptInv, hidle] at hno
  exact ⟨hn, hno, hprot⟩

theorem Inv.ckptSnapshot {s : Sys P} (h : Inv strict s) (hb : s.ckpt = .begun) :
    Inv strict s.ckptSnapshot := by
  have hck := h.ckpt
  simp only [CkptInv, hb] at hck
  obtain ⟨hn, hno, hcom⟩ := hck
  obtain ⟨hcur, htm⟩ := h.normal hn
  refine h.setCkpt (by simp) ⟨hn, hno, fun t => ?_, ⟨fun p f hf hd => ?_, fun p l hl => ?_⟩⟩
  · rw [lookup_attSnapshot]
    have hok := htm.txns t
    cases hl : s.tm.att.lookup t with
    | none =>
      rw [hl] at hok
      rw [show active _ t = none from hok]
      rfl
    | some x =>
      obtain ⟨prev, phase⟩ := x
      rw [hl] at hok
      cases phase with
      | growing =>
        obtain ⟨v, hv, hlast, -⟩ := hok
        rw [show active _ t = some v from hv, Option.map_some, Option.map_some, hlast]
      | committing c => exact absurd hl (hcom t prev c).1
      | committed c => exact absurd hl (hcom t prev c).2
      | aborting u =>
        obtain ⟨v, x, hv, hlast, -⟩ := hok
        rw [show active _ t = some v from hv, Option.map_some, Option.map_some, hlast]
      | aborted =>
        obtain ⟨v, hv, hlast, -⟩ := hok
        rw [show active _ t = some v from hv, Option.map_some, Option.map_some, hlast]
  · exact (lookup_dirtyPages s.bm p _).mpr ⟨f, hf, hd, rfl⟩
  · obtain ⟨f, hf, -, rfl⟩ := (lookup_dirtyPages s.bm p l).mp hl
    rw [← BufferManager.page_of_lookup hf]
    exact hcur.lsn_le h.hist p

theorem Inv.ckptEnd {s : Sys P} {a d : List (Nat × Nat)} (h : Inv strict s)
    (hsnap : s.ckpt = .snapped a d) : Inv strict (s.ckptEnd a d) := by
  have hck := h.ckpt
  simp only [CkptInv, hsnap] at hck
  obtain ⟨hn, hno, hatt, hdpt⟩ := hck
  obtain ⟨hcur, htm⟩ := h.normal hn
  have hnext := h.next_eq hn
  have hlog : (s.lm.append invalidU64 none (.checkpointEnd a d)).1.log =
      s.log ++ [⟨s.lm.nextLsn, invalidU64, none, .checkpointEnd a d⟩] :=
    LogManager.append_log _ _ _
  refine ⟨?_, ?_, ?_, ?_, ?_, ?_⟩
  · show History _ (s.lm.append invalidU64 none (.checkpointEnd a d)).1.log
    rw [hlog]
    refine .snoc h.hist ⟨⟨⟨hnext, trivial⟩, ?_⟩, ⟨?_, ?_⟩, ?_⟩
    · intro p s o n k hb
      cases hb
    · intro p s k hb
      cases hb
    · intro p hp
      cases hp
    · intro a' d' hb
      obtain ⟨rfl, rfl⟩ := RecordBody.checkpointEnd.inj hb
      exact ⟨hatt, hdpt.bound⟩
  · show DiskInv (s.lm.append invalidU64 none (.checkpointEnd a d)).1.log _ s.bm
    rw [hlog]
    exact h.disk.append LogManager.length_file_le _
  · intro hs
    exact h.redo (hs.elim Or.inl fun hi => by cases hi)
  · exact fun _ => (h.live (by rw [hn]; simp)).append _ _ _
  · simp only [ModeInv, Sys.ckptEnd, hn, Sys.log, hlog]
    refine ⟨hcur.append_quiet rfl, fun t => ?_, htm.fresh⟩
    exact (htm.txns t).append_same (active_append_end rfl t)
  · refine ⟨hn, ⟨s.log, _, a, d, hlog, rfl, hnext, Or.inr ⟨s.lm.buffer, rfl, hno⟩, hdpt.dirty, ?_⟩,
      fun p hp => by cases hp⟩
    intro p l hl
    have := hdpt.bound p l hl
    show l ≤ (s.lm.append invalidU64 none (.checkpointEnd a d)).1.log.length
    rw [hlog, List.length_append]
    omega

/-- `enforce_wal` puts the page's last record, if it has one, into the log file. -/
theorem Inv.forced {s : Sys P} (h : Inv strict s) (hn : s.mode = .normal) {p : Nat} {f : Frame P}
    (hf : s.bm.frames.lookup p = some f) :
    pageLsn f.page < (s.lm.flush (pageLsn f.page)).file.length ∨
      ∀ r ∈ s.log, r.body.page? ≠ some p := by
  obtain ⟨hcur, -⟩ := h.normal hn
  have hpage := hcur p
  rw [BufferManager.page_of_lookup hf] at hpage
  have hlsn := eqv_lsn hpage
  obtain ⟨k, -, hk, hall⟩ := stateAt_eq_take (P := P) h.hist p
  rcases hk with rfl | ⟨rfl, hk⟩
  · refine Or.inr fun r hr hp => ?_
    obtain ⟨j, hj⟩ := List.mem_iff_getElem?.mp hr
    exact absurd (hall j r hj hp) (Nat.not_lt_zero j)
  · refine Or.inl ((h.live (by rw [hn]; simp)).lt_flush ?_)
    rw [hlsn]
    exact hk

theorem LogManager.flush_of_not_forces {lm : LogManager} {f : Frame P} (h : ¬ WalForces lm f) :
    lm.flush (pageLsn f.page) = lm := by
  rw [WalForces, not_and] at h
  by_cases hb : lm.buffer = []
  · have hall : lm.flushAll = lm := by rw [LogManager.flushAll, if_pos hb]
    rcases lm.flush_eq (pageLsn f.page) with h' | h'
    · exact h'
    · rw [h', hall]
  · have h := h hb
    push Not at h
    obtain ⟨g, hg, hle⟩ := h
    rw [LogManager.flush, hg]
    exact if_pos hle

/-- CHECKPOINT_END may enter the log file when no dirty page misses an update
older than its LSN. -/
theorem RedoOk.append_end {s : Sys P} (h : Inv strict s) (hredo : RedoOk s.lm.file s.bm)
    (hcur : Current s.log s.bm) {b : List Record} {r : Record} {a d : List (Nat × Nat)}
    (hbuf : s.lm.buffer = b ++ [r]) (hno : NoEnd b) (hbody : r.body = .checkpointEnd a d)
    (hdpt : DptSnap s d) (hsafe : DirtyPagesMissOnlyLast s) : RedoOk s.log s.bm := by
  have hlog : s.log = (s.lm.file ++ b) ++ [r] := by
    show s.lm.file ++ s.lm.buffer = _
    rw [hbuf, List.append_assoc]
  have hist := h.hist
  rw [hlog] at hist
  have hold := hredo.append hist.of_append hno
  intro i hi p
  rcases Nat.lt_or_ge (s.lm.file ++ b).length i with hlt | hle
  · have hi' : i = s.log.length := by
      rw [hlog, List.length_append, List.length_singleton] at hi ⊢
      omega
    rw [hi', List.take_length]
    -- a page that is not dirty is up to date on disk
    have hclean : Eqv (s.bm.readPage p) (s.bm.page p) →
        Covers (analyze s.log).2 s.log p (pageLsn (s.bm.readPage p) + 1) := by
      intro he
      have := covers_of_current h.hist (eqv_trans he (hcur p)) (analyze s.log).2 s.log.length
      rwa [List.take_length] at this
    cases hf : s.bm.frames.lookup p with
    | none =>
      refine hclean ?_
      rw [BufferManager.page_of_none hf]
      exact eqv_refl _
    | some f =>
      by_cases hd : f.dirty = true
      · intro j x hx hp hfil
        rw [hlog, analyze_append_end hbody] at hfil
        have hlt := hfil _ (hdpt.dirty p f hf hd)
        by_contra hge
        have := hsafe p f hf hd j x hx hp (by omega)
        omega
      · refine hclean ?_
        rw [BufferManager.page_of_lookup hf]
        exact eqv_symm (h.disk.clean p f hf (by simpa using hd))
  · rw [hlog, List.take_append_of_le_length hle]
    exact hold i hle p

theorem Inv.ckptForce {s : Sys P} {e p : Nat} {f : Frame P} (h : Inv strict s)
    (hw : s.ckpt = .writing e none) (hf : s.bm.frames.lookup p = some f)
    (hsafe : strict → CkptSafe s (.ckptForce p)) : Inv strict (s.ckptForce e p f) := by
  have hck := h.ckpt
  simp only [CkptInv, hw] at hck
  obtain ⟨hn, ⟨l, r, a, d, hlog, hbody, he, hbuf, hdpt⟩, -⟩ := hck
  obtain ⟨hcur, htm⟩ := h.normal hn
  have hforced := h.forced hn hf
  by_cases hforce : WalForces s.lm f
  · have hb : s.lm.flush (pageLsn f.page) = s.lm.flushAll := by
      rcases s.lm.flush_eq (pageLsn f.page) with h' | h'
      · exfalso
        rw [LogManager.flush] at h'
        have hne : s.lm.flushAll ≠ s.lm := by
          intro heq
          have : s.lm.flushAll.buffer = [] := LogManager.flushAll_buffer
          rw [heq] at this
          exact hforce.1 this
        split at h'
        · rename_i g hg
          rw [if_neg (Nat.not_le.mpr (hforce.2 g hg))] at h'
          exact hne h'
        · exact hne h'
      · exact h'
    have hlog' : s.lm.flushAll.log = s.lm.log := LogManager.flushAll_log
    rw [Sys.ckptForce, hb]
    rw [hb] at hforced
    refine ⟨?_, ?_, ?_, fun _ => (h.live (by rw [hn]; simp)).flushAll, ?_, ?_⟩
    · show History _ s.lm.flushAll.log
      rw [hlog']
      exact h.hist
    · show DiskInv s.lm.flushAll.log s.lm.flushAll.file.length s.bm
      rw [hlog', LogManager.flushAll_file]
      exact h.disk.weaken LogManager.length_file_le
    · intro hs
      have hs : strict := hs.elim id fun hi => by cases hi
      show RedoOk s.lm.flushAll.file s.bm
      rw [LogManager.flushAll_file]
      rcases hbuf with hbuf | ⟨b, hbuf, hno⟩
      · exact absurd hbuf hforce.1
      · exact RedoOk.append_end h (h.redo (Or.inl hs)) hcur hbuf hno hbody hdpt
          (hsafe hs f hf hforce)
    · simp only [ModeInv, hn, Sys.log, hlog']
      exact ⟨hcur, htm⟩
    · refine ⟨hn, ⟨l, r, a, d, hlog'.trans hlog, hbody, he, Or.inl LogManager.flushAll_buffer,
        hdpt.dirty, ?_⟩, ?_⟩
      · intro q x hx
        show x ≤ s.lm.flushAll.log.length
        rw [hlog']
        exact hdpt.bound q x hx
      · intro q hq
        obtain rfl := Option.some.inj hq
        exact ⟨f, hf, hforced.imp id fun hall => by rw [Sys.log, hlog']; exact hall⟩
  · have hsame : s.lm.flush (pageLsn f.page) = s.lm := LogManager.flush_of_not_forces hforce
    rw [Sys.ckptForce, hsame]
    rw [hsame] at hforced
    refine h.setCkpt (by simp)
      ⟨hn, ⟨l, r, a, d, hlog, hbody, he, hbuf, hdpt.dirty, hdpt.bound⟩, ?_⟩
    intro q hq
    obtain rfl := Option.some.inj hq
    exact ⟨f, hf, hforced⟩

theorem Inv.ckptWrite {s : Sys P} {e p : Nat} {f : Frame P} (h : Inv strict s)
    (hw : s.ckpt = .writing e (some p)) (hf : s.bm.frames.lookup p = some f) :
    Inv strict (s.ckptWrite e p f) := by
  have hck := h.ckpt
  simp only [CkptInv, hw] at hck
  obtain ⟨hn, ⟨l, r, a, d, hlog, hbody, he, hbuf, hdpt⟩, hforced⟩ := hck
  obtain ⟨hcur, htm⟩ := h.normal hn
  have hpage := hcur p
  rw [BufferManager.page_of_lookup hf] at hpage
  obtain ⟨g, hg, hfl⟩ := hforced p rfl
  rw [hf] at hg
  obtain rfl := Option.some.inj hg
  have hk : ∃ k ≤ s.lm.file.length, Eqv f.page (stateAt (s.log.take k) p) := by
    obtain ⟨k, hk, hkl, -⟩ := stateAt_eq_take (P := P) h.hist p
    rcases hkl with rfl | ⟨rfl, -⟩
    · exact ⟨0, Nat.zero_le _, by rw [hk]; exact hpage⟩
    · rcases hfl with hlt | hall
      · rw [eqv_lsn hpage] at hlt
        exact ⟨_, hlt, by rw [hk]; exact hpage⟩
      · refine ⟨0, Nat.zero_le _, ?_⟩
        have := stateAt_append_quiet (P := P) (a := []) (b := s.log) (p := p) hall
        rw [List.nil_append] at this
        rw [this] at hpage
        exact hpage
  obtain ⟨k, hkl, hk⟩ := hk
  have hpage' : ∀ q, Eqv ((s.bm.writeFrame p f).page q) (s.bm.page q) := by
    intro q
    rw [BufferManager.page_writeFrame hf]
    exact eqv_refl _
  refine ⟨h.hist, h.disk.writeFrame hf hkl hk, ?_, h.live, ?_, ?_⟩
  · intro hs
    have hs : strict := hs.elim id fun hi => by cases hi
    refine (h.redo (Or.inl hs)).mono fun q => ?_
    show _ ≤ pageLsn ((s.bm.writeFrame p f).readPage q)
    rw [BufferManager.readPage_writeFrame]
    split
    · rename_i hq
      subst hq
      rw [← BufferManager.page_of_lookup hf]
      exact h.disk.mono q
    · exact Nat.le_refl _
  · exact h.mode.of_page (by rw [hn]; simp) hpage'
  · refine ⟨hn, ⟨l, r, a, d, hlog, hbody, he, hbuf, ?_, hdpt.bound⟩, fun q hq => by cases hq⟩
    intro q g hg hd
    by_cases hq : q = p
    · subst hq
      rw [Sys.ckptWrite, BufferManager.writeFrame, AList.lookup_insert] at hg
      obtain rfl := Option.some.inj hg
      cases hd
    · rw [Sys.ckptWrite, BufferManager.writeFrame, AList.lookup_insert_ne hq] at hg
      exact hdpt.dirty q g hg hd

theorem Inv.ckptFinish {s : Sys P} {e : Nat} (h : Inv strict s) (hw : s.ckpt = .writing e none)
    (hclean : s.bm.frames.entries.all (!·.2.dirty) = true) : Inv strict (s.ckptFinish e) := by
  have hck := h.ckpt
  simp only [CkptInv, hw] at hck
  obtain ⟨hn, ⟨l, r, a, d, hlog, hbody, he, hbuf, hdpt⟩, -⟩ := hck
  obtain ⟨hcur, htm⟩ := h.normal hn
  have hlive := h.live (by rw [hn]; simp)
  have hlen : s.lm.log.length = e + 1 := by
    have : s.lm.log = l ++ [r] := hlog
    rw [this, List.length_append, List.length_singleton, he]
  have hlog' : (s.lm.flush e).log = s.lm.log := LogManager.flush_log e
  -- the whole log is in the file now
  have hfile : (s.lm.flush e).file = s.lm.log := by
    have hlt := hlive.lt_flush (l := e) (by omega)
    have hle : (s.lm.flush e).file.length ≤ (s.lm.flush e).log.length :=
      LogManager.length_file_le
    rw [hlog'] at hle
    have hpre : (s.lm.flush e).file ++ (s.lm.flush e).buffer = s.lm.log := hlog'
    have hzero : (s.lm.flush e).buffer = [] := by
      have := congrArg List.length hpre
      rw [List.length_append] at this
      exact List.eq_nil_of_length_eq_zero (by omega)
    rw [← hpre, hzero, List.append_nil]
  have hbuf' : (s.lm.flush e).buffer = [] := by
    have hpre : (s.lm.flush e).file ++ (s.lm.flush e).buffer = s.lm.log := hlog'
    rw [hfile] at hpre
    exact List.append_right_eq_self.mp hpre
  have hdisk : ∀ p, Eqv (s.bm.readPage p) (stateAt s.log p) := by
    intro p
    refine eqv_trans ?_ (hcur p)
    cases hf : s.bm.frames.lookup p with
    | none =>
      rw [BufferManager.page_of_none hf]
      exact eqv_refl _
    | some f =>
      rw [BufferManager.page_of_lookup hf]
      have hmem : (⟨p, f⟩ : Sigma fun _ : Nat => Frame P) ∈ s.bm.frames.entries :=
        AList.mem_lookup_iff.mp hf
      have := List.all_eq_true.mp hclean _ hmem
      exact eqv_symm (h.disk.clean p f hf (by simpa using this))
  refine ⟨?_, ?_, ?_, fun _ => hlive.flush e, ?_, ?_⟩
  · show History _ (s.lm.flush e).log
    rw [hlog']
    exact h.hist
  · show DiskInv (s.lm.flush e).log (s.lm.flush e).file.length s.bm
    rw [hlog', hfile]
    exact h.disk.weaken LogManager.length_file_le
  · intro _
    show RedoOk (s.lm.flush e).file s.bm
    rw [hfile]
    exact RedoOk.of_current h.hist hdisk
  · simp only [ModeInv, Sys.ckptFinish, hn, Sys.log, hlog']
    exact ⟨hcur, htm⟩
  · show NoEnd (s.lm.flush e).buffer
    rw [hbuf']
    intro x hx
    cases hx

-- ---------------------------------------------------------------------------
-- Crashes
-- ---------------------------------------------------------------------------

/-- A crash keeps the invariant if what redo will skip is on the images it leaves. -/
theorem Inv.crash_of_redo {s : Sys P} {choice : Nat → P} (h : Inv strict s)
    (hprot : Protocol s (.crash choice)) (hredo : ∀ p, Reflects s.lm.file p (choice p)) :
    Inv strict (s.crash choice) := by
  have hlog : (s.crash choice).log = s.lm.file := List.append_nil _
  have hist : History (SysRule P) s.lm.file := h.hist.of_append
  have htake : ∀ k ≤ s.lm.file.length, s.log.take k = s.lm.file.take k :=
    fun k hk => List.take_append_of_le_length hk
  refine ⟨?_, ⟨?_, ?_, ?_⟩, ?_, fun hd => absurd rfl hd, ⟨rfl, rfl⟩, ?_⟩
  · rw [hlog]
    exact hist
  · intro p x hx
    rw [hlog]
    have himg : ∀ y ∈ s.bm.images p, ∃ k ≤ s.lm.file.length, Eqv y (stateAt (s.lm.file.take k) p) := by
      intro y hy
      obtain ⟨k, hk, he⟩ := h.disk.images p y hy
      exact ⟨k, hk, by rwa [htake k hk] at he⟩
    rcases List.mem_cons.mp hx with rfl | hx
    · rcases hprot p with hc | hc
      · exact himg _ hc
      · exact ⟨0, Nat.zero_le _, by rw [hc]; exact eqv_refl _⟩
    · exact himg x hx
  · intro p f hf
    cases hf
  · intro p
    exact Nat.le_refl _
  · intro _
    exact redoOk_iff.mpr hredo
  · intro r hr
    cases hr

theorem Inv.crash {s : Sys P} {choice : Nat → P} (h : Inv strict s)
    (hok : Ok strict s (.crash choice)) : Inv strict (s.crash choice) := by
  have hist : History (SysRule P) s.lm.file := h.hist.of_append
  refine h.crash_of_redo hok.protocol fun p => ?_
  rcases hok.durable with hnone | hdur
  · have hredo : RedoOk s.lm.file (s.crash choice).bm := .of_no_checkpoint hist hnone
    exact redoOk_iff.mp hredo p
  · rw [show choice = s.bm.readPage from hdur]
    exact redoOk_iff.mp (h.redo (hok.whole choice rfl)) p

end PersistX
