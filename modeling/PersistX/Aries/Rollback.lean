import PersistX.Aries.Preservation

/-!
# PersistX — data operations and rollback keep the invariant

A data operation leaves the page that redoing its UPDATE record would give,
and undoing an UPDATE leaves the page that redoing its CLR would give
(`undo_rule`): the slot still holds the UPDATE's after-image, and what is
forced back into it has room. The loop of `abort` follows the undo chain of
its transaction (`Inv.abortStep`).
-/

namespace PersistX

open PageOps LawfulPageOps

variable {P : Type} [LawfulPageOps P] {strict : Prop}

/-- A record is appended and its page changed in the pool as redo would. -/
theorem Current.append_data {log : List Record} {bm : BufferManager P} {r : Record} {p : Nat}
    {x : P} (h : Current log bm) (hp : r.body.page? = some p)
    (hx : Eqv x (redoRecord (stateAt log p) r.body r.lsn)) :
    Current (log ++ [r]) ((bm.fetchPage p).1.unpinPage p x true) := by
  intro q
  rw [BufferManager.page_modify]
  split
  · rename_i hq
    subst hq
    rwa [stateAt_append_self hp]
  · rename_i hq
    rw [stateAt_append_other (by rw [hp]; simpa using Ne.symm hq)]
    exact h q

omit [LawfulPageOps P] in
theorem readPage_modify [PageOps P] (bm : BufferManager P) (p : Nat) (x : P) (d : Bool) :
    ((bm.fetchPage p).1.unpinPage p x d).readPage = bm.readPage := by
  rw [BufferManager.modify_eq]
  rfl

theorem Inv.update {s s' : Sys P} {t p : Nat} {op : DataOp} {key : Int} (h : Inv strict s)
    (hrun : s.running = true) (hprot : Protocol s (.update t p op key))
    (hs : s.update t p op key = some s') : Inv strict s' := by
  obtain ⟨hn, -⟩ := running_iff.mp hrun
  obtain ⟨hcur, htm⟩ := h.normal hn
  obtain ⟨hinit, hfree⟩ := hprot
  rw [Sys.update] at hs
  split at hs
  · rename_i prev hl
    simp only [BufferManager.fetchPage_snd, Option.map_eq_some_iff] at hs
    obtain ⟨⟨x, slot, old, new⟩, hop, rfl⟩ := hs
    obtain ⟨hwf, hread⟩ := read_stateAt h.hist p
    have hwf' : Wf (s.bm.page p) := eqv_wf (eqv_symm (hcur p)) hwf
    have hread' : ∀ u, readRecord (s.bm.page p) u = contents s.log p u :=
      fun u => by rw [eqv_read u hwf' (hcur p), hread u]
    obtain ⟨himg, hne, hfits, hpage⟩ := DataOp.run_spec hwf' hinit
      (fun u => by rw [hread']; exact contents_ne_nil _ _ _) hop p key s.lm.nextLsn
    have hok := htm.txns t
    rw [hl] at hok
    obtain ⟨v, hv, hlast, hroll⟩ := hok
    have hnext := h.next_eq hn
    refine h.append hrun ⟨⟨⟨hnext, v, hv, hroll, by rw [hlast]⟩, ?_⟩, ⟨?_, ?_⟩, ?_⟩ rfl
      (h.disk.modify ?_ (by simp)) (readPage_modify _ _ _ _) (hcur.append_data rfl ?_)
      (htm.insert ⟨s.lm.nextLsn, t, some prev, .update p slot old new key⟩ ?_ (htm.lt hl)
        (Nat.le_refl _))
    · intro p' slot' old' new' k' hb
      simp only [RecordBody.update.injEq] at hb
      obtain ⟨rfl, rfl, rfl, rfl, rfl⟩ := hb
      refine ⟨by rw [himg, hread'], fun t' v' hne' hv' u hu o hup => ?_⟩
      exact hfree x slot old new hop ⟨t', v', u, o, hne', hv', hu, hup⟩
    · intro p' slot' k' hb
      simp only [RecordBody.update.injEq] at hb
      exact hne hb.2.2.2.1 hb.2.2.1
    · intro q hq
      obtain rfl : p = q := by simpa [RecordBody.page?, RecordBody.write?] using hq
      rw [← eqv_redoFits _ hwf' (hcur p)]
      exact hfits
    · intro a d hb
      cases hb
    · rw [lsn_setPageLsn]
      show _ ≤ s.lm.nextLsn
      rw [hnext]
      exact hcur.lsn_le h.hist p
    · show Eqv (setPageLsn x s.lm.nextLsn) _
      rw [hpage]
      exact eqv_redoRecord _ hwf' (hcur p) hfits
    · exact ⟨_, active_append_update hv, rfl, hroll⟩
  · cases hs

theorem Inv.newPage {s : Sys P} {p : Nat} {d : Bool} (h : Inv strict s)
    (hrun : s.running = true) (hprot : Protocol s (.newPage p d)) :
    Inv strict (s.newPage p d) := by
  obtain ⟨hn, hidle⟩ := running_iff.mp hrun
  obtain ⟨hcur, htm⟩ := h.normal hn
  obtain ⟨hnew, hpool⟩ := hprot
  -- no record is about the page, so all that was ever written for it is a page without records
  have hzero : ∀ k, (stateAt (s.log.take k) p : P) = zero := by
    intro k
    have := stateAt_append_quiet (P := P) (a := []) (b := s.log.take k) (p := p)
      fun r hr => hnew r (List.mem_of_mem_take hr)
    simpa using this
  obtain ⟨k, -, hread⟩ := h.disk.readPage p
  rw [hzero k] at hread
  have hpage : ∀ q, (s.newPage p d).bm.page q = if q = p then PageOps.init p else s.bm.page q := by
    intro q
    split
    · rename_i hq
      subst hq
      simp only [BufferManager.page, Sys.newPage, AList.lookup_insert]
    · rename_i hq
      simp only [BufferManager.page, Sys.newPage, AList.lookup_insert_ne hq]
      rfl
  refine ⟨h.hist, ⟨h.disk.images, ?_, ?_⟩, h.redo, h.live, ?_, ?_⟩
  · intro q f hf hclean
    by_cases hq : q = p
    · subst hq
      simp only [Sys.newPage, AList.lookup_insert, Option.some.injEq] at hf
      subst hf
      exact eqv_trans (eqv_init q) (eqv_symm hread)
    · simp only [Sys.newPage, AList.lookup_insert_ne hq] at hf
      exact h.disk.clean q f hf hclean
  · intro q
    rw [hpage]
    split
    · rename_i hq
      subst hq
      exact Nat.le_of_eq ((eqv_lsn hread).trans (eqv_lsn (eqv_init q)).symm)
    · exact h.disk.mono q
  · simp only [ModeInv, Sys.newPage, hn]
    refine ⟨fun q => ?_, htm⟩
    have := hpage q
    rw [Sys.newPage] at this
    rw [this]
    split
    · rename_i hq
      subst hq
      have hz := hzero s.log.length
      rw [List.take_length] at hz
      show Eqv (PageOps.init q) (stateAt s.log q)
      rw [hz]
      exact eqv_init q
    · exact hcur q
  · have := h.ckpt
    simp only [CkptInv, Sys.newPage, hidle] at this ⊢
    exact this

-- ---------------------------------------------------------------------------
-- Undoing one UPDATE
-- ---------------------------------------------------------------------------

/-- **One undo step.** The CLR is a legitimate record, and the page is what
redoing it gives. -/
theorem undo_rule {log : List Record} {bm : BufferManager P} {t last u lsn : Nat} {us : List Nat}
    {v : TxnView} {ru : Record} {p slot : Nat} {old new : Bytes} {k : Int}
    (hist : History (SysRule P) log) (hcur : Current log bm) (hv : active log t = some v)
    (hlast : v.last = last) (hpend : v.pend = u :: us) (hru : log[u]? = some ru)
    (hb : ru.body = .update p slot old new k) (hlsn : lsn = log.length)
    (hroom : undoFits (bm.page p) slot old new = true) :
    SysRule P log ⟨lsn, t, some last, .clr p slot old ru.prevLsn⟩ ∧
    Eqv (undoRecord (bm.page p) slot old new lsn)
      (redoRecord (stateAt log p) (.clr p slot old ru.prevLsn) lsn) := by
  obtain ⟨hwf, hread⟩ := read_stateAt hist p
  have hwf' : Wf (bm.page p) := eqv_wf (eqv_symm (hcur p)) hwf
  have hnew : readRecord (bm.page p) slot = image new := by
    have hundo := hist.legit.undoes t v hv
    rw [hpend] at hundo
    cases hundo with
    | cons hx hxb hc _ =>
      rw [hru] at hx
      obtain rfl := Option.some.inj hx
      rw [hb] at hxb
      injection hxb with hp hs ho hn
      subst hp hs ho hn
      rw [eqv_read _ hwf' (hcur p), hread, hc]
  have hfits : redoFits (bm.page p) (.clr p slot old ru.prevLsn) = true :=
    redoFits_of_undoFits hwf' hnew hroom
  refine ⟨⟨⟨⟨hlsn, v, u, us, ru, hv, hpend, by rw [hlast], hru, ⟨new, k, hb⟩, rfl⟩, ?_⟩,
    ⟨?_, ?_⟩, ?_⟩, ?_⟩
  · intro p' s' o' n' k' hb'
    cases hb'
  · intro p' s' k' hb'
    cases hb'
  · intro q hq
    obtain rfl : p = q := by simpa [RecordBody.page?, RecordBody.write?] using hq
    rw [← eqv_redoFits _ hwf' (hcur p)]
    exact hfits
  · intro a d hb'
    cases hb'
  · rw [undoRecord_eq_redoRecord p ru.prevLsn hwf' hnew]
    exact eqv_redoRecord _ hwf' (hcur p) hfits

-- ---------------------------------------------------------------------------
-- Abort
-- ---------------------------------------------------------------------------

theorem Inv.abortLog {s s' : Sys P} {t : Nat} (h : Inv strict s) (hrun : s.running = true)
    (hs : s.abortLog t = some s') : Inv strict s' := by
  obtain ⟨hn, -⟩ := running_iff.mp hrun
  obtain ⟨-, htm⟩ := h.normal hn
  rw [Sys.abortLog] at hs
  split at hs
  · rename_i prev hl
    obtain rfl := Option.some.inj hs
    have hok := htm.txns t
    rw [hl] at hok
    obtain ⟨v, hv, hlast, hroll⟩ := hok
    have hchain := ((h.hist.lifecycle SysRule.lifecycle).2 t v hv).chain
    rw [hlast] at hchain
    refine h.appendQuiet hrun ⟨h.next_eq hn, v, hv, hroll, by rw [hlast]⟩ rfl rfl
      (htm.insert ⟨s.lm.nextLsn, t, some prev, .abort⟩ ?_ (htm.lt hl) (Nat.le_refl _))
    exact ⟨_, prev, active_append_abort hv, rfl, rfl, hchain.append _⟩
  · cases hs

theorem Inv.abortStep {s s' : Sys P} {t : Nat} (h : Inv strict s) (hrun : s.running = true)
    (hroom : UndoRoom s (.abortStep t)) (hs : s.abortStep t = some s') : Inv strict s' := by
  obtain ⟨hn, hidle⟩ := running_iff.mp hrun
  have h' := h.flushLm (by rw [hn]; simp) hidle (Or.inr (Eq.refl s.lm.flushAll))
  have hlog : ({ s with lm := s.lm.flushAll } : Sys P).log = s.log := LogManager.flushAll_log
  obtain ⟨hcur, htm⟩ := h'.normal hn
  rw [Sys.abortStep] at hs
  split at hs
  · rename_i last u hl
    have hok := htm.txns t
    simp only [hl] at hok
    obtain ⟨v, x, hv, hlast, hx, hchain⟩ := hok
    obtain rfl := Option.some.inj hx
    have hpos : ∀ (i : Nat) (r : Record), s.lm.log[i]? = some r → r.lsn = i :=
      fun i r hr => h.hist.lsn_eq hr
    -- the entry changes and nothing is logged
    have hset : ∀ y, TxnOk ({ s with lm := s.lm.flushAll } : Sys P).log t (some y) →
        Inv strict (({ s with lm := s.lm.flushAll } : Sys P).setTxn t y) :=
      fun y hy => h'.setTm hrun (htm.set hy (htm.lt hl))
    have hget : ∀ {r : Record}, ({ s with lm := s.lm.flushAll } : Sys P).log[u]? = some r →
        s.lm.log[u]? = some r := by
      intro r hr
      rwa [hlog] at hr
    generalize hpend : v.pend = us at hchain
    cases hchain with
    | @begin _ r hr ht hb =>
      simp only [LogManager.readRecordAtLsn_eq hpos (hget hr), hb, Option.some.injEq] at hs
      subst hs
      exact hset _ ⟨v, hv, hlast, hpend⟩
    | @update _ l' r us hr ht hb hp hlt hrest =>
      obtain ⟨p, slot, old, new, k, hb⟩ := hb
      simp only [LogManager.readRecordAtLsn_eq hpos (hget hr), hb, Sys.undoUpdate,
        BufferManager.fetchPage_snd, Option.some.injEq] at hs
      subst hs
      have hnext := h'.next_eq hn
      obtain ⟨hrule, hpage⟩ := undo_rule h'.hist hcur hv hlast hpend hr hb hnext
        (hroom last u hl r p slot old new k (hget hr) hb)
      refine h'.append hrun hrule rfl (h'.disk.modify ?_ (by simp)) (readPage_modify _ _ _ _)
        (hcur.append_data rfl hpage) (htm.insert _ ?_ (htm.lt hl) (Nat.le_refl _))
      · refine Nat.le_trans (hcur.lsn_le h'.hist p) (Nat.le_of_eq ?_)
        rw [← hnext]
        exact ((eqv_lsn hpage).trans (lsn_redoRecord _ _ _)).symm
      · refine ⟨_, l', active_append_clr hv, rfl, hp, ?_⟩
        rw [hpend]
        exact hrest.append _
    | @clr _ l' r us hr ht hb hlt hrest =>
      obtain ⟨p, sl, n, hb⟩ := hb
      simp only [LogManager.readRecordAtLsn_eq hpos (hget hr), hb, Option.some.injEq] at hs
      subst hs
      exact hset _ ⟨v, l', hv, hlast, rfl, by rwa [hpend]⟩
    | @abort _ l' r us hr ht hb hp hlt hrest =>
      simp only [LogManager.readRecordAtLsn_eq hpos (hget hr), hb, Option.some.injEq] at hs
      subst hs
      exact hset _ ⟨v, l', hv, hlast, hp, by rwa [hpend]⟩
  · rename_i last hl
    have hok := htm.txns t
    simp only [hl] at hok
    obtain ⟨v, x, -, -, hx, -⟩ := hok
    cases hx
  · cases hs

theorem Inv.abortEnd {s s' : Sys P} {t : Nat} (h : Inv strict s) (hrun : s.running = true)
    (hs : s.abortEnd t = some s') : Inv strict s' := by
  obtain ⟨hn, -⟩ := running_iff.mp hrun
  obtain ⟨-, htm⟩ := h.normal hn
  rw [Sys.abortEnd] at hs
  split at hs
  · rename_i last hl
    obtain rfl := Option.some.inj hs
    have hok := htm.txns t
    rw [hl] at hok
    obtain ⟨v, hv, -, hpend⟩ := hok
    refine h.appendQuiet hrun ⟨h.next_eq hn, ?_⟩ rfl rfl
      (htm.erase ⟨s.lm.nextLsn, t, some last, .txnEnd⟩ active_append_one_self)
    intro w hw
    rw [show active s.log t = some v from hv] at hw
    rw [← Option.some.inj hw]
    exact hpend
  · cases hs

end PersistX
