import PersistX.Aries.Rollback
import PersistX.Aries.Checkpoint

/-!
# PersistX — the recovery passes keep the invariant

Each step of `recover()`, one lemma per pass:

* `Inv.startRecovery` — after the analysis, redo will skip no record that is
  missing from its page;
* `Inv.redoStep` — redo moves every page along the log, and when it is
  through, every page is up to date (`RedoInv.current`);
* `Inv.undoStep` — undo keeps, for each loser, its place on its undo chain
  (`UndoInv`), and is through when nobody is open any more.
-/

namespace PersistX

open PageOps LawfulPageOps

variable {P : Type} [LawfulPageOps P] {strict : Prop}

theorem Inv.idle {s : Sys P} (h : Inv strict s) (hn : s.mode ≠ .normal) : s.ckpt = .idle := by
  have hck := h.ckpt
  rw [CkptInv] at hck
  cases hc : s.ckpt with
  | idle => rfl
  | begun => rw [hc] at hck; exact absurd hck.1 hn
  | snapped a d => rw [hc] at hck; exact absurd hck.1 hn
  | writing e f => rw [hc] at hck; exact absurd hck.1 hn

-- ---------------------------------------------------------------------------
-- Analysis
-- ---------------------------------------------------------------------------

/-- The starting point of redo is at or before every `rec_lsn`. -/
theorem startLsn_foldl_le (l : List (Sigma fun _ : Nat => Nat)) : ∀ start : Option Nat,
    (∀ a, start = some a → ∃ m ≤ a, l.foldl (fun start e =>
      match start with
      | none => some e.2
      | some l => if e.2 < l then some e.2 else start) start = some m) ∧
    ∀ e ∈ l, ∃ m ≤ e.2, l.foldl (fun start e =>
      match start with
      | none => some e.2
      | some l => if e.2 < l then some e.2 else start) start = some m := by
  induction l with
  | nil => exact fun start => ⟨fun a ha => ⟨a, Nat.le_refl _, ha⟩, fun e he => by cases he⟩
  | cons e l ih =>
    intro start
    simp only [List.foldl_cons]
    cases start with
    | none =>
      refine ⟨fun a ha => (by cases ha), fun e' he' => ?_⟩
      rcases List.mem_cons.mp he' with rfl | he'
      · exact (ih (some e'.2)).1 _ rfl
      · exact (ih _).2 e' he'
    | some b =>
      refine ⟨fun a ha => ?_, fun e' he' => ?_⟩
      · obtain rfl := Option.some.inj ha
        simp only
        split
        · obtain ⟨m, hm, h⟩ := (ih (some e.2)).1 _ rfl
          exact ⟨m, by omega, h⟩
        · exact (ih (some b)).1 _ rfl
      · rcases List.mem_cons.mp he' with rfl | he'
        · simp only
          split
          · exact (ih (some e'.2)).1 _ rfl
          · obtain ⟨m, hm, h⟩ := (ih (some b)).1 _ rfl
            exact ⟨m, by omega, h⟩
        · exact (ih _).2 e' he'

theorem startLsn_le {dpt : Table} {p l : Nat} (h : dpt.lookup p = some l) :
    ∃ m ≤ l, Sys.startLsn dpt = some m :=
  (startLsn_foldl_le dpt.entries none).2 ⟨p, l⟩ (AList.mem_lookup_iff.mp h)

/-- Recovery may start from any tables that hold the losers and let redo skip
only what is on disk. -/
theorem Inv.startRecovery {s : Sys P} (h : Inv strict s) (hd : s.mode = .down)
    {tables : Table × Table} (hatt : AttExact tables.1 s.lm.file)
    (hcov : ∀ p, Covers tables.2 s.lm.file p (pageLsn (s.bm.readPage p) + 1)) :
    Inv strict (s.startRecovery tables) := by
  have hm := h.mode
  rw [ModeInv, hd] at hm
  obtain ⟨hframes, hbuf⟩ := hm
  have hidle := h.idle (by rw [hd]; simp)
  have hlog : s.log = s.lm.file := by
    show s.lm.file ++ s.lm.buffer = _
    rw [hbuf, List.append_nil]
  have hlog' : (s.startRecovery tables).log = s.lm.file := List.append_nil _
  have hpage : ∀ p, s.bm.page p = s.bm.readPage p := by
    intro p
    apply BufferManager.page_of_none
    rw [hframes]
    rfl
  have hlsn : ∀ (i : Nat) (r : Record), s.lm.file[i]? = some r → r.lsn = i := by
    intro i r hr
    rw [← hlog] at hr
    exact h.hist.lsn_eq hr
  refine ⟨?_, ?_, h.redo, fun _ => LogManager.readLog_ok hlsn, ?_, ?_⟩
  · rw [hlog', ← hlog]
    exact h.hist
  · have := h.disk
    rw [hlog] at this
    rw [hlog']
    exact this
  · refine ⟨rfl, by rw [hlog']; exact hatt, ?_⟩
    have hpre : ∀ p, ∃ k, Eqv (s.bm.page p) (stateAt (s.lm.file.take k) p) := by
      intro p
      obtain ⟨k, -, hk⟩ := h.disk.readPage p
      exact ⟨k, by rw [hpage, ← hlog]; exact hk⟩
    by_cases hstart : (Sys.startLsn tables.2).isNone = true
    · -- an empty DPT: redo does nothing, and there is nothing to do
      refine ⟨s.lm.file.length, ?_, hpre, fun p j r hr hp _ => ?_⟩
      · simp only [hstart, if_true]
        exact (List.drop_length).symm
      · show j ≤ pageLsn (s.bm.page p)
        rw [hpage]
        have := hcov p j r hr hp fun l hl => by
          obtain ⟨m, -, hm⟩ := startLsn_le hl
          rw [hm] at hstart
          cases hstart
        omega
    · refine ⟨0, ?_, hpre, fun p j r hr hp hor => ?_⟩
      · rw [if_neg hstart]
        rfl
      · show j ≤ pageLsn (s.bm.page p)
        rw [hpage]
        rcases hor with hj | hfil
        · exact absurd hj (Nat.not_lt_zero j)
        · have := hcov p j r hr hp hfil
          omega
  · show CkptInv (s.startRecovery tables)
    simp only [CkptInv, Sys.startRecovery, hidle]
    intro r hr
    cases hr

/-- `analyze` gives such tables. -/
theorem Inv.analyze_ok {s : Sys P} (h : Inv strict s) (hd : s.mode = .down) :
    AttExact (analyze s.lm.file).1 s.lm.file ∧
    ∀ p, Covers (analyze s.lm.file).2 s.lm.file p (pageLsn (s.bm.readPage p) + 1) := by
  refine ⟨analyze_attExact SysRule.lifecycle (fun _ _ a d h hb => (h.ckpt a d hb).1)
    h.hist.of_append, fun p => ?_⟩
  have := h.redo (Or.inr (h.idle (by rw [hd]; simp))) _ (Nat.le_refl _) p
  rwa [List.take_length] at this

-- ---------------------------------------------------------------------------
-- Redo
-- ---------------------------------------------------------------------------

/-- When redo is through, every page is up to date. -/
theorem RedoInv.current {file : List Record} {bm : BufferManager P} {dpt : Table} {m : Nat}
    (h : RedoInv file bm dpt m) (hist : History (SysRule P) file) (hm : file.length ≤ m) :
    Current file bm := by
  intro p
  obtain ⟨k, hk⟩ := h.prefixes p
  refine eqv_trans hk ?_
  have hall : ∀ (j : Nat) (r : Record), file[j]? = some r → r.body.page? = some p → j < k := by
    intro j r hr hp
    have hj := (List.getElem?_eq_some_iff.mp hr).1
    have := h.reflects p j r hr hp (Or.inl (by omega))
    rw [eqv_lsn hk] at this
    exact (lt_iff_le_pageLsn hist hr hp).mpr this
  rcases Nat.lt_or_ge k file.length with hlt | hge
  · have : (stateAt (file.take file.length) p : P) = stateAt (file.take k) p :=
      stateAt_take_eq (Nat.le_of_lt hlt) fun j r hr hkj _ hp => by
        have := hall j r hr hp
        omega
    rw [← this, List.take_length]
    exact eqv_refl _
  · rw [List.take_of_length_le hge]
    exact eqv_refl _

/-- **One iteration of redo.** -/
theorem RedoInv.redoOne {file : List Record} {bm : BufferManager P} {dpt : Table} {m : Nat}
    {r : Record} (h : RedoInv file bm dpt m) (hist : History (SysRule P) file)
    (hr : file[m]? = some r) : RedoInv file (Sys.redoOne dpt bm r) dpt (m + 1) := by
  have hlsn : r.lsn = m := hist.lsn_eq hr
  -- nothing is done: the record has to be reflected already
  have skip : (∀ p, r.body.page? = some p → Filtered dpt p m ∨ m ≤ pageLsn (bm.page p)) →
      RedoInv file bm dpt (m + 1) := by
    intro hskip
    refine ⟨h.prefixes, fun p j x hx hp hor => ?_⟩
    rcases hor with hj | hfil
    · rcases Nat.lt_or_ge j m with hlt | hge
      · exact h.reflects p j x hx hp (Or.inl hlt)
      · obtain rfl : j = m := by omega
        rw [hr] at hx
        obtain rfl := Option.some.inj hx
        rcases hskip p hp with hfil | hle
        · exact h.reflects p j r hr hp (Or.inr hfil)
        · exact hle
    · exact h.reflects p j x hx hp (Or.inr hfil)
  rw [Sys.redoOne]
  split
  · rename_i hstart
    refine skip fun p _ => Or.inl fun l hl => ?_
    obtain ⟨a, hle, ha⟩ := startLsn_le hl
    rw [ha, Option.any_some, decide_eq_true_eq, hlsn] at hstart
    omega
  · split
    · rename_i hp
      refine skip fun p hp' => ?_
      rw [hp] at hp'
      cases hp'
    · rename_i p hp
      have honly : ∀ q, r.body.page? = some q → q = p := by
        intro q hq
        rw [hp] at hq
        exact (Option.some.inj hq).symm
      split
      · rename_i hl
        refine skip fun q hq => Or.inl fun l hl' => ?_
        rw [honly q hq, hl] at hl'
        cases hl'
      · rename_i recLsn hl
        split
        · rename_i hlt
          refine skip fun q hq => Or.inl fun l hl' => ?_
          rw [honly q hq, hl] at hl'
          obtain rfl := Option.some.inj hl'
          omega
        · rename_i hge
          simp only [BufferManager.fetchPage_snd]
          obtain ⟨k, hk⟩ := h.prefixes p
          have hkl := eqv_lsn hk
          have hcase := redo_skips_or_applies (P := P) (k := k) hist hr hp fun j x hx hxp hj => by
            have := h.reflects p j x hx hxp (Or.inl hj)
            rw [hkl] at this
            exact (lt_iff_le_pageLsn hist hx hxp).mpr this
          rw [hlsn, hkl]
          rcases hcase with ⟨hskip, -⟩ | ⟨happly, hstate⟩
          · -- check 3: the page has seen the record
            rw [if_pos hskip]
            have hsame : ∀ q, ((bm.fetchPage p).1.unpinPage p (bm.page p) false).page q =
                bm.page q := by
              intro q
              rw [BufferManager.page_modify]
              split
              · rename_i hq
                rw [hq]
              · rfl
            have := skip fun q hq => Or.inr (by rw [honly q hq, hkl]; exact hskip)
            exact ⟨fun q => by rw [hsame]; exact this.prefixes q,
              fun q => by rw [hsame]; exact this.reflects q⟩
          · rw [if_neg (Nat.not_le.mpr happly)]
            have hnew : Eqv (redoRecord (bm.page p) r.body m) (stateAt (file.take (m + 1)) p) := by
              rw [List.take_add_one, hr, Option.toList_some, stateAt_append_self hp, hlsn]
              rw [hstate] at hk
              have hwf := (read_stateAt (hist.take m) p).1
              exact eqv_symm (eqv_redoRecord _ hwf (eqv_symm hk) ((hist.rule_at hr).page.2 p hp))
            refine ⟨fun q => ?_, fun q j x hx hxp hor => ?_⟩
            · rw [BufferManager.page_modify]
              split
              · rename_i hq
                subst hq
                exact ⟨m + 1, hnew⟩
              · exact h.prefixes q
            · rw [BufferManager.page_modify]
              split
              · rename_i hq
                subst hq
                rw [lsn_redoRecord]
                rcases hor with hj | hfil
                · omega
                · have := hfil recLsn hl
                  omega
              · rename_i hq
                refine h.reflects q j x hx hxp (hor.imp_left fun hj => ?_)
                rcases Nat.lt_or_ge j m with hlt | hge'
                · exact hlt
                · obtain rfl : j = m := by omega
                  rw [hr] at hx
                  obtain rfl := Option.some.inj hx
                  exact absurd (honly q hxp) hq

theorem Inv.redoStep {s : Sys P} {r : Record} {rest : List Record} {dpt att : Table}
    (h : Inv strict s) (hmode : s.mode = .redo (r :: rest) dpt att) :
    Inv strict { s with bm := Sys.redoOne dpt s.bm r, mode := .redo rest dpt att } := by
  have hm := h.mode
  rw [ModeInv, hmode] at hm
  obtain ⟨hbuf, hatt, m, hrest, hredo⟩ := hm
  have hidle := h.idle (by rw [hmode]; simp)
  have hlog : s.log = s.lm.file := by
    show s.lm.file ++ s.lm.buffer = _
    rw [hbuf, List.append_nil]
  have hist : History (SysRule P) s.lm.file := h.hist.of_append
  have hr : s.lm.file[m]? = some r := by
    have := congrArg List.head? hrest
    rw [List.head?_cons, List.head?_drop] at this
    exact this.symm
  have hrest' : rest = s.lm.file.drop (m + 1) := by
    rw [← List.drop_drop, ← hrest]
    rfl
  have hredo' := hredo.redoOne hist hr
  -- the page only moves forward
  have hdisk : DiskInv s.log s.lm.file.length (Sys.redoOne dpt s.bm r) := by
    rw [Sys.redoOne]
    split
    · exact h.disk
    · split
      · exact h.disk
      · split
        · exact h.disk
        · split
          · exact h.disk
          · simp only [BufferManager.fetchPage_snd]
            split
            · exact h.disk.modify (Nat.le_refl _) fun _ => rfl
            · rename_i hlt
              refine h.disk.modify ?_ (by simp)
              rw [lsn_redoRecord]
              omega
  have hread : (Sys.redoOne dpt s.bm r).readPage = s.bm.readPage := by
    rw [Sys.redoOne]
    split
    · rfl
    · split
      · rfl
      · split
        · rfl
        · split
          · rfl
          · simp only
            split <;> exact readPage_modify _ _ _ _
  refine ⟨h.hist, hdisk, fun hs => (h.redo hs).mono fun p => ?_, fun _ => h.live (by simp [hmode]),
    ⟨hbuf, hatt, m + 1, hrest', hredo'⟩, ?_⟩
  · show _ ≤ pageLsn ((Sys.redoOne dpt s.bm r).readPage p)
    rw [hread]
  · have := h.ckpt
    simp only [CkptInv, hidle] at this ⊢
    exact this

/-- `to_undo`, collected from the last LSNs of the losers. -/
theorem AttExact.undoInv {log : List Record} {att : Table} (h : AttExact att log)
    (hinv : ∀ t v, active log t = some v → TxnInv log t v) :
    UndoInv log (att.entries.map (·.2)).toFinset := by
  have hmem : ∀ x, x ∈ (att.entries.map (·.2)).toFinset ↔ ∃ t, att.lookup t = some x := by
    intro x
    rw [List.mem_toFinset, List.mem_map]
    constructor
    · rintro ⟨e, he, rfl⟩
      exact ⟨e.1, AList.mem_lookup_iff.mpr he⟩
    · rintro ⟨t, ht⟩
      exact ⟨⟨t, x⟩, AList.mem_lookup_iff.mp ht, rfl⟩
  have hchain : ∀ t x, att.lookup t = some x → ∃ v, active log t = some v ∧ v.last = x ∧
      UndoChain log t x v.pend := by
    intro t x hx
    rw [h t, Option.map_eq_some_iff] at hx
    obtain ⟨v, hv, rfl⟩ := hx
    exact ⟨v, hv, rfl, (hinv t v hv).chain⟩
  refine ⟨?_, ?_, ?_⟩
  · intro t v hv
    refine ⟨v.last, (hmem _).mpr ⟨t, ?_⟩, (hinv t v hv).chain⟩
    rw [h t, hv, Option.map_some]
  · intro x hx
    obtain ⟨t, ht⟩ := (hmem x).mp hx
    obtain ⟨v, hv, -, hc⟩ := hchain t x ht
    exact ⟨t, v, hv, hc⟩
  · intro x hx y hy r r' hr hr' htid
    obtain ⟨t, ht⟩ := (hmem x).mp hx
    obtain ⟨t', ht'⟩ := (hmem y).mp hy
    obtain ⟨v, -, -, hc⟩ := hchain t x ht
    obtain ⟨v', -, -, hc'⟩ := hchain t' y ht'
    obtain ⟨a, ha, rfl⟩ := hc.record
    obtain ⟨b, hb, rfl⟩ := hc'.record
    rw [hr] at ha
    rw [hr'] at hb
    rw [← Option.some.inj ha] at ht
    rw [← Option.some.inj hb, ← htid, ht] at ht'
    exact Option.some.inj ht'

/-- The end of redo. -/
theorem Inv.redoEnd {s : Sys P} {dpt att : Table} (h : Inv strict s)
    (hmode : s.mode = .redo [] dpt att) :
    Inv strict { s with mode := .undo (att.entries.map (·.2)).toFinset att } := by
  have hm := h.mode
  rw [ModeInv, hmode] at hm
  obtain ⟨hbuf, hatt, m, hrest, hredo⟩ := hm
  have hlog : s.log = s.lm.file := by
    show s.lm.file ++ s.lm.buffer = _
    rw [hbuf, List.append_nil]
  refine ⟨h.hist, h.disk, h.redo, fun _ => h.live (by simp [hmode]),
    ⟨?_, hatt, hatt.undoInv (h.hist.lifecycle SysRule.lifecycle).2⟩, ?_⟩
  · show Current s.log s.bm
    rw [hlog]
    exact hredo.current h.hist.of_append (List.drop_eq_nil_iff.mp hrest.symm)
  · have := h.ckpt
    simp only [CkptInv, h.idle (by rw [hmode]; simp)] at this ⊢
    exact this

-- ---------------------------------------------------------------------------
-- Undo
-- ---------------------------------------------------------------------------

/-- The loser of the record just handled moves on along its chain. -/
theorem UndoInv.advance {log log' : List Record} {toUndo : Finset Nat} {x l t : Nat} {rx : Record}
    {v : TxnView} (h : UndoInv log toUndo) (hx : x ∈ toUndo) (hrx : log[x]? = some rx)
    (ht : rx.txnId = t) (hext : ∀ i < log.length, log'[i]? = log[i]?)
    (hother : ∀ t', t' ≠ t → active log' t' = active log t')
    (hmono : ∀ t' y us, UndoChain log t' y us → UndoChain log' t' y us)
    (hv : active log' t = some v) (hl : UndoChain log t l v.pend) :
    UndoInv log' (insert l (toUndo.erase x)) := by
  -- what is left belongs to other losers
  have hrest : ∀ y ∈ toUndo.erase x, ∃ t' w r, t' ≠ t ∧ active log t' = some w ∧
      UndoChain log t' y w.pend ∧ log[y]? = some r ∧ r.txnId = t' := by
    intro y hy
    obtain ⟨hne, hy⟩ := Finset.mem_erase.mp hy
    obtain ⟨t', w, hw, hc⟩ := h.only y hy
    obtain ⟨r, hr, hrt⟩ := hc.record
    refine ⟨t', w, r, ?_, hw, hc, hr, hrt⟩
    intro heq
    exact hne (h.unique y hy x hx r rx hr hrx (by rw [hrt, ht, heq]))
  obtain ⟨rl, hrl, hrlt⟩ := hl.record
  have hlt : ∀ {i : Nat} {r : Record}, log[i]? = some r → log'[i]? = some r :=
    fun hi => (hext _ (List.getElem?_eq_some_iff.mp hi).1).trans hi
  refine ⟨?_, ?_, ?_⟩
  · intro t' w hw
    by_cases htt : t' = t
    · subst htt
      rw [hv] at hw
      obtain rfl := Option.some.inj hw
      exact ⟨l, Finset.mem_insert_self _ _, hmono _ _ _ hl⟩
    · rw [hother t' htt] at hw
      obtain ⟨y, hy, hc⟩ := h.all t' w hw
      refine ⟨y, Finset.mem_insert_of_mem (Finset.mem_erase.mpr ⟨?_, hy⟩), hmono _ _ _ hc⟩
      rintro rfl
      obtain ⟨r, hr, hrt⟩ := hc.record
      rw [hrx] at hr
      rw [← Option.some.inj hr, ht] at hrt
      exact htt hrt.symm
  · intro y hy
    rcases Finset.mem_insert.mp hy with rfl | hy
    · exact ⟨t, v, hv, hmono _ _ _ hl⟩
    · obtain ⟨t', w, r, htt, hw, hc, -⟩ := hrest y hy
      exact ⟨t', w, by rw [hother t' htt, hw], hmono _ _ _ hc⟩
  · intro y hy z hz r r' hr hr' htid
    rcases Finset.mem_insert.mp hy with hyl | hye <;> rcases Finset.mem_insert.mp hz with hzl | hze
    · rw [hyl, hzl]
    · obtain ⟨t', w, b, htt, -, -, hb, hbt⟩ := hrest z hze
      subst hyl
      rw [hlt hrl] at hr
      rw [hlt hb] at hr'
      rw [← Option.some.inj hr, ← Option.some.inj hr', hrlt, hbt] at htid
      exact absurd htid.symm htt
    · obtain ⟨t', w, b, htt, -, -, hb, hbt⟩ := hrest y hye
      subst hzl
      rw [hlt hb] at hr
      rw [hlt hrl] at hr'
      rw [← Option.some.inj hr, ← Option.some.inj hr', hrlt, hbt] at htid
      exact absurd htid htt
    · obtain ⟨t', w, b, -, -, -, hb, -⟩ := hrest y hye
      obtain ⟨t'', w', b', -, -, -, hb', -⟩ := hrest z hze
      rw [hlt hb] at hr
      rw [hlt hb'] at hr'
      rw [← Option.some.inj hr, ← Option.some.inj hr'] at htid
      exact h.unique y (Finset.mem_of_mem_erase hye) z (Finset.mem_of_mem_erase hze) b b' hb hb' htid

/-- The loser of the record just handled is done. -/
theorem UndoInv.finish {log : List Record} {r : Record} {toUndo : Finset Nat} {x : Nat}
    {rx : Record} (h : UndoInv log toUndo) (hx : x ∈ toUndo) (hrx : log[x]? = some rx)
    (ht : rx.txnId = r.txnId) (hend : active (log ++ [r]) r.txnId = none) :
    UndoInv (log ++ [r]) (toUndo.erase x) := by
  have hlt : ∀ {i : Nat} {a : Record}, log[i]? = some a → (log ++ [r])[i]? = some a :=
    getElem?_append_of_some
  have hrec : ∀ y ∈ toUndo.erase x, ∃ t' w a, t' ≠ r.txnId ∧ active log t' = some w ∧
      UndoChain log t' y w.pend ∧ log[y]? = some a ∧ a.txnId = t' := by
    intro y hy
    obtain ⟨hne, hy⟩ := Finset.mem_erase.mp hy
    obtain ⟨t', w, hw, hc⟩ := h.only y hy
    obtain ⟨a, ha, hat⟩ := hc.record
    refine ⟨t', w, a, ?_, hw, hc, ha, hat⟩
    intro heq
    exact hne (h.unique y hy x hx a rx ha hrx (by rw [hat, ht, heq]))
  refine ⟨?_, ?_, ?_⟩
  · intro t' w hw
    have htt : r.txnId ≠ t' := by
      rintro rfl
      rw [hend] at hw
      cases hw
    rw [active_append_one_ne htt] at hw
    obtain ⟨y, hy, hc⟩ := h.all t' w hw
    refine ⟨y, Finset.mem_erase.mpr ⟨?_, hy⟩, hc.append r⟩
    rintro rfl
    obtain ⟨a, ha, hat⟩ := hc.record
    rw [hrx] at ha
    rw [← Option.some.inj ha, ht] at hat
    exact htt hat
  · intro y hy
    obtain ⟨t', w, a, htt, hw, hc, -⟩ := hrec y hy
    exact ⟨t', w, by rwa [active_append_one_ne (Ne.symm htt)], hc.append r⟩
  · intro y hy z hz a a' ha ha' htid
    obtain ⟨t', w, b, -, -, -, hb, -⟩ := hrec y hy
    obtain ⟨t'', w', b', -, -, -, hb', -⟩ := hrec z hz
    rw [hlt hb] at ha
    rw [hlt hb'] at ha'
    rw [← Option.some.inj ha, ← Option.some.inj ha'] at htid
    exact h.unique y (Finset.mem_of_mem_erase hy) z (Finset.mem_of_mem_erase hz) b b' hb hb' htid

/-- **One iteration of undo.** The invariant is kept, and the LSNs still to
undo are smaller than the one just handled. -/
theorem Inv.undoStep {s : Sys P} {toUndo : Finset Nat} {att : Table} {x : Nat}
    (h : Inv strict s) (hmode : s.mode = .undo toUndo att) (hmax : toUndo.max = some x)
    (hroom : RoomAt s x) : Inv strict (s.undoOne toUndo att x) ∧
      ∃ toUndo' att', (s.undoOne toUndo att x).mode = .undo toUndo' att' ∧ ∀ y ∈ toUndo', y < x := by
  have hd : s.mode ≠ .down := by rw [hmode]; simp
  have hidle := h.idle (by rw [hmode]; simp)
  have h' := h.flushLm hd hidle (Or.inr (Eq.refl s.lm.flushAll))
  have hm := h'.mode
  simp only [ModeInv, hmode] at hm
  obtain ⟨hcur, hatt, hundo⟩ := hm
  have hlog : ({ s with lm := s.lm.flushAll } : Sys P).log = s.log := LogManager.flushAll_log
  have hnext := (h'.live hd).next
  have hx : x ∈ toUndo := Finset.mem_of_max hmax
  have herase : ∀ y ∈ toUndo.erase x, y < x := by
    intro y hy
    obtain ⟨hne, hy⟩ := Finset.mem_erase.mp hy
    exact lt_of_le_of_ne (Finset.le_max_of_eq hy hmax) hne
  have hinsert : ∀ {l : Nat}, l < x → ∀ y ∈ insert l (toUndo.erase x), y < x := by
    intro l hl y hy
    rcases Finset.mem_insert.mp hy with rfl | hy
    · exact hl
    · exact herase y hy
  obtain ⟨t, v, hv, hchain⟩ := hundo.only x hx
  have hlast : (att.lookup t).getD 0 = v.last := by
    rw [hatt t, show active _ t = some v from hv]
    rfl
  have hpos : ∀ (i : Nat) (r : Record), s.lm.log[i]? = some r → r.lsn = i :=
    fun i r hr => h.hist.lsn_eq hr
  have hget : ∀ {r : Record}, ({ s with lm := s.lm.flushAll } : Sys P).log[x]? = some r →
      s.lm.log[x]? = some r := by
    intro r hr
    rwa [hlog] at hr
  -- only the place on the chain changes
  have hmove : ∀ {r : Record} {l : Nat},
      ({ s with lm := s.lm.flushAll } : Sys P).log[x]? = some r → r.txnId = t →
      UndoChain ({ s with lm := s.lm.flushAll } : Sys P).log t l v.pend →
      Inv strict { s with lm := s.lm.flushAll, mode := .undo (insert l (toUndo.erase x)) att } := by
    intro r l hr ht hl
    refine ⟨h'.hist, h'.disk, h'.redo, fun _ => h'.live hd, ⟨hcur, hatt, ?_⟩, ?_⟩
    · exact hundo.advance hx hr ht (fun _ _ => rfl) (fun _ _ => rfl) (fun _ _ _ hc => hc) hv hl
    · have := h'.ckpt
      simp only [CkptInv, hidle] at this ⊢
      exact this
  generalize hpend : v.pend = us at hchain
  cases hchain with
  | @begin _ r hr ht hb =>
    subst ht
    have hlife : Lifecycle ({ s with lm := s.lm.flushAll } : Sys P).log
        ⟨s.lm.flushAll.nextLsn, r.txnId, some v.last, .txnEnd⟩ := by
      refine ⟨hnext, fun w hw => ?_⟩
      rw [show active _ _ = some v from hv] at hw
      rw [← Option.some.inj hw]
      exact hpend
    simp only [Sys.undoOne, LogManager.readRecordAtLsn_eq hpos (hget hr), hb, hlast]
    refine ⟨h'.appendRecord hd hidle (.of_quiet hlife rfl rfl) rfl h'.disk rfl ?_, _, _, rfl, herase⟩
    simp only [ModeInv, Sys.log, LogManager.append_log]
    exact ⟨hcur.append_quiet rfl, AttExact.append_one (x := (att, ∅)) hatt hlife,
      hundo.finish hx hr rfl active_append_one_self⟩
  | @update _ l r us hr ht hb hp hlt hrest =>
    obtain ⟨p, slot, old, new, k, hb⟩ := hb
    subst ht
    obtain ⟨hrule, hpage⟩ := undo_rule h'.hist hcur hv rfl hpend hr hb hnext
      (hroom r p slot old new k (hget hr) hb)
    simp only [Sys.undoOne, LogManager.readRecordAtLsn_eq hpos (hget hr), hb, hp, hlast,
      Sys.undoUpdate, BufferManager.fetchPage_snd]
    rw [hp] at hrule hpage
    refine ⟨h'.appendRecord hd hidle hrule rfl (h'.disk.modify ?_ (by simp))
      (readPage_modify _ _ _ _) ?_, _, _, rfl, hinsert hlt⟩
    · refine Nat.le_trans (hcur.lsn_le h'.hist p) (Nat.le_of_eq ?_)
      rw [← hnext]
      exact ((eqv_lsn hpage).trans (lsn_redoRecord _ _ _)).symm
    · simp only [ModeInv, Sys.log, LogManager.append_log]
      refine ⟨hcur.append_data rfl hpage, AttExact.append_one (x := (att, ∅)) hatt hrule.legit.1, ?_⟩
      refine hundo.advance hx hr rfl (fun i hi => List.getElem?_append_left hi)
        (fun t' ht' => active_append_one_ne (Ne.symm ht')) (fun _ _ _ hc => hc.append _)
        (active_append_clr hv) ?_
      simp only [hpend, List.tail_cons]
      exact hrest
  | @clr _ l r us hr ht hb hlt hrest =>
    obtain ⟨p, slot, n, hb⟩ := hb
    simp only [Sys.undoOne, LogManager.readRecordAtLsn_eq hpos (hget hr), hb]
    exact ⟨hmove hr ht (by rw [hpend]; exact hrest), _, _, rfl, hinsert hlt⟩
  | @abort _ l r us hr ht hb hp hlt hrest =>
    simp only [Sys.undoOne, LogManager.readRecordAtLsn_eq hpos (hget hr), hb, hp]
    exact ⟨hmove hr ht (by rw [hpend]; exact hrest), _, _, rfl, hinsert hlt⟩

theorem Inv.finishUndo {s : Sys P} {toUndo : Finset Nat} {att : Table} (h : Inv strict s)
    (hmode : s.mode = .undo toUndo att) (hmax : toUndo.max = none) :
    Inv strict s.finishUndo := by
  have hd : s.mode ≠ .down := by rw [hmode]; simp
  have hidle := h.idle (by rw [hmode]; simp)
  have h' := h.flushLm hd hidle (Or.inr (Eq.refl s.lm.flushAll))
  have hm := h'.mode
  simp only [ModeInv, hmode] at hm
  obtain ⟨hcur, -, hundo⟩ := hm
  refine ⟨h'.hist, h'.disk, h'.redo, fun _ => h'.live hd, ⟨hcur, LogManager.flushAll_buffer, ?_⟩, ?_⟩
  · intro t
    cases hv : active s.finishUndo.log t with
    | none => rfl
    | some v =>
      obtain ⟨x, hx, -⟩ := hundo.all t v hv
      rw [Finset.max_eq_bot.mp hmax] at hx
      cases hx
  · have := h'.ckpt
    simp only [CkptInv, hidle] at this
    simp only [CkptInv, Sys.finishUndo, hidle]
    exact this

-- ---------------------------------------------------------------------------
-- All steps of recovery
-- ---------------------------------------------------------------------------

theorem Inv.recoverStep {s : Sys P} (h : Inv strict s) (hroom : UndoRoom s .recoverStep) :
    Inv strict s.recoverStep := by
  rw [Sys.recoverStep]
  cases hmode : s.mode with
  | normal => exact h
  | down =>
    obtain ⟨hatt, hcov⟩ := h.analyze_ok hmode
    exact h.startRecovery hmode hatt hcov
  | redo rest dpt att =>
    cases rest with
    | nil => exact h.redoEnd hmode
    | cons r rest => exact h.redoStep hmode
  | undo toUndo att =>
    simp only
    split
    · rename_i hmax
      exact h.finishUndo hmode hmax
    · rename_i x hmax
      exact (h.undoStep hmode hmax (hroom toUndo att x hmode hmax)).1
  | flushing =>
    simp only
    split
    · exact h.flushPage (h.idle (by rw [hmode]; simp)) _
    · have hm := h.mode
      simp only [ModeInv, hmode] at hm
      obtain ⟨hcur, hbuf, hnone⟩ := hm
      refine ⟨h.hist, h.disk, h.redo, fun _ => h.live (by rw [hmode]; simp),
        ⟨hcur, fun t => hnone t, fun _ _ => rfl⟩, ?_⟩
      have := h.ckpt
      simp only [CkptInv, h.idle (by rw [hmode]; simp)] at this ⊢
      exact this

/-- **Every allowed step keeps the invariant.** -/
theorem Inv.step {s s' : Sys P} {e : Event P} (h : Inv strict s) (hok : Ok strict s e)
    (hs : step s e = some s') : Inv strict s' := by
  cases e with
  | begin =>
    simp only [PersistX.step, Option.ite_none_right_eq_some] at hs
    obtain ⟨hrun, hs⟩ := hs
    obtain rfl := Option.some.inj hs
    exact h.begin hrun
  | update t p op key =>
    simp only [PersistX.step, Option.ite_none_right_eq_some] at hs
    exact h.update hs.1 hok.protocol hs.2
  | commitLog t =>
    simp only [PersistX.step, Option.ite_none_right_eq_some] at hs
    exact h.commitLog hs.1 hs.2
  | commitForce t =>
    simp only [PersistX.step, Option.ite_none_right_eq_some] at hs
    exact h.commitForce hs.1 hs.2
  | commitEnd t =>
    simp only [PersistX.step, Option.ite_none_right_eq_some] at hs
    exact h.commitEnd hs.1 hs.2
  | abortLog t =>
    simp only [PersistX.step, Option.ite_none_right_eq_some] at hs
    exact h.abortLog hs.1 hs.2
  | abortStep t =>
    simp only [PersistX.step, Option.ite_none_right_eq_some] at hs
    exact h.abortStep hs.1 hok.room hs.2
  | abortEnd t =>
    simp only [PersistX.step, Option.ite_none_right_eq_some] at hs
    exact h.abortEnd hs.1 hs.2
  | newPage p d =>
    simp only [PersistX.step, Option.ite_none_right_eq_some] at hs
    obtain ⟨hrun, hs⟩ := hs
    obtain rfl := Option.some.inj hs
    exact h.newPage hrun hok.protocol
  | flushPage p =>
    simp only [PersistX.step, Option.ite_none_right_eq_some] at hs
    obtain ⟨hidle, hs⟩ := hs
    obtain rfl := Option.some.inj hs
    exact h.flushPage hidle p
  | evict p =>
    simp only [PersistX.step, Option.ite_none_right_eq_some] at hs
    obtain ⟨hidle, hs⟩ := hs
    obtain rfl := Option.some.inj hs
    exact h.evict hidle p
  | flushLog =>
    simp only [PersistX.step, Option.ite_none_right_eq_some] at hs
    obtain ⟨hidle, hs⟩ := hs
    obtain rfl := Option.some.inj hs
    by_cases hd : s.mode = .down
    · have hm := h.mode
      rw [ModeInv, hd] at hm
      have : s.lm.flushAll = s.lm := by rw [LogManager.flushAll, if_pos hm.2]
      rw [this]
      exact h
    · exact h.flushLm hd hidle (Or.inr rfl)
  | ckptBegin =>
    simp only [PersistX.step, Option.ite_none_right_eq_some] at hs
    obtain ⟨hrun, hs⟩ := hs
    obtain rfl := Option.some.inj hs
    exact h.ckptBegin hrun hok.protocol
  | ckptSnapshot =>
    simp only [PersistX.step, Option.ite_none_right_eq_some] at hs
    obtain ⟨hbegun, hs⟩ := hs
    obtain rfl := Option.some.inj hs
    exact h.ckptSnapshot hbegun
  | ckptEnd =>
    simp only [PersistX.step] at hs
    split at hs
    · rename_i a d hsnap
      obtain rfl := Option.some.inj hs
      exact h.ckptEnd hsnap
    · cases hs
  | ckptForce p =>
    simp only [PersistX.step] at hs
    split at hs
    · rename_i e x hw hf
      obtain rfl := Option.some.inj hs
      exact h.ckptForce hw hf hok.safe
    · cases hs
  | ckptWrite =>
    simp only [PersistX.step] at hs
    split at hs
    · rename_i e p hw
      rw [Option.map_eq_some_iff] at hs
      obtain ⟨f, hf, rfl⟩ := hs
      exact h.ckptWrite hw hf
    · cases hs
  | ckptFinish =>
    simp only [PersistX.step] at hs
    split at hs
    · rename_i e hw
      rw [Option.ite_none_right_eq_some] at hs
      obtain ⟨hclean, hs⟩ := hs
      obtain rfl := Option.some.inj hs
      exact h.ckptFinish hw hclean
    · cases hs
  | crash choice =>
    obtain rfl := Option.some.inj hs
    exact h.crash hok
  | recoverStep =>
    simp only [PersistX.step, Option.ite_none_left_eq_some] at hs
    obtain ⟨-, hs⟩ := hs
    obtain rfl := Option.some.inj hs
    exact h.recoverStep hok.room

theorem Inv.init : Inv strict (Sys.init : Sys P) where
  hist := .nil
  disk := ⟨fun _ _ hx => (by cases hx), fun _ _ hf => (by cases hf), fun _ => Nat.le_refl _⟩
  redo _ := RedoOk.of_no_checkpoint .nil rfl
  live _ := ⟨rfl, fun _ hf => (by cases hf)⟩
  mode := ⟨fun _ => eqv_refl _, fun _ => rfl, fun _ _ => rfl⟩
  ckpt := fun _ hr => by cases hr

end PersistX
