import PersistX.Wal.History

/-!
# PersistX — compensation, exactly once

A CLR names the UPDATE that it compensates by its `undoNext`, which is that
UPDATE's `prevLsn`: no two UPDATEs of one transaction id have the same `prevLsn`
(`History.prevLsn_lt`), also across transactions that were given the same id in
different runs. In a history an UPDATE of an open transaction is either still to
be undone, and has no CLR, or has exactly one; when the transaction ends without
a COMMIT every one of its UPDATEs has its CLR, and when it commits none has
(`History.compensated`); the CLRs of a transaction stand in the reverse order of
its UPDATEs (`History.clr_lt_clr`).
-/

namespace PersistX

variable {rule : List Record → Record → Prop} {log : List Record}

/-- The record at `j` is a CLR with the transaction id, page, slot, before-image
and `prevLsn` of an UPDATE. -/
def IsClrOf (log : List Record) (t p s : Nat) (old : Bytes) (prev : Option Nat) (j : Nat) : Prop :=
  ∃ r, log[j]? = some r ∧ r.txnId = t ∧ r.body = .clr p s old prev

/-- What becomes of the UPDATE at `i`. -/
structure Compensation (log : List Record) (i : Nat) (t p s : Nat) (old : Bytes)
    (prev : Option Nat) : Prop where
  /-- Its transaction is open: it is still to be undone, or has been undone once. -/
  isOpen : fate t (log.drop (i + 1)) = none → ∃ v, active log t = some v ∧
    ((i ∈ v.pend ∧ ∀ j, ¬ IsClrOf log t p s old prev j) ∨
      (i ∉ v.pend ∧ ∃! j, IsClrOf log t p s old prev j))
  rolledBack : fate t (log.drop (i + 1)) = some false → ∃! j, IsClrOf log t p s old prev j
  committed : fate t (log.drop (i + 1)) = some true → ∀ j, ¬ IsClrOf log t p s old prev j

-- ---------------------------------------------------------------------------
-- `prevLsn` tells UPDATEs apart
-- ---------------------------------------------------------------------------

/-- The last record of an open transaction is not before any UPDATE with its id. -/
theorem History.le_last (hrule : ∀ l r, rule l r → Lifecycle l r) (h : History rule log) :
    ∀ t v, active log t = some v → ∀ (i : Nat) (r : Record), log[i]? = some r → r.txnId = t →
      (∃ p s o n k, r.body = .update p s o n k) → i ≤ v.last := by
  induction h with
  | nil => simp
  | @snoc log r hlog hr ih =>
    have hlsn := (hrule _ _ hr).1
    intro t w hw i x hx hxt hxb
    have hi : i < (log ++ [r]).length := (List.getElem?_eq_some_iff.mp hx).1
    rw [List.length_append, List.length_singleton] at hi
    by_cases ht : r.txnId = t
    · subst ht
      rw [active_append_one_self, stepTxn] at hw
      have hlast : w.last = log.length ∨ active log r.txnId = some w ∧ r.body.write? = none := by
        cases hb : r.body <;> rw [hb] at hw <;> simp only [Option.map_eq_some_iff] at hw
        case begin => exact .inl (by rw [← Option.some.inj hw, hlsn])
        case update =>
          obtain ⟨v, -, rfl⟩ := hw
          exact .inl hlsn
        case clr =>
          obtain ⟨v, -, rfl⟩ := hw
          exact .inl hlsn
        case abort =>
          obtain ⟨v, -, rfl⟩ := hw
          exact .inl hlsn
        case commit => cases hw
        case txnEnd => cases hw
        case checkpointBegin => exact .inr ⟨hw, rfl⟩
        case checkpointEnd => exact .inr ⟨hw, rfl⟩
      rcases hlast with hlast | ⟨hold, hwrite⟩
      · omega
      · have hi' : i < log.length := by
          by_contra hge
          have heq : i = log.length := by omega
          subst heq
          rw [List.getElem?_concat_length] at hx
          obtain rfl := Option.some.inj hx
          obtain ⟨p, s, o, n, k, hxb⟩ := hxb
          rw [hxb] at hwrite
          cases hwrite
        rw [List.getElem?_append_left hi'] at hx
        exact ih _ _ hold i x hx hxt hxb
    · rw [active_append_one_ne ht] at hw
      have hi' : i < log.length := by
        by_contra hge
        have heq : i = log.length := by omega
        subst heq
        rw [List.getElem?_concat_length] at hx
        exact ht (Option.some.inj hx ▸ hxt)
      rw [List.getElem?_append_left hi'] at hx
      exact ih t w hw i x hx hxt hxb

/-- The `prevLsn` of an UPDATE is before it, and not before an earlier UPDATE with the same id. -/
theorem History.prevLsn_lt (hrule : ∀ l r, rule l r → Lifecycle l r) (h : History rule log)
    {i : Nat} {r : Record} (hr : log[i]? = some r) {p s : Nat} {o n : Bytes} {k : Int}
    (hb : r.body = .update p s o n k) :
    ∃ l, r.prevLsn = some l ∧ l < i ∧ ∀ (i' : Nat) (r' : Record), i' < i → log[i']? = some r' →
      r'.txnId = r.txnId → (∃ p s o n k, r'.body = .update p s o n k) → i' ≤ l := by
  have hlife := (hrule _ _ (h.rule_at hr)).2
  rw [hb] at hlife
  obtain ⟨v, hv, -, hprev⟩ := hlife
  have htake := h.take i
  have hlast := (((htake.lifecycle hrule).2 _ _ hv).chain).lt_length
  rw [List.length_take] at hlast
  refine ⟨v.last, hprev, by omega, fun i' r' hlt hr' ht' hb' => ?_⟩
  refine htake.le_last hrule _ _ hv i' r' ?_ ht' hb'
  rw [List.getElem?_take, if_pos hlt]
  exact hr'

/-- UPDATEs of one id with the same `prevLsn` are the same record. -/
theorem History.update_eq (hrule : ∀ l r, rule l r → Lifecycle l r) (h : History rule log)
    {i i' : Nat} {r r' : Record} (hr : log[i]? = some r) (hr' : log[i']? = some r')
    (ht : r.txnId = r'.txnId) (hprev : r.prevLsn = r'.prevLsn)
    (hb : ∃ p s o n k, r.body = .update p s o n k)
    (hb' : ∃ p s o n k, r'.body = .update p s o n k) : i = i' := by
  obtain ⟨p, s, o, n, k, hbb⟩ := hb
  obtain ⟨p', s', o', n', k', hbb'⟩ := hb'
  obtain ⟨l, hl, hlt, hle⟩ := h.prevLsn_lt hrule hr hbb
  obtain ⟨l', hl', hlt', hle'⟩ := h.prevLsn_lt hrule hr' hbb'
  have heq : l = l' := Option.some.inj (hl.symm.trans (hprev.trans hl'))
  rcases Nat.lt_trichotomy i i' with hii | rfl | hii
  · have := hle' i r hii hr ht ⟨p, s, o, n, k, hbb⟩
    omega
  · rfl
  · have := hle i' r' hii hr' ht.symm ⟨p', s', o', n', k', hbb'⟩
    omega

/-- A CLR in a history compensates an UPDATE before it. -/
theorem History.clr_update (hrule : ∀ l r, rule l r → Lifecycle l r) (h : History rule log)
    {t p s j : Nat} {o : Bytes} {prev : Option Nat} (hj : IsClrOf log t p s o prev j) :
    ∃ u ru n k, u < j ∧ log[u]? = some ru ∧ ru.txnId = t ∧ ru.body = .update p s o n k ∧
      prev = ru.prevLsn := by
  obtain ⟨r, hr, ht, hb⟩ := hj
  have hlife := (hrule _ _ (h.rule_at hr)).2
  rw [hb] at hlife
  obtain ⟨v, u, us, ru, hv, hpend, -, hru, ⟨n, k, hrub⟩, hun⟩ := hlife
  rw [List.getElem?_take] at hru
  split at hru
  · rename_i huj
    obtain ⟨x, hx, hxt, -⟩ := (((h.take j).lifecycle hrule).2 _ _ hv).updates u
      (by rw [hpend]; exact List.mem_cons_self)
    rw [List.getElem?_take, if_pos huj, hru] at hx
    obtain rfl := Option.some.inj hx
    exact ⟨u, ru, n, k, huj, hru, hxt.trans ht, hrub, hun⟩
  · cases hru

-- ---------------------------------------------------------------------------
-- One record more
-- ---------------------------------------------------------------------------

theorem getElem?_append_one {α : Type} {l : List α} {x y : α} {i : Nat}
    (h : (l ++ [x])[i]? = some y) : l[i]? = some y ∨ i = l.length ∧ x = y := by
  rcases Nat.lt_or_ge i l.length with hi | hi
  · exact .inl (by rwa [List.getElem?_append_left hi] at h)
  · have hlen := (List.getElem?_eq_some_iff.mp h).1
    rw [List.length_append, List.length_singleton] at hlen
    obtain rfl : i = l.length := by omega
    rw [List.getElem?_concat_length] at h
    exact .inr ⟨rfl, Option.some.inj h⟩

theorem IsClrOf.append {t p s j : Nat} {o : Bytes} {prev : Option Nat} (r : Record)
    (h : IsClrOf log t p s o prev j) : IsClrOf (log ++ [r]) t p s o prev j := by
  obtain ⟨x, hx, rest⟩ := h
  exact ⟨x, getElem?_append_of_some hx, rest⟩

theorem IsClrOf.lt_length {t p s j : Nat} {o : Bytes} {prev : Option Nat}
    (h : IsClrOf log t p s o prev j) : j < log.length := by
  obtain ⟨x, hx, -⟩ := h
  exact (List.getElem?_eq_some_iff.mp hx).1

/-- A record that is not the CLR asked for changes nothing. -/
theorem isClrOf_append_iff {t p s : Nat} {o : Bytes} {prev : Option Nat} {r : Record}
    (hr : r.txnId = t → r.body ≠ .clr p s o prev) (j : Nat) :
    IsClrOf (log ++ [r]) t p s o prev j ↔ IsClrOf log t p s o prev j := by
  refine ⟨?_, IsClrOf.append r⟩
  rintro ⟨x, hx, ht, hb⟩
  rcases getElem?_append_one hx with hx | ⟨-, rfl⟩
  · exact ⟨x, hx, ht, hb⟩
  · exact absurd hb (hr ht)

/-- The fate of a transaction that was open is decided by the new record. -/
theorem fate_drop_append {t i : Nat} {r : Record} (hi : i < log.length) :
    fate t ((log ++ [r]).drop (i + 1)) = (fate t (log.drop (i + 1))).or (fate t [r]) := by
  rw [drop_append_one hi, fate_append]

/-- The UPDATE at `i`, behind a record that is neither a CLR of it nor the end of
its transaction. -/
theorem Compensation.append_same {i t p s : Nat} {o : Bytes} {prev : Option Nat} {r : Record}
    (h : Compensation log i t p s o prev) (hi : i < log.length)
    (hclr : r.txnId = t → r.body ≠ .clr p s o prev)
    (hfate : fate t (log.drop (i + 1)) = none → fate t [r] = none)
    (hpend : fate t (log.drop (i + 1)) = none → ∀ v, active log t = some v →
      ∃ w, active (log ++ [r]) t = some w ∧ (i ∈ w.pend ↔ i ∈ v.pend)) :
    Compensation (log ++ [r]) i t p s o prev := by
  have hiff : ∀ j, IsClrOf (log ++ [r]) t p s o prev j ↔ IsClrOf log t p s o prev j :=
    isClrOf_append_iff hclr
  have hsame : fate t ((log ++ [r]).drop (i + 1)) = fate t (log.drop (i + 1)) := by
    rw [fate_drop_append hi]
    cases hf : fate t (log.drop (i + 1)) with
    | none => rw [hfate hf]; rfl
    | some b => rfl
  refine ⟨fun hf => ?_, fun hf => ?_, fun hf => ?_⟩
  · rw [hsame] at hf
    obtain ⟨v, hv, hcase⟩ := h.isOpen hf
    obtain ⟨w, hw, hmem⟩ := hpend hf v hv
    refine ⟨w, hw, ?_⟩
    simp only [hmem, hiff]
    exact hcase
  · rw [hsame] at hf
    simp only [hiff]
    exact h.rolledBack hf
  · rw [hsame] at hf
    simp only [hiff]
    exact h.committed hf

/-- Every UPDATE of a history is compensated as it should be. -/
def Compensated (log : List Record) : Prop :=
  ∀ (i : Nat) (r : Record) (p s : Nat) (o n : Bytes) (k : Int), log[i]? = some r →
    r.body = .update p s o n k → Compensation log i r.txnId p s o r.prevLsn

/-- The UPDATE that was just logged has no CLR yet. -/
theorem History.compensation_last (hrule : ∀ l r, rule l r → Lifecycle l r) {r : Record}
    (h : History rule (log ++ [r])) {p s : Nat} {o n : Bytes} {k : Int}
    (hb : r.body = .update p s o n k) :
    Compensation (log ++ [r]) log.length r.txnId p s o r.prevLsn := by
  have hself : (log ++ [r])[log.length]? = some r := List.getElem?_concat_length
  have hopen : fate r.txnId ((log ++ [r]).drop (log.length + 1)) = none := by
    rw [List.drop_eq_nil_of_le (by simp)]
    rfl
  have hlife := hrule _ _ (h.rule_at hself)
  rw [List.take_left] at hlife
  obtain ⟨hlsn, hlife⟩ := hlife
  rw [hb] at hlife
  obtain ⟨v, hv, -, -⟩ := hlife
  refine ⟨fun _ => ?_, fun hf => ?_, fun hf => ?_⟩
  · refine ⟨⟨r.lsn, r.lsn :: v.pend, v.rolling⟩, ?_, .inl ⟨?_, fun j hj => ?_⟩⟩
    · rw [active_append_one_self, stepTxn, hb, hv]
      rfl
    · rw [hlsn]
      exact List.mem_cons_self
    · obtain ⟨u, ru, n', k', huj, hru, hrut, hrub, hprev⟩ := h.clr_update hrule hj
      have heq := h.update_eq hrule hru hself hrut hprev.symm ⟨p, s, o, n', k', hrub⟩
        ⟨p, s, o, n, k, hb⟩
      have hlt := hj.lt_length
      rw [List.length_append, List.length_singleton] at hlt
      omega
  · rw [hopen] at hf
    cases hf
  · rw [hopen] at hf
    cases hf

/-- The UPDATE at `i`, behind a CLR of its transaction. -/
theorem Compensation.append_clr (hrule : ∀ l r, rule l r → Lifecycle l r) {r ri : Record}
    (h : History rule (log ++ [r])) {i p s : Nat} {o n : Bytes} {k : Int}
    (hri : log[i]? = some ri) (hrib : ri.body = .update p s o n k)
    (hc : Compensation log i ri.txnId p s o ri.prevLsn) (ht : r.txnId = ri.txnId)
    {p' s' : Nat} {o' : Bytes} {un : Option Nat} (hb : r.body = .clr p' s' o' un) :
    Compensation (log ++ [r]) i ri.txnId p s o ri.prevLsn := by
  have hi : i < log.length := (List.getElem?_eq_some_iff.mp hri).1
  have hself : (log ++ [r])[log.length]? = some r := List.getElem?_concat_length
  have hlog : History rule log := h.of_append
  obtain ⟨-, hlife⟩ := hrule _ _ (h.rule_at hself)
  rw [List.take_left, hb, ht] at hlife
  obtain ⟨v, u, us, ru, hv, hpend, -, hru, ⟨n', k', hrub⟩, hun⟩ := hlife
  have hinv := (hlog.lifecycle hrule).2 _ _ hv
  have hrut : ru.txnId = ri.txnId := by
    obtain ⟨x, hx, hxt, -⟩ := hinv.updates u (by rw [hpend]; exact List.mem_cons_self)
    rw [hru] at hx
    rw [Option.some.inj hx]
    exact hxt
  have hfate : fate ri.txnId [r] = none := by simp [fate, ht, hb]
  have hnew : active (log ++ [r]) ri.txnId = some ⟨r.lsn, us, true⟩ := by
    rw [active_append_one, if_pos ht, stepTxn, hb, hv]
    simp [hpend]
  by_cases hiu : i = u
  · -- this is the UPDATE that the CLR compensates
    subst hiu
    obtain rfl := Option.some.inj (hri.symm.trans hru)
    rw [hrib] at hrub
    injection hrub with hp hs ho _ _
    subst hp hs ho hun
    have hopen := hinv.isOpen i (by rw [hpend]; exact List.mem_cons_self)
    have hnotin : i ∉ us := by
      have hsort := hinv.sorted
      rw [hpend] at hsort
      intro hin
      exact Nat.lt_irrefl i ((List.pairwise_cons.mp hsort).1 i hin)
    have hnone : ∀ j, ¬ IsClrOf log ri.txnId p s o ri.prevLsn j := by
      obtain ⟨w, hw, ⟨-, hno⟩ | ⟨hmem, -⟩⟩ := hc.isOpen hopen
      · exact hno
      · rw [hv] at hw
        rw [← Option.some.inj hw, hpend] at hmem
        exact absurd List.mem_cons_self hmem
    have hclr : IsClrOf (log ++ [r]) ri.txnId p s o ri.prevLsn log.length := ⟨r, hself, ht, hb⟩
    have hunique : ∀ j, IsClrOf (log ++ [r]) ri.txnId p s o ri.prevLsn j → j = log.length := by
      rintro j ⟨x, hx, hxt, hxb⟩
      rcases getElem?_append_one hx with hx | ⟨hj, -⟩
      · exact absurd ⟨x, hx, hxt, hxb⟩ (hnone j)
      · exact hj
    have hopen' : fate ri.txnId ((log ++ [r]).drop (i + 1)) = none := by
      rw [fate_drop_append hi, hopen, hfate]
      rfl
    refine ⟨fun _ => ⟨_, hnew, .inr ⟨hnotin, log.length, hclr, hunique⟩⟩, fun hf => ?_, fun hf => ?_⟩
    · rw [hopen'] at hf
      cases hf
    · rw [hopen'] at hf
      cases hf
  · refine hc.append_same hi (fun _ hclr => hiu ?_) (fun _ => hfate) fun _ w hw => ⟨_, hnew, ?_⟩
    · rw [hb] at hclr
      injection hclr with _ _ _ hprev
      exact hlog.update_eq hrule hri hru hrut.symm (hprev.symm.trans hun) ⟨p, s, o, n, k, hrib⟩
        ⟨p', s', o', n', k', hrub⟩
    · rw [hv] at hw
      rw [← Option.some.inj hw, hpend, List.mem_cons]
      exact (or_iff_right hiu).symm

/-- The UPDATE at `i`, behind a record of its transaction that decides nothing
and compensates nothing. -/
theorem Compensation.append_quiet {i t p s : Nat} {o : Bytes} {prev : Option Nat} {r : Record}
    (h : Compensation log i t p s o prev) (hi : i < log.length) (ht : r.txnId = t)
    (hclr : r.body ≠ .clr p s o prev) (hfate : fate t [r] = none) (hlsn : r.lsn = log.length)
    (hstep : ∀ v, ∃ w, stepTxn (some v) r = some w ∧ (w.pend = v.pend ∨ w.pend = r.lsn :: v.pend)) :
    Compensation (log ++ [r]) i t p s o prev := by
  refine h.append_same hi (fun _ => hclr) (fun _ => hfate) fun _ v hv => ?_
  obtain ⟨w, hw, hpend⟩ := hstep v
  refine ⟨w, by rw [active_append_one, if_pos ht, hv, hw], ?_⟩
  rcases hpend with hpend | hpend
  · rw [hpend]
  · rw [hpend, List.mem_cons]
    exact or_iff_right (by omega)

/-- The UPDATE at `i`, behind the record that decides about its transaction if it was open. -/
theorem Compensation.append_end {i t p s : Nat} {o : Bytes} {prev : Option Nat} {r : Record}
    {b : Bool} (h : Compensation log i t p s o prev) (hi : i < log.length)
    (hclr : r.body ≠ .clr p s o prev) (hfate : fate t [r] = some b)
    (hfalse : fate t (log.drop (i + 1)) = none → b = false → ∃! j, IsClrOf log t p s o prev j)
    (htrue : fate t (log.drop (i + 1)) = none → b = true → ∀ j, ¬ IsClrOf log t p s o prev j) :
    Compensation (log ++ [r]) i t p s o prev := by
  have hiff : ∀ j, IsClrOf (log ++ [r]) t p s o prev j ↔ IsClrOf log t p s o prev j :=
    isClrOf_append_iff fun _ => hclr
  have hsplit := fate_drop_append (t := t) (r := r) hi
  rw [hfate] at hsplit
  cases hf : fate t (log.drop (i + 1)) with
  | none =>
    rw [hf, Option.none_or] at hsplit
    refine ⟨fun hf' => ?_, fun hf' => ?_, fun hf' => ?_⟩
    · rw [hsplit] at hf'
      cases hf'
    · rw [hsplit] at hf'
      simp only [hiff]
      exact hfalse hf (Option.some.inj hf')
    · rw [hsplit] at hf'
      simp only [hiff]
      exact htrue hf (Option.some.inj hf')
  | some c =>
    rw [hf, Option.some_or] at hsplit
    refine ⟨fun hf' => ?_, fun hf' => ?_, fun hf' => ?_⟩
    · rw [hsplit] at hf'
      cases hf'
    · rw [hsplit] at hf'
      simp only [hiff]
      exact h.rolledBack (hf.trans hf')
    · rw [hsplit] at hf'
      simp only [hiff]
      exact h.committed (hf.trans hf')

/-- **Exactly once.** In a history an UPDATE has one CLR when its transaction was
rolled back, none when it committed, and at most one while it is open. -/
theorem History.compensated (hrule : ∀ l r, rule l r → Lifecycle l r) (h : History rule log) :
    Compensated log := by
  induction h with
  | nil => exact fun i r p s o n k hr => by simp at hr
  | @snoc log r hlog hr ih =>
    have hfull : History rule (log ++ [r]) := .snoc hlog hr
    intro i x p s o n k hx hb
    rcases getElem?_append_one hx with hx | ⟨rfl, rfl⟩
    · have hi : i < log.length := (List.getElem?_eq_some_iff.mp hx).1
      have hc := ih i x p s o n k hx hb
      obtain ⟨hlsn, hlife⟩ := hrule _ _ hr
      by_cases ht : r.txnId = x.txnId
      · rw [ht] at hlife
        cases hrb : r.body with
        | clr p' s' o' un => exact hc.append_clr hrule hfull hx hb ht hrb
        | begin =>
          rw [hrb] at hlife
          -- no transaction of this id is open, so the UPDATE's fate is known already
          have hdone : fate x.txnId (log.drop (i + 1)) ≠ none := by
            intro hf
            obtain ⟨v, hv, -⟩ := hc.isOpen hf
            rw [hlife.1] at hv
            cases hv
          refine hc.append_end (b := false) hi (by rw [hrb]; simp) (by simp [fate, ht, hrb])
            (fun hf => absurd hf hdone) fun hf => absurd hf hdone
        | update p' s' o' n' k' =>
          refine hc.append_quiet hi ht (by rw [hrb]; simp) (by simp [fate, ht, hrb]) hlsn fun v => ?_
          exact ⟨_, by rw [stepTxn, hrb]; rfl, .inr rfl⟩
        | commit =>
          rw [hrb] at hlife
          obtain ⟨v, hv, hroll, -⟩ := hlife
          refine hc.append_end (b := true) hi (by rw [hrb]; simp) (by simp [fate, ht, hrb])
            (fun _ hb => by cases hb) fun hf _ => ?_
          -- before rollback starts all of a transaction's UPDATEs are still to be undone
          have hin : i ∈ v.pend := ((hlog.lifecycle hrule).2 _ _ hv).all hroll i x hx rfl
            ⟨p, s, o, n, k, hb⟩ hf
          obtain ⟨w, hw, ⟨-, hno⟩ | ⟨hmem, -⟩⟩ := hc.isOpen hf
          · exact hno
          · rw [hv] at hw
            exact absurd (Option.some.inj hw ▸ hin) hmem
        | abort =>
          refine hc.append_quiet hi ht (by rw [hrb]; simp) (by simp [fate, ht, hrb]) hlsn fun v => ?_
          exact ⟨⟨r.lsn, v.pend, true⟩, by rw [stepTxn, hrb]; rfl, .inl rfl⟩
        | txnEnd =>
          rw [hrb] at hlife
          refine hc.append_end (b := false) hi (by rw [hrb]; simp) (by simp [fate, ht, hrb])
            (fun hf _ => ?_) fun _ hb => by cases hb
          obtain ⟨w, hw, ⟨hmem, -⟩ | ⟨-, hone⟩⟩ := hc.isOpen hf
          · rw [hlife w hw] at hmem
            cases hmem
          · exact hone
        | checkpointBegin =>
          refine hc.append_quiet hi ht (by rw [hrb]; simp) (by simp [fate, ht, hrb]) hlsn fun v => ?_
          exact ⟨_, by rw [stepTxn, hrb], .inl rfl⟩
        | checkpointEnd a d =>
          refine hc.append_quiet hi ht (by rw [hrb]; simp) (by simp [fate, ht, hrb]) hlsn fun v => ?_
          exact ⟨_, by rw [stepTxn, hrb], .inl rfl⟩
      · refine hc.append_same hi (fun h' => absurd h' ht) (fun _ => ?_) fun _ v hv => ?_
        · simp [fate, ht]
        · exact ⟨v, by rw [active_append_one_ne ht]; exact hv, Iff.rfl⟩
    · exact hfull.compensation_last hrule hb

-- ---------------------------------------------------------------------------
-- Which CLRs there are, and in which order
-- ---------------------------------------------------------------------------

/-- The end of a log in which a transaction is open throughout. -/
theorem fate_drop_of_le {t i i' : Nat} {l : List Record} (hle : i ≤ i')
    (h : fate t (l.drop i) = none) : fate t (l.drop i') = none := by
  have hsplit : l.drop i = (l.drop i).take (i' - i) ++ l.drop i' := by
    conv_lhs => rw [← List.take_append_drop (i' - i) (l.drop i)]
    rw [List.drop_drop, Nat.add_sub_cancel' hle]
  rw [hsplit, fate_append] at h
  exact (Option.or_eq_none_iff.mp h).2

theorem IsClrOf.of_take {t p s j m : Nat} {o : Bytes} {prev : Option Nat}
    (h : IsClrOf (log.take m) t p s o prev j) : IsClrOf log t p s o prev j ∧ j < m := by
  obtain ⟨r, hr, rest⟩ := h
  rw [List.getElem?_take] at hr
  split at hr
  · rename_i hlt
    exact ⟨⟨r, hr, rest⟩, hlt⟩
  · cases hr

theorem IsClrOf.take {t p s j m : Nat} {o : Bytes} {prev : Option Nat}
    (h : IsClrOf log t p s o prev j) (hlt : j < m) : IsClrOf (log.take m) t p s o prev j := by
  obtain ⟨r, hr, rest⟩ := h
  exact ⟨r, by rw [List.getElem?_take, if_pos hlt]; exact hr, rest⟩

/-- When a CLR was appended, the UPDATE that it compensates was the newest one
still to be undone. -/
theorem History.clr_head (hrule : ∀ l r, rule l r → Lifecycle l r) (h : History rule log)
    {i j p s : Nat} {o n : Bytes} {k : Int} {ri : Record} (hri : log[i]? = some ri)
    (hb : ri.body = .update p s o n k) (hj : IsClrOf log ri.txnId p s o ri.prevLsn j) :
    ∃ v us, active (log.take j) ri.txnId = some v ∧ v.pend = i :: us := by
  obtain ⟨r, hr, ht, hrb⟩ := hj
  have hlife := (hrule _ _ (h.rule_at hr)).2
  rw [hrb, ht] at hlife
  obtain ⟨v, u, us, ru, hv, hpend, -, hru, ⟨n', k', hrub⟩, hun⟩ := hlife
  have hinv := ((h.take j).lifecycle hrule).2 _ _ hv
  obtain ⟨x, hx, hxt, -⟩ := hinv.updates u (by rw [hpend]; exact List.mem_cons_self)
  obtain rfl := Option.some.inj (hru.symm.trans hx)
  rw [List.getElem?_take] at hru
  split at hru
  · obtain rfl := h.update_eq hrule hri hru hxt.symm hun ⟨p, s, o, n, k, hb⟩
      ⟨p, s, o, n', k', hrub⟩
    exact ⟨v, us, hv, hpend⟩
  · cases hru

/-- **Reverse order.** Of two UPDATEs of one transaction the later one is
compensated first. -/
theorem History.clr_lt_clr (hrule : ∀ l r, rule l r → Lifecycle l r) (h : History rule log)
    {i i' j j' p s p' s' : Nat} {o n o' n' : Bytes} {k k' : Int} {ri ri' : Record}
    (hri : log[i]? = some ri) (hb : ri.body = .update p s o n k)
    (hri' : log[i']? = some ri') (hb' : ri'.body = .update p' s' o' n' k')
    (ht : ri'.txnId = ri.txnId) (hlt : i < i')
    (hsame : fate ri.txnId ((log.take i').drop (i + 1)) = none)
    (hj : IsClrOf log ri.txnId p s o ri.prevLsn j)
    (hone : ∀ x, IsClrOf log ri.txnId p' s' o' ri'.prevLsn x → x = j') : j' < j := by
  obtain ⟨v, us, hv, hpend⟩ := h.clr_head hrule hri hb hj
  have hinv := ((h.take j).lifecycle hrule).2 _ _ hv
  have hsort := hinv.sorted
  rw [hpend] at hsort
  rcases Nat.lt_or_ge i' j with hij | hij
  · have hri'' : (log.take j)[i']? = some ri' := by rw [List.getElem?_take, if_pos hij]; exact hri'
    have hopen : fate ri'.txnId ((log.take j).drop (i' + 1)) = none := by
      rw [ht]
      exact fate_drop_of_le (by omega) (hinv.isOpen i (by rw [hpend]; exact List.mem_cons_self))
    obtain ⟨w, hw, hcase⟩ := ((h.take j).compensated hrule i' ri' _ _ _ _ _ hri'' hb').isOpen hopen
    rw [ht, hv] at hw
    obtain rfl := Option.some.inj hw
    rcases hcase with ⟨hmem, -⟩ | ⟨-, x, hx, -⟩
    · -- the later UPDATE would stand before the one that is compensated
      rw [hpend, List.mem_cons] at hmem
      rcases hmem with rfl | hmem
      · omega
      · have := (List.pairwise_cons.mp hsort).1 i' hmem
        omega
    · rw [ht] at hx
      obtain ⟨hx, hxj⟩ := hx.of_take
      rw [← hone x hx]
      exact hxj
  · -- after its first CLR a transaction logs no UPDATE
    exfalso
    have hlife := (hrule _ _ (h.rule_at hri')).2
    rw [hb', ht] at hlife
    obtain ⟨w, hw, hroll, -⟩ := hlife
    have hri2 : (log.take i')[i]? = some ri := by rw [List.getElem?_take, if_pos hlt]; exact hri
    have hmem := (((h.take i').lifecycle hrule).2 _ _ hw).all hroll i ri hri2 rfl
      ⟨p, s, o, n, k, hb⟩ hsame
    obtain ⟨w', hw', ⟨-, hno⟩ | ⟨hnot, -⟩⟩ :=
      ((h.take i').compensated hrule i ri _ _ _ _ _ hri2 hb).isOpen hsame
    · have hne : j ≠ i' := by
        rintro rfl
        obtain ⟨r, hr, -, hrb⟩ := hj
        rw [hri'] at hr
        rw [← Option.some.inj hr, hb'] at hrb
        cases hrb
      exact hno j (hj.take (by omega))
    · rw [hw] at hw'
      exact hnot (Option.some.inj hw' ▸ hmem)

/-- A CLR and the UPDATE that it compensates share their fate: the transaction is open from the one
to the other. -/
theorem History.clr_fate (hrule : ∀ l r, rule l r → Lifecycle l r) (h : History rule log)
    {u j p s : Nat} {o n : Bytes} {k : Int} {ru r : Record} (hru : log[u]? = some ru)
    (hrub : ru.body = .update p s o n k) (hr : log[j]? = some r) (ht : ru.txnId = r.txnId)
    (hb : r.body = .clr p s o ru.prevLsn) (huj : u < j) :
    fate r.txnId ((log.take j).drop (u + 1)) = none ∧
      fate r.txnId (log.drop (u + 1)) = fate r.txnId (log.drop (j + 1)) := by
  obtain ⟨v, us, hv, hpend⟩ := h.clr_head hrule hru hrub ⟨r, hr, ht.symm, hb⟩
  have hopen := (((h.take j).lifecycle hrule).2 _ _ hv).isOpen u
    (by rw [hpend]; exact List.mem_cons_self)
  rw [ht] at hopen
  refine ⟨hopen, ?_⟩
  obtain ⟨hlt, hget⟩ := List.getElem?_eq_some_iff.mp hr
  have hdrop : log.drop (u + 1) = (log.take j).drop (u + 1) ++ r :: log.drop (j + 1) := by
    conv_lhs => rw [← List.take_append_drop j log]
    rw [List.drop_append_of_le_length (by rw [List.length_take]; omega),
      List.drop_eq_getElem_cons hlt, hget]
  rw [hdrop, fate_append, hopen, Option.none_or, fate, if_pos rfl, hb]

/-- **No CLR without a rollback.** A CLR compensates an earlier UPDATE of its own
transaction, which has not ended between the two and does not commit. -/
theorem History.clr_not_committed (hrule : ∀ l r, rule l r → Lifecycle l r)
    (h : History rule log) {j p s : Nat} {o : Bytes} {un : Option Nat} {r : Record}
    (hr : log[j]? = some r) (hb : r.body = .clr p s o un) :
    fate r.txnId (log.drop (j + 1)) ≠ some true ∧
    ∃ u ru n k, u < j ∧ log[u]? = some ru ∧ ru.txnId = r.txnId ∧ ru.body = .update p s o n k ∧
      un = ru.prevLsn ∧ fate r.txnId ((log.take j).drop (u + 1)) = none ∧
      fate r.txnId (log.drop (u + 1)) ≠ some true := by
  have hj : IsClrOf log r.txnId p s o un j := ⟨r, hr, rfl, hb⟩
  obtain ⟨u, ru, n, k, huj, hru, hrut, hrub, rfl⟩ := h.clr_update hrule hj
  obtain ⟨hopen, hsame⟩ := h.clr_fate hrule hru hrub hr hrut hb huj
  have hloser : fate r.txnId (log.drop (u + 1)) ≠ some true := by
    intro hf
    rw [← hrut] at hf hj
    exact (h.compensated hrule u ru _ _ _ _ _ hru hrub).committed hf j hj
  exact ⟨hsame ▸ hloser, u, ru, n, k, huj, hru, hrut, hrub, rfl, hopen, hloser⟩

end PersistX
