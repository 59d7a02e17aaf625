import PersistX.Wal.History

/-!
# PersistX — histories: what a log says about its slots

The protocol of `log_update` slot by slot: the before-image that is logged is
the slot's contents, and a slot on which an open transaction has something to
undo is left alone by the others (`SlotRule`).

Main results:

* `History.slots` — the before-image of the oldest uncompensated UPDATE of a
  slot is the slot's committed contents;
* `History.undoes` — undoing an open transaction from the newest record back,
  each UPDATE finds its own after-image in its slot;
* `contents_eq_committed` — with no open transaction left, the log's contents
  are those of the committed transactions.
-/

namespace PersistX

/-- The record at `u` is an UPDATE of this slot. -/
def UpdateAt (log : List Record) (u : Nat) (p : Nat) (s : Nat) (old : Bytes) : Prop :=
  ∃ r new k, log[u]? = some r ∧ r.body = .update p s old new k

/-- An UPDATE carries the slot's contents as before-image, changes something
and stays off the slots that another open transaction may still have to undo. -/
def SlotRule (log : List Record) (r : Record) : Prop :=
  ∀ p s old new k, r.body = .update p s old new k →
    image old = contents log p s ∧
    ∀ t v, t ≠ r.txnId → active log t = some v → ∀ u ∈ v.pend, ∀ o, ¬ UpdateAt log u p s o

/-- Every record fits its transaction's life and, if it is an UPDATE, the
protocol of `log_update`. -/
def Legit (log : List Record) (r : Record) : Prop := Lifecycle log r ∧ SlotRule log r

/-- An open transaction still has to undo something on this slot. -/
def Pending (log : List Record) (p s : Nat) : Prop :=
  ∃ t v u o, active log t = some v ∧ u ∈ v.pend ∧ UpdateAt log u p s o

/-- What the slot rule guarantees, slot by slot. -/
structure SlotInv (log : List Record) : Prop where
  /-- Two open transactions never have something to undo on the same slot. -/
  disjoint : ∀ t t' v v', t ≠ t' → active log t = some v → active log t' = some v' →
    ∀ u ∈ v.pend, ∀ u' ∈ v'.pend, ∀ p s o o', UpdateAt log u p s o → ¬ UpdateAt log u' p s o'
  /-- The last write to a slot that a transaction in its forward phase has
  written is one of that transaction's. -/
  owner : ∀ t v, active log t = some v → v.rolling = false →
    ∀ u ∈ v.pend, ∀ p s o, UpdateAt log u p s o →
    ∃ a x b o' n k, log = a ++ x :: b ∧ x.txnId = t ∧ a.length ∈ v.pend ∧
      x.body = .update p s o' n k ∧ ∀ y ∈ b, ¬ y.body.Writes p s
  /-- The before-image of the oldest UPDATE left to undo on a slot is the
  slot's committed contents. -/
  oldest : ∀ t v, active log t = some v → ∀ u ∈ v.pend, ∀ p s o, UpdateAt log u p s o →
    (∀ u' ∈ v.pend, ∀ o', UpdateAt log u' p s o' → u ≤ u') →
    committedContents log p s = image o
  /-- A slot with nothing left to undo has its committed contents. -/
  clean : ∀ p s, ¬ Pending log p s → committedContents log p s = contents log p s

theorem UpdateAt.append {log : List Record} {u p s : Nat} {o : Bytes} (r : Record)
    (h : UpdateAt log u p s o) : UpdateAt (log ++ [r]) u p s o := by
  obtain ⟨x, n, k, hx, hb⟩ := h
  exact ⟨x, n, k, getElem?_append_of_some hx, hb⟩

theorem UpdateAt.of_append {log : List Record} {u p s : Nat} {o : Bytes} {r : Record}
    (hu : u < log.length) (h : UpdateAt (log ++ [r]) u p s o) : UpdateAt log u p s o := by
  obtain ⟨x, n, k, hx, hb⟩ := h
  exact ⟨x, n, k, by rwa [List.getElem?_append_left hu] at hx, hb⟩

theorem UpdateAt.of_last {log : List Record} {p s : Nat} {o : Bytes} {r : Record}
    (h : UpdateAt (log ++ [r]) log.length p s o) : ∃ n k, r.body = .update p s o n k := by
  obtain ⟨x, n, k, hx, hb⟩ := h
  simp only [List.getElem?_concat_length, Option.some.injEq] at hx
  exact ⟨n, k, by rw [hx]; exact hb⟩

theorem UpdateAt.inj {log : List Record} {u p s p' s' : Nat} {o o' : Bytes}
    (h : UpdateAt log u p s o) (h' : UpdateAt log u p' s' o') : p = p' ∧ s = s' ∧ o = o' := by
  obtain ⟨x, n, k, hx, hb⟩ := h
  obtain ⟨x', n', k', hx', hb'⟩ := h'
  rw [hx] at hx'
  obtain rfl := Option.some.inj hx'
  rw [hb] at hb'
  injection hb' with h1 h2 h3
  exact ⟨h1, h2, h3⟩

/-- A record that neither writes nor commits, and that opens, keeps or closes
its transaction without touching what is pending, keeps the slot invariant. -/
theorem SlotInv.append_quiet {log : List Record} {r : Record} (h : SlotInv log)
    (hinv : ∀ t v, active log t = some v → TxnInv log t v)
    (hw : r.body.write? = none) (hc : r.body ≠ .commit)
    (hopen : ∀ v', stepTxn (active log r.txnId) r = some v' → ∀ u ∈ v'.pend,
      ∃ v, active log r.txnId = some v ∧ v.pend = v'.pend ∧
        (v'.rolling = false → v.rolling = false))
    (hkeep : ∀ v, active log r.txnId = some v → v.pend ≠ [] →
      ∃ v', stepTxn (active log r.txnId) r = some v' ∧ v'.pend = v.pend) :
    SlotInv (log ++ [r]) := by
  have hlt : ∀ {t v}, active log t = some v → ∀ {u}, u ∈ v.pend → u < log.length :=
    fun hv _ hu => (hinv _ _ hv).pend_lt hu
  have hnw : ∀ p s, ¬ r.body.Writes p s := by
    rintro p s ⟨new, hnew⟩
    rw [hw] at hnew
    cases hnew
  have hold : ∀ {t v'}, active (log ++ [r]) t = some v' → ∀ {u}, u ∈ v'.pend →
      ∃ v, active log t = some v ∧ v.pend = v'.pend ∧ (v'.rolling = false → v.rolling = false) := by
    intro t v' hv' u hu
    by_cases ht : r.txnId = t
    · subst ht
      rw [active_append_one_self] at hv'
      exact hopen v' hv' u hu
    · rw [active_append_one_ne ht] at hv'
      exact ⟨v', hv', rfl, id⟩
  refine ⟨?_, ?_, ?_, ?_⟩
  · intro t t' v v' hne hv hv' u hu u' hu' p s o o' hup hup'
    obtain ⟨w, hwv, hpend, -⟩ := hold hv hu
    obtain ⟨w', hwv', hpend', -⟩ := hold hv' hu'
    rw [← hpend] at hu
    rw [← hpend'] at hu'
    exact h.disjoint t t' w w' hne hwv hwv' u hu u' hu' p s o o'
      (hup.of_append (hlt hwv hu)) (hup'.of_append (hlt hwv' hu'))
  · intro t v hv hroll u hu p s o hup
    obtain ⟨w, hwv, hpend, hroll'⟩ := hold hv hu
    rw [← hpend] at hu ⊢
    obtain ⟨a, x, b, o', n, k, hlog, hx, ha, hb, hrest⟩ :=
      h.owner t w hwv (hroll' hroll) u hu p s o (hup.of_append (hlt hwv hu))
    refine ⟨a, x, b ++ [r], o', n, k, by rw [hlog]; simp, hx, ha, hb, ?_⟩
    intro y hy
    rcases List.mem_append.mp hy with hy | hy
    · exact hrest y hy
    · rw [List.mem_singleton.mp hy]
      exact hnw p s
  · intro t v hv u hu p s o hup hmin
    obtain ⟨w, hwv, hpend, -⟩ := hold hv hu
    rw [← hpend] at hu hmin
    rw [committedContents_append_one hc]
    exact h.oldest t w hwv u hu p s o (hup.of_append (hlt hwv hu))
      fun u' hu' o' hup' => hmin u' hu' o' (hup'.append r)
  · intro p s hp
    rw [committedContents_append_one hc, contents_append_one, applyBody_of_not_writes (hnw p s)]
    apply h.clean
    rintro ⟨t, v, u, o, hv, hu, hup⟩
    apply hp
    by_cases ht : r.txnId = t
    · subst ht
      obtain ⟨v', hv', hpend⟩ := hkeep v hv (List.ne_nil_of_mem hu)
      exact ⟨_, v', u, o, by rwa [active_append_one_self], hpend ▸ hu, hup.append r⟩
    · exact ⟨t, v, u, o, by rwa [active_append_one_ne ht], hu, hup.append r⟩

/-- An UPDATE that keeps the slot rule keeps the slot invariant. -/
theorem SlotInv.append_update {log : List Record} {r : Record} {v₀ : TxnView} {p₀ s₀ : Nat}
    {o₀ n₀ : Bytes} {k₀ : Int} (h : SlotInv log)
    (hinv : ∀ t v, active log t = some v → TxnInv log t v) (hlsn : r.lsn = log.length)
    (hb : r.body = .update p₀ s₀ o₀ n₀ k₀) (hv₀ : active log r.txnId = some v₀)
    (hold : image o₀ = contents log p₀ s₀)
    (hfree : ∀ t v, t ≠ r.txnId → active log t = some v → ∀ u ∈ v.pend, ∀ o,
      ¬ UpdateAt log u p₀ s₀ o) : SlotInv (log ++ [r]) := by
  have hself : active (log ++ [r]) r.txnId =
      some ⟨log.length, log.length :: v₀.pend, v₀.rolling⟩ := by
    rw [active_append_one_self, stepTxn, hb, hv₀, hlsn]
    rfl
  have hlt : ∀ {t v}, active log t = some v → ∀ {u}, u ∈ v.pend → u < log.length :=
    fun hv _ hu => (hinv _ _ hv).pend_lt hu
  have hc : r.body ≠ .commit := by rw [hb]; simp
  have hslot : ∀ {p s}, ¬ (p = p₀ ∧ s = s₀) → ¬ r.body.Writes p s := by
    rintro p s hne ⟨new, hw⟩
    rw [hb] at hw
    simp only [RecordBody.write?, Option.some.injEq, Prod.mk.injEq] at hw
    exact hne ⟨hw.1.symm, hw.2.1.symm⟩
  -- the newest UPDATE is the record itself, the others are old
  have hcases : ∀ {u p s o}, u ∈ log.length :: v₀.pend → UpdateAt (log ++ [r]) u p s o →
      (u = log.length ∧ p = p₀ ∧ s = s₀ ∧ o = o₀) ∨ (u ∈ v₀.pend ∧ UpdateAt log u p s o) := by
    intro u p s o hu hup
    rcases List.mem_cons.mp hu with rfl | hu
    · obtain ⟨n, k, hb'⟩ := hup.of_last
      rw [hb] at hb'
      injection hb' with h1 h2 h3
      exact Or.inl ⟨rfl, h1.symm, h2.symm, h3.symm⟩
    · exact Or.inr ⟨hu, hup.of_append (hlt hv₀ hu)⟩
  refine ⟨?_, ?_, ?_, ?_⟩
  · intro t t' v v' hne hv hv' u hu u' hu' p s o o' hup hup'
    by_cases ht : r.txnId = t
    · subst ht
      rw [hself] at hv
      obtain rfl := Option.some.inj hv
      rw [active_append_one_ne hne] at hv'
      have hup' := hup'.of_append (hlt hv' hu')
      rcases hcases hu hup with ⟨-, rfl, rfl, -⟩ | ⟨hu, hup⟩
      · exact hfree t' v' (Ne.symm hne) hv' u' hu' o' hup'
      · exact h.disjoint _ _ _ _ hne hv₀ hv' u hu u' hu' p s o o' hup hup'
    · rw [active_append_one_ne ht] at hv
      have hup := hup.of_append (hlt hv hu)
      by_cases ht' : r.txnId = t'
      · subst ht'
        rw [hself] at hv'
        obtain rfl := Option.some.inj hv'
        rcases hcases hu' hup' with ⟨-, rfl, rfl, -⟩ | ⟨hu', hup'⟩
        · exact hfree t v (Ne.symm ht) hv u hu o hup
        · exact h.disjoint _ _ _ _ hne hv hv₀ u hu u' hu' p s o o' hup hup'
      · rw [active_append_one_ne ht'] at hv'
        exact h.disjoint _ _ _ _ hne hv hv' u hu u' hu' p s o o' hup
          (hup'.of_append (hlt hv' hu'))
  · intro t v hv hroll u hu p s o hup
    -- an owner in the old log stays one when the new record is off its slot
    have extend : ∀ {w : TxnView}, active log t = some w → w.rolling = false → u ∈ w.pend →
        UpdateAt log u p s o → ¬ (p = p₀ ∧ s = s₀) →
        ∃ a x b o' n k, log ++ [r] = a ++ x :: b ∧ x.txnId = t ∧ a.length ∈ w.pend ∧
          x.body = .update p s o' n k ∧ ∀ y ∈ b, ¬ y.body.Writes p s := by
      intro w hw hroll hu hup hne
      obtain ⟨a, x, b, o', n, k, hlog, hx, ha, hxb, hrest⟩ := h.owner t w hw hroll u hu p s o hup
      refine ⟨a, x, b ++ [r], o', n, k, by rw [hlog]; simp, hx, ha, hxb, ?_⟩
      intro y hy
      rcases List.mem_append.mp hy with hy | hy
      · exact hrest y hy
      · rw [List.mem_singleton.mp hy]
        exact hslot hne
    by_cases ht : r.txnId = t
    · subst ht
      rw [hself] at hv
      obtain rfl := Option.some.inj hv
      by_cases hps : p = p₀ ∧ s = s₀
      · obtain ⟨rfl, rfl⟩ := hps
        exact ⟨log, r, [], o₀, n₀, k₀, rfl, rfl, List.mem_cons_self, hb, by simp⟩
      · rcases hcases hu hup with ⟨-, rfl, rfl, -⟩ | ⟨hu, hup⟩
        · exact absurd ⟨rfl, rfl⟩ hps
        · obtain ⟨a, x, b, o', n, k, hlog, hx, ha, rest⟩ := extend hv₀ hroll hu hup hps
          exact ⟨a, x, b, o', n, k, hlog, hx, List.mem_cons_of_mem _ ha, rest⟩
    · rw [active_append_one_ne ht] at hv
      have hup := hup.of_append (hlt hv hu)
      refine extend hv hroll hu hup ?_
      rintro ⟨rfl, rfl⟩
      exact hfree t v (Ne.symm ht) hv u hu o hup
  · intro t v hv u hu p s o hup hmin
    rw [committedContents_append_one hc]
    by_cases ht : r.txnId = t
    · subst ht
      rw [hself] at hv
      obtain rfl := Option.some.inj hv
      rcases hcases hu hup with ⟨rfl, rfl, rfl, rfl⟩ | ⟨hu, hup⟩
      · -- the first write to the slot since the last commit: nothing was pending on it
        rw [hold]
        apply h.clean
        rintro ⟨t', v', u', o', hv', hu', hup'⟩
        by_cases ht' : t' = r.txnId
        · subst ht'
          rw [hv₀] at hv'
          obtain rfl := Option.some.inj hv'
          have hle := hmin u' (List.mem_cons_of_mem _ hu') o' (hup'.append r)
          exact absurd (hlt hv₀ hu') (Nat.not_lt.mpr hle)
        · exact hfree t' v' ht' hv' u' hu' o' hup'
      · exact h.oldest _ _ hv₀ u hu p s o hup fun u' hu' o' hup' =>
          hmin u' (List.mem_cons_of_mem _ hu') o' (hup'.append r)
    · rw [active_append_one_ne ht] at hv
      exact h.oldest t v hv u hu p s o (hup.of_append (hlt hv hu)) fun u' hu' o' hup' =>
        hmin u' hu' o' (hup'.append r)
  · intro p s hp
    have hne : ¬ (p = p₀ ∧ s = s₀) := by
      rintro ⟨rfl, rfl⟩
      exact hp ⟨_, _, log.length, o₀, hself, List.mem_cons_self, r, n₀, k₀, by simp, hb⟩
    rw [committedContents_append_one hc, contents_append_one, applyBody_of_not_writes (hslot hne)]
    apply h.clean
    rintro ⟨t, v, u, o, hv, hu, hup⟩
    by_cases ht : r.txnId = t
    · subst ht
      rw [hv₀] at hv
      obtain rfl := Option.some.inj hv
      exact hp ⟨_, _, u, o, hself, List.mem_cons_of_mem _ hu, hup.append r⟩
    · exact hp ⟨t, v, u, o, by rwa [active_append_one_ne ht], hu, hup.append r⟩

/-- A CLR takes the newest UPDATE of its transaction off what is pending. -/
theorem SlotInv.append_clr {log : List Record} {r : Record} {v₀ : TxnView} {u₀ : Nat}
    {us : List Nat} {p₀ s₀ : Nat} {o₀ : Bytes} {un : Option Nat} (h : SlotInv log)
    (hinv : ∀ t v, active log t = some v → TxnInv log t v)
    (hb : r.body = .clr p₀ s₀ o₀ un) (hv₀ : active log r.txnId = some v₀)
    (hpend : v₀.pend = u₀ :: us) (hu₀ : UpdateAt log u₀ p₀ s₀ o₀) : SlotInv (log ++ [r]) := by
  have hself : active (log ++ [r]) r.txnId = some ⟨r.lsn, us, true⟩ := by
    rw [active_append_one_self, stepTxn, hb, hv₀]
    simp [hpend]
  have hlt : ∀ {t v}, active log t = some v → ∀ {u}, u ∈ v.pend → u < log.length :=
    fun hv _ hu => (hinv _ _ hv).pend_lt hu
  have hc : r.body ≠ .commit := by rw [hb]; simp
  have hmem₀ : u₀ ∈ v₀.pend := by rw [hpend]; exact List.mem_cons_self
  have hus : ∀ {u}, u ∈ us → u ∈ v₀.pend := by
    intro u hu
    rw [hpend]
    exact List.mem_cons_of_mem _ hu
  have hlt₀ : ∀ u ∈ us, u < u₀ := by
    have hs := (hinv _ _ hv₀).sorted
    rw [hpend] at hs
    exact (List.pairwise_cons.mp hs).1
  have hslot : ∀ {p s}, ¬ (p = p₀ ∧ s = s₀) → ¬ r.body.Writes p s := by
    rintro p s hne ⟨new, hw⟩
    rw [hb] at hw
    simp only [RecordBody.write?, Option.some.injEq, Prod.mk.injEq] at hw
    exact hne ⟨hw.1.symm, hw.2.1.symm⟩
  -- every view of the new log is part of one of the old log
  have hold : ∀ {t v}, active (log ++ [r]) t = some v →
      ∃ w, active log t = some w ∧ (∀ u ∈ v.pend, u ∈ w.pend) := by
    intro t v hv
    by_cases ht : r.txnId = t
    · subst ht
      rw [hself] at hv
      obtain rfl := Option.some.inj hv
      exact ⟨v₀, hv₀, fun u hu => hus hu⟩
    · rw [active_append_one_ne ht] at hv
      exact ⟨v, hv, fun u hu => hu⟩
  refine ⟨?_, ?_, ?_, ?_⟩
  · intro t t' v v' hne hv hv' u hu u' hu' p s o o' hup hup'
    obtain ⟨w, hw, hsub⟩ := hold hv
    obtain ⟨w', hw', hsub'⟩ := hold hv'
    exact h.disjoint t t' w w' hne hw hw' u (hsub u hu) u' (hsub' u' hu') p s o o'
      (hup.of_append (hlt hw (hsub u hu))) (hup'.of_append (hlt hw' (hsub' u' hu')))
  · intro t v hv hroll u hu p s o hup
    by_cases ht : r.txnId = t
    · subst ht
      rw [hself] at hv
      obtain rfl := Option.some.inj hv
      simp at hroll
    · rw [active_append_one_ne ht] at hv
      have hup := hup.of_append (hlt hv hu)
      obtain ⟨a, x, b, o', n, k, hlog, hx, ha, hxb, hrest⟩ := h.owner t v hv hroll u hu p s o hup
      refine ⟨a, x, b ++ [r], o', n, k, by rw [hlog]; simp, hx, ha, hxb, ?_⟩
      intro y hy
      rcases List.mem_append.mp hy with hy | hy
      · exact hrest y hy
      · rw [List.mem_singleton.mp hy]
        apply hslot
        rintro ⟨rfl, rfl⟩
        exact h.disjoint _ _ _ _ ht hv₀ hv u₀ hmem₀ u hu p s o₀ o hu₀ hup
  · intro t v hv u hu p s o hup hmin
    rw [committedContents_append_one hc]
    obtain ⟨w, hw, hsub⟩ := hold hv
    refine h.oldest t w hw u (hsub u hu) p s o (hup.of_append (hlt hw (hsub u hu))) ?_
    intro u' hu' o' hup'
    by_cases ht : r.txnId = t
    · subst ht
      rw [hself] at hv
      obtain rfl := Option.some.inj hv
      rw [hv₀] at hw
      obtain rfl := Option.some.inj hw
      rw [hpend] at hu'
      rcases List.mem_cons.mp hu' with rfl | hu'
      · exact Nat.le_of_lt (hlt₀ u hu)
      · exact hmin u' hu' o' (hup'.append r)
    · rw [active_append_one_ne ht, hw] at hv
      obtain rfl := Option.some.inj hv
      exact hmin u' hu' o' (hup'.append r)
  · intro p s hp
    rw [committedContents_append_one hc, contents_append_one]
    -- what stays pending in the old log is the compensated UPDATE at most
    have honly : ∀ t v u o, active log t = some v → u ∈ v.pend → UpdateAt log u p s o →
        t = r.txnId ∧ u = u₀ := by
      intro t v u o hv hu hup
      by_contra hne
      apply hp
      by_cases ht : r.txnId = t
      · subst ht
        rw [hv₀] at hv
        obtain rfl := Option.some.inj hv
        rw [hpend] at hu
        rcases List.mem_cons.mp hu with rfl | hu
        · exact absurd ⟨rfl, rfl⟩ hne
        · exact ⟨_, _, u, o, hself, hu, hup.append r⟩
      · exact ⟨t, v, u, o, by rwa [active_append_one_ne ht], hu, hup.append r⟩
    by_cases hps : p = p₀ ∧ s = s₀
    · obtain ⟨rfl, rfl⟩ := hps
      rw [applyBody_of_write (by rw [hb]; rfl)]
      refine h.oldest _ _ hv₀ u₀ hmem₀ p s o₀ hu₀ ?_
      intro u' hu' o' hup'
      exact Nat.le_of_eq (honly _ _ _ _ hv₀ hu' hup').2.symm
    · rw [applyBody_of_not_writes (hslot hps)]
      apply h.clean
      rintro ⟨t, v, u, o, hv, hu, hup⟩
      obtain ⟨-, rfl⟩ := honly t v u o hv hu hup
      obtain ⟨rfl, rfl, -⟩ := hup.inj hu₀
      exact hps ⟨rfl, rfl⟩

/-- A COMMIT turns the contents its transaction has written into committed ones. -/
theorem SlotInv.append_commit {log : List Record} {r : Record} {v₀ : TxnView} (h : SlotInv log)
    (hinv : ∀ t v, active log t = some v → TxnInv log t v) (hb : r.body = .commit)
    (hv₀ : active log r.txnId = some v₀) (hroll : v₀.rolling = false) :
    SlotInv (log ++ [r]) := by
  have hself : active (log ++ [r]) r.txnId = none := by
    rw [active_append_one_self, stepTxn, hb]
  have hlt : ∀ {t v}, active log t = some v → ∀ {u}, u ∈ v.pend → u < log.length :=
    fun hv _ hu => (hinv _ _ hv).pend_lt hu
  have hne : ∀ {t v}, active (log ++ [r]) t = some v → r.txnId ≠ t ∧ active log t = some v := by
    intro t v hv
    have ht : r.txnId ≠ t := by
      rintro rfl
      rw [hself] at hv
      cases hv
    exact ⟨ht, by rwa [active_append_one_ne ht] at hv⟩
  have hnw : ∀ p s, ¬ r.body.Writes p s := by
    rintro p s ⟨new, hw⟩
    rw [hb] at hw
    simp [RecordBody.write?] at hw
  -- off the transaction's own slots nothing becomes committed
  have hother : ∀ p s, (∀ u ∈ v₀.pend, ∀ o, ¬ UpdateAt log u p s o) →
      committedContents (log ++ [r]) p s = committedContents log p s := by
    intro p s hnone
    apply committedContents_commit_other hb
    rintro a x b hlog hx ⟨o, n, k, hxb⟩ hfate
    have hget : log[a.length]? = some x := by rw [hlog]; simp
    have hdrop : log.drop (a.length + 1) = b := by
      rw [hlog, List.drop_append]
      simp
    have hmem := (hinv _ _ hv₀).all hroll a.length x hget hx ⟨p, s, o, n, k, hxb⟩
      (by rw [hdrop]; exact hfate)
    exact hnone a.length hmem o ⟨x, n, k, hget, hxb⟩
  refine ⟨?_, ?_, ?_, ?_⟩
  · intro t t' v v' htt hv hv' u hu u' hu' p s o o' hup hup'
    obtain ⟨-, hv⟩ := hne hv
    obtain ⟨-, hv'⟩ := hne hv'
    exact h.disjoint t t' v v' htt hv hv' u hu u' hu' p s o o' (hup.of_append (hlt hv hu))
      (hup'.of_append (hlt hv' hu'))
  · intro t v hv hr u hu p s o hup
    obtain ⟨-, hv⟩ := hne hv
    obtain ⟨a, x, b, o', n, k, hlog, hx, ha, hxb, hrest⟩ :=
      h.owner t v hv hr u hu p s o (hup.of_append (hlt hv hu))
    refine ⟨a, x, b ++ [r], o', n, k, by rw [hlog]; simp, hx, ha, hxb, ?_⟩
    intro y hy
    rcases List.mem_append.mp hy with hy | hy
    · exact hrest y hy
    · rw [List.mem_singleton.mp hy]
      exact hnw p s
  · intro t v hv u hu p s o hup hmin
    obtain ⟨ht, hv⟩ := hne hv
    have hup := hup.of_append (hlt hv hu)
    rw [hother p s fun u' hu' o' hup' =>
      h.disjoint _ _ _ _ ht hv₀ hv u' hu' u hu p s o' o hup' hup]
    exact h.oldest t v hv u hu p s o hup fun u' hu' o' hup' => hmin u' hu' o' (hup'.append r)
  · intro p s hp
    rw [contents_append_one, applyBody_of_not_writes (hnw p s)]
    by_cases hown : ∃ u ∈ v₀.pend, ∃ o, UpdateAt log u p s o
    · obtain ⟨u, hu, o, hup⟩ := hown
      obtain ⟨a, x, b, o', n, k, hlog, hx, ha, hxb, hrest⟩ :=
        h.owner _ _ hv₀ hroll u hu p s o hup
      have hopen : fate x.txnId b = none := by
        have hfate := (hinv _ _ hv₀).isOpen a.length ha
        have hdrop : log.drop (a.length + 1) = b := by
          rw [hlog, List.drop_append]
          simp
        rw [hx, ← hdrop]
        exact hfate
      rw [hlog, committedContents_commit_last hxb hb hx.symm hopen hrest, contents,
        foldl_applyBody_last (by rw [hxb]; rfl) hrest]
    · have hnone : ∀ u ∈ v₀.pend, ∀ o, ¬ UpdateAt log u p s o :=
        fun u hu o hup => hown ⟨u, hu, o, hup⟩
      rw [hother p s hnone]
      apply h.clean
      rintro ⟨t, v, u, o, hv, hu, hup⟩
      by_cases ht : r.txnId = t
      · subst ht
        rw [hv₀] at hv
        obtain rfl := Option.some.inj hv
        exact hnone u hu o hup
      · exact hp ⟨t, v, u, o, by rwa [active_append_one_ne ht], hu, hup.append r⟩

/-- **The slot invariant.** -/
theorem History.slots {log : List Record} (h : History Legit log) : SlotInv log := by
  induction h with
  | nil => exact ⟨by simp, by simp, by simp, fun _ _ _ => rfl⟩
  | @snoc log r hlog hr ih =>
    have hinv := (hlog.lifecycle fun _ _ h => h.1).2
    obtain ⟨⟨hlsn, hlife⟩, hslot⟩ := hr
    cases hb : r.body with
    | begin =>
      rw [hb] at hlife
      refine ih.append_quiet hinv (by rw [hb]; rfl) (by rw [hb]; simp) ?_ ?_
      · intro v' hv' u hu
        simp only [stepTxn, hb, Option.some.injEq] at hv'
        subst hv'
        simp at hu
      · intro v hv
        rw [hlife.1] at hv
        cases hv
    | update p s o n k =>
      rw [hb] at hlife
      obtain ⟨v, hv, -, -⟩ := hlife
      obtain ⟨hold, hfree⟩ := hslot p s o n k hb
      exact ih.append_update hinv hlsn hb hv hold hfree
    | commit =>
      rw [hb] at hlife
      obtain ⟨v, hv, hroll, -⟩ := hlife
      exact ih.append_commit hinv hb hv hroll
    | abort =>
      rw [hb] at hlife
      obtain ⟨v, hv, hroll, -⟩ := hlife
      refine ih.append_quiet hinv (by rw [hb]; rfl) (by rw [hb]; simp) ?_ ?_
      · intro v' hv' u _
        simp only [stepTxn, hb, hv, Option.map_some, Option.some.injEq] at hv'
        subst hv'
        exact ⟨v, hv, rfl, fun _ => hroll⟩
      · intro w hw _
        rw [hv] at hw
        obtain rfl := Option.some.inj hw
        exact ⟨⟨r.lsn, v.pend, true⟩, by simp only [stepTxn, hb, hv, Option.map_some], rfl⟩
    | clr p s new un =>
      rw [hb] at hlife
      obtain ⟨v, u, us, ru, hv, hpend, -, hru, ⟨n, k, hrub⟩, -⟩ := hlife
      exact ih.append_clr hinv hb hv hpend ⟨ru, n, k, hru, hrub⟩
    | txnEnd =>
      rw [hb] at hlife
      refine ih.append_quiet hinv (by rw [hb]; rfl) (by rw [hb]; simp) ?_ ?_
      · intro v' hv'
        simp [stepTxn, hb] at hv'
      · intro v hv hne
        exact absurd (hlife v hv) hne
    | checkpointBegin =>
      refine ih.append_quiet hinv (by rw [hb]; rfl) (by rw [hb]; simp) ?_ ?_
      · intro v' hv' u _
        exact ⟨v', by simpa only [stepTxn, hb] using hv', rfl, id⟩
      · intro v hv _
        exact ⟨v, by simpa only [stepTxn, hb] using hv, rfl⟩
    | checkpointEnd att dpt =>
      refine ih.append_quiet hinv (by rw [hb]; rfl) (by rw [hb]; simp) ?_ ?_
      · intro v' hv' u _
        exact ⟨v', by simpa only [stepTxn, hb] using hv', rfl, id⟩
      · intro v hv _
        exact ⟨v, by simpa only [stepTxn, hb] using hv, rfl⟩

/-- **Nothing left to undo.** When no transaction is open at the end of a
history, its slots hold exactly what the committed transactions wrote. -/
theorem contents_eq_committed {log : List Record} (h : History Legit log)
    (hnone : ∀ t, active log t = none) : contents log = committedContents log := by
  funext p s
  refine (h.slots.clean p s ?_).symm
  rintro ⟨t, v, u, o, hv, -⟩
  rw [hnone t] at hv
  cases hv

-- ---------------------------------------------------------------------------
-- Undoing finds what was written
-- ---------------------------------------------------------------------------

/-- Undoing the UPDATE records `us`, newest first, from contents `c`: each of
them finds its after-image in its slot and leaves its before-image there. -/
inductive Undoes (log : List Record) : Contents → List Nat → Prop where
  | nil {c : Contents} : Undoes log c []
  | cons {c : Contents} {u p s : Nat} {us : List Nat} {r : Record} {o n : Bytes} {k : Int} :
      log[u]? = some r → r.body = .update p s o n k → c p s = image n →
      Undoes log (c.set p s (image o)) us → Undoes log c (u :: us)

theorem Undoes.append {log : List Record} {c : Contents} {us : List Nat} (r : Record)
    (h : Undoes log c us) : Undoes (log ++ [r]) c us := by
  induction h with
  | nil => exact .nil
  | cons hx hb hc _ ih => exact .cons (getElem?_append_of_some hx) hb hc ih

/-- Only the slots of the UPDATEs matter. -/
theorem Undoes.congr {log : List Record} {c : Contents} {us : List Nat} (h : Undoes log c us) :
    ∀ {c' : Contents}, (∀ u ∈ us, ∀ p s o, UpdateAt log u p s o → c' p s = c p s) →
      Undoes log c' us := by
  induction h with
  | nil => exact fun _ => .nil
  | @cons c u p s us r o n k hx hb hc _ ih =>
    intro c' hagree
    refine .cons hx hb ?_ (ih ?_)
    · rw [hagree u List.mem_cons_self p s o ⟨r, n, k, hx, hb⟩, hc]
    · intro u' hu' p' s' o' hup
      have := hagree u' (List.mem_cons_of_mem _ hu') p' s' o' hup
      simp only [Contents.set]
      split
      · rfl
      · exact this

/-- **Undo meets its own after-images**, for every open transaction. -/
theorem History.undoes {log : List Record} (h : History Legit log) :
    ∀ t v, active log t = some v → Undoes log (contents log) v.pend := by
  induction h with
  | nil => simp
  | @snoc log r hlog hr ih =>
    intro t w hw
    have hinv := (hlog.lifecycle fun _ _ h => h.1).2
    obtain ⟨⟨hlsn, hlife⟩, hrule⟩ := hr
    rw [contents_append_one]
    -- a record that writes none of the transaction's slots
    have keep : ∀ {v : TxnView}, active log t = some v → w.pend = v.pend →
        (∀ u ∈ v.pend, ∀ p s o, UpdateAt log u p s o → ¬ r.body.Writes p s) →
        Undoes (log ++ [r]) (applyBody (contents log) r.body) w.pend := by
      intro v hv hpend hoff
      rw [hpend]
      refine ((ih t v hv).congr ?_).append r
      intro u hu p s o hup
      exact applyBody_of_not_writes (hoff u hu p s o hup)
    have quiet : r.body.write? = none → ∀ p s, ¬ r.body.Writes p s := by
      rintro hnone p s ⟨new, hnew⟩
      rw [hnone] at hnew
      cases hnew
    by_cases ht : r.txnId = t
    · subst ht
      rw [active_append_one_self, stepTxn] at hw
      cases hb : r.body with
      | begin =>
        rw [hb] at hw
        obtain rfl := Option.some.inj hw
        exact .nil
      | update p s o n k =>
        rw [hb] at hw hlife
        obtain ⟨v, hv, -, -⟩ := hlife
        rw [hv] at hw
        obtain rfl := Option.some.inj hw
        obtain ⟨hold, -⟩ := hrule p s o n k hb
        simp only [hlsn]
        refine .cons (by simp) hb (by simp [applyBody, RecordBody.write?]) ?_
        have hback : (applyBody (contents log) (.update p s o n k)).set p s (image o) =
            contents log := by
          funext p' s'
          by_cases hps : p' = p ∧ s' = s
          · obtain ⟨rfl, rfl⟩ := hps
            rw [Contents.set_self, hold]
          · rw [Contents.set_ne hps]
            apply applyBody_of_not_writes
            rintro ⟨new, hnew⟩
            simp only [RecordBody.write?, Option.some.injEq, Prod.mk.injEq] at hnew
            exact hps ⟨hnew.1.symm, hnew.2.1.symm⟩
        rw [hback]
        exact (ih _ v hv).append r
      | commit => rw [hb] at hw; simp at hw
      | txnEnd => rw [hb] at hw; simp at hw
      | abort =>
        rw [hb] at hw hlife
        obtain ⟨v, hv, -, -⟩ := hlife
        rw [hv] at hw
        obtain rfl := Option.some.inj hw
        rw [← hb]
        exact keep hv rfl fun _ _ p s _ _ => quiet (by rw [hb]; rfl) p s
      | clr p s new un =>
        rw [hb] at hw hlife
        obtain ⟨v, u, us, ru, hv, hpend, -, hru, ⟨n, k, hrub⟩, -⟩ := hlife
        rw [hv] at hw
        obtain rfl := Option.some.inj hw
        have hundo := ih _ v hv
        rw [hpend] at hundo
        cases hundo with
        | cons hx hxb _ hrest =>
          rw [hru] at hx
          obtain rfl := Option.some.inj hx
          rw [hrub] at hxb
          injection hxb with hp hs ho
          subst hp hs ho
          simp only [hpend, List.tail_cons]
          exact hrest.append r
      | checkpointBegin =>
        rw [hb] at hw
        rw [← hb]
        exact keep hw rfl fun _ _ p s _ _ => quiet (by rw [hb]; rfl) p s
      | checkpointEnd att dpt =>
        rw [hb] at hw
        rw [← hb]
        exact keep hw rfl fun _ _ p s _ _ => quiet (by rw [hb]; rfl) p s
    · rw [active_append_one_ne ht] at hw
      refine keep hw rfl ?_
      rintro u hu p s o hup ⟨new, hnew⟩
      cases hb : r.body with
      | update p' s' o' n' k =>
        rw [hb] at hnew
        simp only [RecordBody.write?, Option.some.injEq, Prod.mk.injEq] at hnew
        obtain ⟨rfl, rfl, -⟩ := hnew
        exact (hrule _ _ _ _ _ hb).2 t w (Ne.symm ht) hw u hu o hup
      | clr p' s' n' un =>
        rw [hb] at hnew hlife
        simp only [RecordBody.write?, Option.some.injEq, Prod.mk.injEq] at hnew
        obtain ⟨rfl, rfl, -⟩ := hnew
        obtain ⟨v, u', us, ru, hv, hpend, -, hru, ⟨n, k, hrub⟩, -⟩ := hlife
        exact hlog.slots.disjoint _ _ _ _ ht hv hw u' (by rw [hpend]; exact List.mem_cons_self)
          u hu p' s' n' o ⟨ru, n, k, hru, hrub⟩ hup
      | begin => rw [hb] at hnew; cases hnew
      | commit => rw [hb] at hnew; cases hnew
      | abort => rw [hb] at hnew; cases hnew
      | txnEnd => rw [hb] at hnew; cases hnew
      | checkpointBegin => rw [hb] at hnew; cases hnew
      | checkpointEnd => rw [hb] at hnew; cases hnew

end PersistX
