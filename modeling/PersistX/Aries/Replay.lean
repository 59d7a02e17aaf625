import PersistX.Aries.Correctness

/-!
# PersistX — one page through the redo pass

`Sys.redoOne` looks at a whole pool. Where the DPT lets every record through, what
it does to one page is the `page_lsn` check and the change (`redoChecked`), and the
pass over a log is a fold (`replay`). `Seen` says that a page has the records of a
log behind it, `RedoRoom` that the pass never forces a record in without room.

Main results: `Seen.replay` — the pass leaves a page alone that has seen the log;
`page_redoOne` — the step of the pool.
-/

namespace PersistX

open PageOps LawfulPageOps

variable {P : Type}

section Defs

variable [PageOps P]

/-- What `redo()` does to page `p` for one record, the DPT checks apart. -/
def redoChecked (p : Nat) (x : P) (r : Record) : P :=
  if r.body.page? = some p ∧ pageLsn x < r.lsn then redoRecord x r.body r.lsn else x

/-- What the pass over a log leaves of an image of page `p`. -/
def replay (p : Nat) (log : List Record) (x : P) : P := log.foldl (redoChecked p) x

/-- Whatever the pass changes has room. -/
def RedoRoom (p : Nat) : P → List Record → Prop
  | _, [] => True
  | x, r :: l => (r.body.page? = some p → pageLsn x < r.lsn → redoFits x r.body = true) ∧
    RedoRoom p (redoChecked p x r) l

/-- No record of the page is above its LSN. -/
def Seen (p : Nat) (log : List Record) (x : P) : Prop :=
  ∀ r ∈ log, r.body.page? = some p → r.lsn ≤ pageLsn x

variable {p n : Nat} {a b log : List Record} {x : P} {r : Record}

-- ---------------------------------------------------------------------------
-- The pass
-- ---------------------------------------------------------------------------

@[simp] theorem replay_nil (p : Nat) (x : P) : replay p [] x = x := rfl

theorem replay_cons (p : Nat) (r : Record) (l : List Record) (x : P) :
    replay p (r :: l) x = replay p l (redoChecked p x r) := rfl

theorem replay_append (p : Nat) (a b : List Record) (x : P) :
    replay p (a ++ b) x = replay p b (replay p a x) := List.foldl_append

theorem replay_append_one (p : Nat) (a : List Record) (r : Record) (x : P) :
    replay p (a ++ [r]) x = redoChecked p (replay p a x) r := replay_append p a [r] x

theorem redoChecked_of_page (h : r.body.page? ≠ some p) (x : P) : redoChecked p x r = x :=
  if_neg fun hc => h hc.1

theorem redoChecked_of_le (h : r.body.page? = some p → r.lsn ≤ pageLsn x) : redoChecked p x r = x :=
  if_neg fun hc => Nat.not_lt.mpr (h hc.1) hc.2

theorem redoChecked_of_lt (hp : r.body.page? = some p) (h : pageLsn x < r.lsn) :
    redoChecked p x r = redoRecord x r.body r.lsn := if_pos ⟨hp, h⟩

theorem redoRoom_append : RedoRoom p x (a ++ b) ↔ RedoRoom p x a ∧ RedoRoom p (replay p a x) b := by
  induction a generalizing x with
  | nil => exact ⟨fun h => ⟨trivial, h⟩, fun h => h.2⟩
  | cons r a ih =>
    rw [List.cons_append, RedoRoom, RedoRoom, replay_cons, ih, and_assoc]

theorem redoRoom_append_one : RedoRoom p x (a ++ [r]) ↔ RedoRoom p x a ∧
    (r.body.page? = some p → pageLsn (replay p a x) < r.lsn → redoFits (replay p a x) r.body = true) := by
  rw [redoRoom_append, RedoRoom, RedoRoom, and_true]

-- ---------------------------------------------------------------------------
-- What a page has seen
-- ---------------------------------------------------------------------------

theorem Seen.of_append_left (h : Seen p (a ++ b) x) : Seen p a x :=
  fun r hr => h r (List.mem_append_left _ hr)

theorem Seen.append (ha : Seen p a x) (hb : Seen p b x) : Seen p (a ++ b) x := by
  intro r hr hp
  rcases List.mem_append.mp hr with hr | hr
  · exact ha r hr hp
  · exact hb r hr hp

theorem Seen.mono {y : P} (h : Seen p log x) (hle : pageLsn x ≤ pageLsn y) : Seen p log y :=
  fun r hr hp => Nat.le_trans (h r hr hp) hle

/-- The pass leaves a page alone that has seen all of the log. -/
theorem Seen.replay (h : Seen p log x) : replay p log x = x := by
  induction log with
  | nil => rfl
  | cons r l ih =>
    rw [replay_cons, redoChecked_of_le (h r List.mem_cons_self)]
    exact ih fun r' hr' => h r' (List.mem_cons_of_mem _ hr')

theorem Seen.redoRoom (h : Seen p log x) : RedoRoom p x log := by
  induction log with
  | nil => trivial
  | cons r l ih =>
    refine ⟨fun hp hlt => absurd (h r List.mem_cons_self hp) (Nat.not_le.mpr hlt), ?_⟩
    rw [redoChecked_of_le (h r List.mem_cons_self)]
    exact ih fun r' hr' => h r' (List.mem_cons_of_mem _ hr')

end Defs

section Laws

variable [LawfulPageOps P] {p n : Nat} {a b log : List Record} {x : P} {r : Record}

theorem le_pageLsn_redoChecked (p : Nat) (x : P) (r : Record) :
    pageLsn x ≤ pageLsn (redoChecked p x r) := by
  rw [redoChecked]
  split
  · rename_i h
    rw [lsn_redoRecord]
    exact Nat.le_of_lt h.2
  · exact Nat.le_refl _

/-- The pass never takes a page back. -/
theorem le_pageLsn_replay (p : Nat) (log : List Record) (x : P) :
    pageLsn x ≤ pageLsn (replay p log x) := by
  induction log generalizing x with
  | nil => exact Nat.le_refl _
  | cons r l ih => exact Nat.le_trans (le_pageLsn_redoChecked p x r) (ih _)

theorem seen_redoChecked (p : Nat) (x : P) (r : Record) : Seen p [r] (redoChecked p x r) := by
  intro r' hr' hp
  rw [List.mem_singleton.mp hr'] at hp ⊢
  rcases Nat.lt_or_ge (pageLsn x) r.lsn with hlt | hge
  · rw [redoChecked_of_lt hp hlt, lsn_redoRecord]
  · exact Nat.le_trans hge (le_pageLsn_redoChecked p x r)

theorem wf_redoChecked (hw : Wf x) (hroom : RedoRoom p x [r]) (hne : ∀ q u k, r.body ≠ .update q u [] [] k) :
    Wf (redoChecked p x r) := by
  rw [redoChecked]
  split
  · rename_i h
    obtain ⟨s, new, hwrite⟩ := RecordBody.exists_write h.1
    exact (redoRecord_spec r.lsn hw hwrite (fun q u o k hb ho => hne q u k (by rw [hb, ho]))
      (hroom.1 h.1 h.2)).1
  · exact hw

-- ---------------------------------------------------------------------------
-- The pool
-- ---------------------------------------------------------------------------

theorem readPage_redoOne (dpt : Table) (bm : BufferManager P) (r : Record) :
    (Sys.redoOne dpt bm r).readPage = bm.readPage := by
  rw [Sys.redoOne]
  split
  · rfl
  · split
    · rfl
    · split
      · rfl
      · split
        · rfl
        · simp only
          split <;> exact readPage_modify _ _ _ _

/-- **One record in the pool.** Where the DPT does not filter it out, every page goes on as `replay` says. -/
theorem page_redoOne {dpt : Table} {r : Record} (hdpt : ∀ p, r.body.page? = some p → ¬ Filtered dpt p r.lsn)
    (bm : BufferManager P) (q : Nat) : (Sys.redoOne dpt bm r).page q = redoChecked q (bm.page q) r := by
  cases hp : r.body.page? with
  | none =>
    have hsame : Sys.redoOne dpt bm r = bm := by
      simp only [Sys.redoOne, hp]
      split <;> rfl
    rw [hsame, redoChecked_of_page (by rw [hp]; exact (Option.some_ne_none _).symm)]
  | some p =>
    obtain ⟨l, hl, hle⟩ : ∃ l, dpt.lookup p = some l ∧ l ≤ r.lsn := by
      have := hdpt p hp
      simp only [Filtered, not_forall, Nat.not_lt] at this
      obtain ⟨l, hl, hle⟩ := this
      exact ⟨l, hl, hle⟩
    obtain ⟨m, hm, hstart⟩ := startLsn_le hl
    have hgo : ¬ (Sys.startLsn dpt).any (r.lsn < ·) = true := by
      rw [hstart, Option.any_some, decide_eq_true_eq]
      omega
    simp only [Sys.redoOne, if_neg hgo, hp, hl, if_neg (Nat.not_lt.mpr hle), BufferManager.fetchPage_snd]
    by_cases hq : q = p
    · subst hq
      split
      · rename_i hge
        rw [BufferManager.page_modify, if_pos rfl, redoChecked_of_le fun _ => hge]
      · rename_i hlt
        rw [BufferManager.page_modify, if_pos rfl, redoChecked_of_lt hp (Nat.not_le.mp hlt)]
    · have hother : r.body.page? ≠ some q := by
        rw [hp]
        exact fun hc => hq (Option.some.inj hc).symm
      rw [redoChecked_of_page hother]
      split <;> rw [BufferManager.page_modify, if_neg hq]

end Laws

end PersistX
