import PersistX.Shell.Linked

/-!
# PersistX — what `get` answers after an abort

`abort` goes back over the UPDATE records of the transaction. The log does not tell
everything that a command has done: a refused `put` leaves its record behind, and an
`update` that has moved its record logs the new place only. A stray record does no
harm to what `get` answers; a move does, if undoing the other changes writes one of
the two places as well (`Shell.moveUndoable`).

`Reverses v cs v₀` is the invariant of a transaction: taking back the changes `cs` from
`v` gives a state that answers like `v₀`.

Main result: `abort_keeps_answers`.
-/

namespace PersistX

open PageOps LawfulPageOps DataPageOps Transition

-- ---------------------------------------------------------------------------
-- A record moves
-- ---------------------------------------------------------------------------

section Visible

variable {v v₀ : Visible} {cs : List Change} {k : Int} {r q : Rid} {d new : Bytes}

/-- What `get` answers for a key with a record. -/
theorem Visible.get_eq (hk : v.index k = some r) (hr : r.isValid = true)
    (hd : v.slots r.pageId r.slotId = some d) : v.get k = .value (recordValue d) := by
  have hfilter : (v.index k).filter Rid.isValid = some r := by
    rw [hk, Option.filter_some, if_pos hr]
  simp only [Visible.get, hfilter, hd]

theorem slot_of_isValid (hr : r.isValid = true) : r.slotId ≠ invalidSlotId := by
  rw [Rid.isValid, Bool.and_eq_true, decide_eq_true_eq, decide_eq_true_eq] at hr
  exact hr.2

theorem IndexMap.insert_remove_eq_set (m : IndexMap) (k : Int) (q : Rid) :
    (m.remove k).insert k q = m.set k q := by
  have hnone : m.remove k k = none := if_pos rfl
  rw [IndexMap.insert_of_none hnone]
  funext j
  simp only [IndexMap.set]
  split
  · rfl
  · rename_i hj
    exact if_neg hj

/-- **A record moves** to a free slot, with its key, and becomes `e`. -/
theorem Pointed.move (h : Pointed v) (hk : v.index k = some r) (hr : r.slotId ≠ invalidSlotId)
    (hq : q.isValid = true) (hqr : q ≠ r) (hfree : v.slots q.pageId q.slotId = none) (e : Bytes) :
    Pointed (((v.setSlot r none).setSlot q (some e)).setKey k q) ∧
      (((v.setSlot r none).setSlot q (some e)).setKey k q).get k = .value (recordValue e) ∧
      ∀ j, j ≠ k → (((v.setSlot r none).setSlot q (some e)).setKey k q).get j = v.get j := by
  obtain ⟨hdrop, hdropSame⟩ := h.drop hk hr
  have hfree' : v.slots.set r.pageId r.slotId none q.pageId q.slotId = none :=
    (Contents.set_of_ne v.slots hqr none).trans hfree
  obtain ⟨hstore, hstoreSame⟩ := hdrop.store (slot_of_isValid hq) hfree' e
  have hread : ((v.slots.set r.pageId r.slotId none).set q.pageId q.slotId (some e)) q.pageId q.slotId
      = some e := Contents.set_self _ _ _ _
  have hlive : ((v.slots.set r.pageId r.slotId none).set q.pageId q.slotId (some e)) q.pageId q.slotId
      ≠ none := by
    rw [hread]
    exact Option.some_ne_none e
  have hnone : ∀ j, v.index.remove k j ≠ some q := hdrop.free (slot_of_isValid hq) hfree'
  obtain ⟨hadd, haddSame⟩ := hstore.add (.inr ⟨hlive, hnone⟩) k
  rw [IndexMap.insert_remove_eq_set] at hadd haddSame
  refine ⟨hadd, Visible.get_eq (if_pos rfl) hq hread, fun j hj => ?_⟩
  exact (((hdropSame j hj).trans (hstoreSame j)).trans (haddSame j (.inl hj))).get

/-- A record is overwritten. -/
theorem Pointed.overwrite (h : Pointed v) (r : Rid) (e : Bytes) : Pointed (v.setSlot r (some e)) := by
  refine ⟨fun j q hj => (h.live j q hj).imp_right fun hlive => ?_, h.unshared⟩
  show v.slots.set r.pageId r.slotId (some e) q.pageId q.slotId ≠ none
  rw [Contents.set_rid]
  split
  · exact Option.some_ne_none e
  · exact hlive

-- ---------------------------------------------------------------------------
-- The invariant of a transaction
-- ---------------------------------------------------------------------------

/-- Taking back the changes `cs` from `v` gives what answers like `v₀`. -/
structure Reverses (v : Visible) (cs : List Change) (v₀ : Visible) : Prop where
  pointed : Pointed v
  back : Pointed (v.undoAll cs)
  answers : ∀ k, (v.undoAll cs).get k = v₀.get k
  valid : ∀ k r, (v.undoAll cs).index k = some r → r.isValid = true
  placed : ∀ k r, v.index k = some r → insertedBy cs k = true → writtenBy cs r = true

theorem Reverses.refl (h : Pointed v) (hv : ∀ k r, v.index k = some r → r.isValid = true) :
    Reverses v [] v :=
  ⟨h, h, fun _ => rfl, hv, fun _ _ _ hc => absurd hc Bool.false_ne_true⟩

/-- A change whose undo takes back exactly what has been done. -/
theorem Reverses.exact {v' : Visible} {c : Change} (h : Reverses v cs v₀) (hp : Pointed v')
    (hundo : c.undo v' = v)
    (hplaced : ∀ k r, v'.index k = some r → insertedBy (cs ++ [c]) k = true →
      writtenBy (cs ++ [c]) r = true) : Reverses v' (cs ++ [c]) v₀ := by
  refine ⟨hp, ?_, ?_, ?_, hplaced⟩
  · rw [undoAll_append, hundo]
    exact h.back
  · rw [undoAll_append, hundo]
    exact h.answers
  · rw [undoAll_append, hundo]
    exact h.valid

/-- A record in a free slot, of which the log does not tell. -/
theorem Reverses.stray (h : Reverses v cs v₀) (hq : q.slotId ≠ invalidSlotId)
    (hfree : v.slots q.pageId q.slotId = none) (d : Bytes) : Reverses (v.setSlot q (some d)) cs v₀ := by
  obtain ⟨hp, -⟩ := h.pointed.store hq hfree d
  cases hw : writtenBy cs q with
  | true =>
    refine ⟨hp, ?_, ?_, ?_, h.placed⟩
    · rw [undoAll_setSlot_of_written hw]
      exact h.back
    · rw [undoAll_setSlot_of_written hw]
      exact h.answers
    · rw [undoAll_setSlot_of_written hw]
      exact h.valid
  | false =>
    have hfree' : (v.undoAll cs).slots q.pageId q.slotId = none :=
      (undoAll_slots_of_not_written hw).trans hfree
    obtain ⟨hp', hsame⟩ := h.back.store hq hfree' d
    refine ⟨hp, ?_, fun j => ?_, ?_, h.placed⟩
    · rw [undoAll_setSlot_of_not_written hw]
      exact hp'
    · rw [undoAll_setSlot_of_not_written hw]
      exact (hsame j).get.trans (h.answers j)
    · rw [undoAll_setSlot_of_not_written hw]
      exact h.valid

/-- A record comes in under a new key. -/
theorem Reverses.put (h : Reverses v cs v₀) (hk : v.index k = none) (hq : q.slotId ≠ invalidSlotId)
    (hfree : v.slots q.pageId q.slotId = none) (d : Bytes) :
    Reverses (v.add q d k) (cs ++ [⟨q, [], d, k⟩]) v₀ := by
  obtain ⟨hp, -⟩ := h.pointed.store hq hfree d
  have hlive : (v.slots.set q.pageId q.slotId (some d)) q.pageId q.slotId ≠ none := by
    rw [Contents.set_self]
    exact Option.some_ne_none d
  obtain ⟨hp', -⟩ := hp.add (.inr ⟨hlive, h.pointed.free hq hfree⟩) k
  refine h.exact hp' (Visible.undo_add hfree hk d) fun j r hj hins => ?_
  rw [writtenBy_append]
  rw [insertedBy_append] at hins
  rcases IndexMap.eq_some_of_insert hj with rfl | hj'
  · exact .inr rfl
  · rcases hins with hins | ⟨-, rfl⟩
    · exact .inl (h.placed j r hj' hins)
    · rw [hk] at hj'
      cases hj'

/-- A record goes, with its key. -/
theorem Reverses.del (h : Reverses v cs v₀) (hk : v.index k = some r) (hr : r.slotId ≠ invalidSlotId)
    (hd : v.slots r.pageId r.slotId = some d) (hne : d ≠ []) :
    Reverses (v.drop r k) (cs ++ [⟨r, d, [], k⟩]) v₀ := by
  refine h.exact (h.pointed.drop hk hr).1 (Visible.undo_drop hd hne hk) fun j q hj hins => ?_
  rw [writtenBy_append]
  rw [insertedBy_append] at hins
  rcases hins with hins | ⟨hold, -⟩
  · exact .inl (h.placed j q (IndexMap.eq_some_of_remove hj) hins)
  · exact absurd hold hne

/-- A record is overwritten in place. -/
theorem Reverses.overwrite (h : Reverses v cs v₀) (hd : v.slots r.pageId r.slotId = some d)
    (hne : d ≠ []) (hnew : new ≠ []) (key : Int) :
    Reverses (v.setSlot r (some new)) (cs ++ [⟨r, d, new, key⟩]) v₀ := by
  refine h.exact (h.pointed.overwrite r new) ?_ fun j q hj hins => ?_
  · simp only [Change.undo, Visible.undo, Visible.setSlot, if_neg hne, if_neg hnew, Contents.set_set,
      image_of_ne hne, Contents.set_eq hd]
  · rw [writtenBy_append]
    rw [insertedBy_append] at hins
    rcases hins with hins | ⟨hold, -⟩
    · exact .inl (h.placed j q hj hins)
    · exact absurd hold hne

/-- Once a move is undone, the record is in its new place as it was in the old one. -/
theorem undo_move (hne : d ≠ []) (hnew : new ≠ []) (key : Int) :
    Change.undo ⟨q, d, new, key⟩ (((v.setSlot r none).setSlot q (some new)).setKey k q)
      = ((v.setSlot r none).setSlot q (some d)).setKey k q := by
  simp only [Change.undo, Visible.undo, Visible.setSlot, Visible.setKey, if_neg hne, if_neg hnew,
    Contents.set_set, image_of_ne hne]

/-- **A record moves**, and the log tells the new place only. That is harmless if the key is one
that the transaction has inserted, or if the other changes write neither of the places. -/
theorem Reverses.move (h : Reverses v cs v₀) (hk : v.index k = some r) (hr : r.isValid = true)
    (hd : v.slots r.pageId r.slotId = some d) (hq : q.isValid = true) (hqr : q ≠ r)
    (hfree : v.slots q.pageId q.slotId = none) (hne : d ≠ []) (hnew : new ≠ [])
    (hok : insertedBy cs k = true ∨ writtenBy cs r = false ∧ writtenBy cs q = false) (key : Int) :
    Reverses (((v.setSlot r none).setSlot q (some new)).setKey k q) (cs ++ [⟨q, d, new, key⟩]) v₀ := by
  obtain ⟨hp, -⟩ := h.pointed.move hk (slot_of_isValid hr) hq hqr hfree new
  have hkept : ((v.setSlot r none).setSlot q (some d)).index k = some r := hk
  have hback : Pointed ((((v.setSlot r none).setSlot q (some d)).setKey k q).undoAll cs) ∧
      (∀ j, ((((v.setSlot r none).setSlot q (some d)).setKey k q).undoAll cs).get j = v₀.get j) ∧
      ∀ j x, ((((v.setSlot r none).setSlot q (some d)).setKey k q).undoAll cs).index j = some x →
        x.isValid = true := by
    cases hins : insertedBy cs k with
    | true =>
      -- the key is taken out in the end, and its record as well
      have hr' := h.placed k r hk hins
      rw [undoAll_setKey_of_inserted hins hkept hr hq]
      cases hw : writtenBy cs q with
      | true =>
        rw [undoAll_setSlot_of_written hw, undoAll_setSlot_of_written hr']
        exact ⟨h.back, h.answers, h.valid⟩
      | false =>
        rw [undoAll_setSlot_of_not_written hw, undoAll_setSlot_of_written hr']
        have hfree' := (undoAll_slots_of_not_written (v := v) hw).trans hfree
        obtain ⟨hp', hsame⟩ := h.back.store (slot_of_isValid hq) hfree' d
        exact ⟨hp', fun j => (hsame j).get.trans (h.answers j), h.valid⟩
    | false =>
      -- the record has been where it was since the transaction began
      rw [hins] at hok
      obtain ⟨hwr, hwq⟩ := hok.resolve_left Bool.false_ne_true
      obtain ⟨-, hset⟩ := undoAll_setKey_of_kept hins hkept hr hq
      rw [hset, undoAll_setSlot_of_not_written hwq, undoAll_setSlot_of_not_written hwr]
      obtain ⟨hk', -⟩ := undoAll_setKey_of_kept hins hk hr hq
      have hd' := (undoAll_slots_of_not_written (v := v) hwr).trans hd
      have hfree' := (undoAll_slots_of_not_written (v := v) hwq).trans hfree
      obtain ⟨hp', hself, hothers⟩ := h.back.move hk' (slot_of_isValid hr) hq hqr hfree' d
      refine ⟨hp', fun j => ?_, fun j x hx => ?_⟩
      · by_cases hj : j = k
        · rw [hj, hself, ← h.answers k, Visible.get_eq hk' hr hd']
        · exact (hothers j hj).trans (h.answers j)
      · by_cases hj : j = k
        · have hqx : some q = some x := (if_pos hj).symm.trans hx
          exact Option.some.inj hqx ▸ hq
        · exact h.valid j x ((if_neg hj).symm.trans hx)
  refine ⟨hp, ?_, ?_, ?_, fun j x hj hins => ?_⟩
  · rw [undoAll_append, undo_move hne hnew]
    exact hback.1
  · rw [undoAll_append, undo_move hne hnew]
    exact hback.2.1
  · rw [undoAll_append, undo_move hne hnew]
    exact hback.2.2
  · rw [writtenBy_append]
    rw [insertedBy_append] at hins
    by_cases hjk : j = k
    · subst hjk
      have hx : q = x := Option.some.inj ((if_pos rfl).symm.trans hj)
      exact .inr hx
    · rcases hins with hins | ⟨hold, -⟩
      · exact .inl (h.placed j x ((if_neg hjk).symm.trans hj) hins)
      · exact absurd hold hne

end Visible

namespace Shell

-- ---------------------------------------------------------------------------
-- The commands of a transaction
-- ---------------------------------------------------------------------------

section Conditions

variable {P : Type} [PageOps P]

/-- The RID that `store_value` gives to a record once the one at `rid` is deleted. -/
def movesTo (s : Shell P) (rid : Rid) (record : Bytes) : Rid :=
  (Shell.storeValue { s with
    db := s.db.setPage rid.pageId (deleteRecord (s.db.heap rid.pageId) rid.slotId 0).1 } record).2

/-- The record stays where it is, or it moves and `t` has inserted its key, or it moves between
two slots that `t` has logged nothing about. -/
def moveUndoable (s : Shell P) (t : Nat) (key : Int) (rid newRid : Rid) : Bool :=
  newRid == rid || newRid.isValid && (insertedBy (changesOf t s.db.lm.log) key ||
    !(writtenBy (changesOf t s.db.lm.log) rid || writtenBy (changesOf t s.db.lm.log) newRid))

/-- The record at `rid` is not empty. -/
def hasContent (s : Shell P) (rid : Rid) : Bool := s.db.read rid.pageId rid.slotId != some []

/-- The data commands that `abort` can take back. -/
def undoable (s : Shell P) : Command → Bool
  | .put _ value _ => valueFits value
  | .update key value _ => valueFits value && (s.search key).all fun rid => s.hasContent rid &&
      s.activeTxn.all fun t =>
        s.moveUndoable t key.toInt rid (s.movesTo rid (makeRecord key value))
  | .del key => (s.search key).all s.hasContent
  | _ => false

end Conditions

variable {P : Type} [SizedPageOps P] {s s' : Shell P} {t : Nat} {v₀ : Visible} {key : Int64}
  {value : Bytes} {grow : Nat}

/-- Transaction `t` is open, and taking back what it has logged gives what answers like `v₀`. -/
structure Reversible (s : Shell P) (t : Nat) (v₀ : Visible) : Prop where
  linked : Linked s
  active : s.activeTxn = some t
  reverses : Reverses s.db.visible (changesOf t s.db.lm.log) v₀

theorem Reversible.working (h : Reversible s t v₀) : Working s t := ⟨h.linked, h.linked.opened t h.active⟩

omit [SizedPageOps P] in
theorem autoBegin_open (ht : s.activeTxn = some t) : s.autoBegin = (s, t, false) := by
  rw [autoBegin, ht]

/-- A stored record that fits a page is in a free slot. -/
theorem Placed.fits {record : Bytes} {rid : Rid} (h : Placed s s' record rid)
    (hfit : record.length ≤ maxRecordLen) : rid.slotId ≠ invalidSlotId ∧
      s.db.read rid.pageId rid.slotId = none ∧
      s'.db.read = Contents.set s.db.read rid.pageId rid.slotId (some record) := by
  rcases h.outcome with ⟨-, -, hlong⟩ | ⟨hslot, -, hfree, hread⟩
  · exact absurd hfit (Nat.not_le.mpr hlong)
  · rw [keptBytes_of_le hfit] at hread
    exact ⟨hslot, hfree, hread⟩

theorem Reversible.put (h : Reversible s t v₀) (hv : s.IndexValid) (hfit : valueFits value = true) :
    ∃ s', s.put key value grow = some s' ∧ Reversible s' t v₀ := by
  have hlen := @valueFits_iff key value |>.mp hfit
  obtain ⟨s', hs', hlinked⟩ := h.linked.put key value grow
  suffices hrev : s'.activeTxn = some t ∧
      Reverses s'.db.visible (changesOf t s'.db.lm.log) v₀ from ⟨s', hs', hlinked, hrev.1, hrev.2⟩
  have hbegin := autoBegin_open h.active
  obtain ⟨s₁, rid, s₂, hstore, hpl, hlog, -, hactive₂, hvis₂, hchanges⟩ :=
    h.working.insert key (makeRecord key value) grow true
  obtain ⟨hslot, hfree, hread⟩ := hpl.fits hlen
  simp only [Shell.put, hbegin, hstore] at hs'
  split at hs'
  · -- refused: the record stays in its slot
    obtain rfl := Option.some.inj hs'
    refine ⟨hpl.rest.activeTxn.trans h.active, ?_⟩
    have hvis : s₁.db.visible = s.db.visible.setSlot rid (some (makeRecord key value)) := by
      simp only [Database.visible, Visible.setSlot, hpl.index, hread]
    rw [hvis, hpl.rest.lm]
    exact h.reverses.stray hslot hfree _
  · rename_i hkey
    have hnone : s.db.index key.toInt = none := by
      rw [search_congr hpl.index] at hkey
      exact hv.index_of_search (by simpa using hkey)
    simp only [hlog, autoCommit, Option.bind_eq_bind, Option.bind_some, Bool.false_eq_true, if_false] at hs'
    obtain rfl := Option.some.inj hs'
    refine ⟨hactive₂.trans h.active, ?_⟩
    have hvis : s₂.db.visible = s.db.visible.add rid (makeRecord key value) key.toInt := by
      rw [hvis₂, hread]
      rfl
    show Reverses s₂.db.visible (changesOf t s₂.db.lm.log) v₀
    rw [hvis, hchanges]
    exact h.reverses.put hnone hslot hfree _

omit [SizedPageOps P] in
theorem read_ne_nil [PageOps P] {rid : Rid} {d : Bytes} (h : s.hasContent rid = true)
    (hd : s.db.read rid.pageId rid.slotId = some d) : d ≠ [] := by
  rintro rfl
  rw [hasContent, hd] at h
  exact absurd h (by decide)

/-- A key that `search` finds has a record. -/
theorem Reversible.search (h : Reversible s t v₀) {rid : Rid} (hs : s.search key = some rid) :
    rid.isValid = true ∧ s.db.visible.index key.toInt = some rid ∧
      ∃ d, s.db.read rid.pageId rid.slotId = some d := by
  rw [Shell.search, Option.filter_eq_some_iff] at hs
  refine ⟨hs.2, hs.1, ?_⟩
  have hlive := (h.reverses.pointed.live _ _ hs.1).resolve_left (slot_of_isValid hs.2)
  exact Option.ne_none_iff_exists'.mp hlive

theorem Reversible.del (h : Reversible s t v₀) (hok : s.undoable (.del key) = true) :
    ∃ s', s.del key = some s' ∧ Reversible s' t v₀ := by
  rw [Shell.del]
  cases hsearch : s.search key with
  | none => exact ⟨s, rfl, h⟩
  | some rid =>
    rw [undoable, hsearch, Option.all_some] at hok
    obtain ⟨hvalid, hkey, d, hd⟩ := h.search hsearch
    have hne := read_ne_nil hok hd
    have hbegin := autoBegin_open h.active
    have hdel := h.working.delete rid (s.db.index.remove key.toInt) fun _ _ =>
      IndexMap.eq_some_of_remove
    generalize hs₁ : ({ s with db :=
      { s.db.setPage rid.pageId (deleteRecord (s.db.heap rid.pageId) rid.slotId 0).1 with
        index := s.db.index.remove key.toInt } } : Shell P) = s₁ at hdel
    have hpage : rid.pageId < s₁.nextPageId := by
      rw [← hs₁]
      exact h.linked.pages _ _ hkey
    have hvis₁ : s₁.db.visible = s.db.visible.drop rid key.toInt := by
      rw [← hs₁]
      simp only [Database.visible, Visible.drop]
      congr 1
      exact (h.linked.base.delete rid).2
    obtain ⟨s₂, hlog, hwork₂, hvis₂, hrest₂, hchanges⟩ := hdel.logWrite hpage d [] key.toInt true
    refine ⟨s₂, ?_, hwork₂.toLinked, ?_, ?_⟩
    · simp only [hbegin, hs₁, hd, Option.getD_some, hlog, autoCommit, Option.bind_eq_bind,
        Option.bind_some, Bool.false_eq_true, if_false]
    · rw [hrest₂, ← hs₁]
      exact h.active
    · have hlm : s₁.db.lm = s.db.lm := by rw [← hs₁]; rfl
      rw [hvis₂, hvis₁, hchanges, hlm]
      exact h.reverses.del hkey (slot_of_isValid hvalid) hd hne

theorem Reversible.update (h : Reversible s t v₀) (hok : s.undoable (.update key value grow) = true) :
    ∃ s', s.update key value grow = some s' ∧ Reversible s' t v₀ := by
  rw [Shell.update]
  cases hsearch : s.search key with
  | none => exact ⟨s, rfl, h⟩
  | some rid =>
    simp only [undoable, hsearch, h.active, Option.all_some, Bool.and_eq_true] at hok
    obtain ⟨hfit, hcontent, hmove⟩ := hok
    obtain ⟨hvalid, hkey, d, hd⟩ := h.search hsearch
    have hne := read_ne_nil hcontent hd
    have hnew := makeRecord_ne_nil key value
    obtain ⟨s₁, newRid, hstore, hpl, hwrite⟩ := h.working.replace key rid (makeRecord key value) grow
    obtain ⟨s₂, hlog, hwork₂, hactive₂, hvis₂, hchanges⟩ := hwrite d
    obtain ⟨hslot, hfree, hread⟩ := hpl.fits (valueFits_iff.mp hfit)
    have hdeleted := (h.linked.base.delete rid).2
    have hmovesTo : s.movesTo rid (makeRecord key value) = newRid := by rw [movesTo, hstore]
    rw [hmovesTo] at hmove
    refine ⟨s₂, ?_, hwork₂.toLinked, hactive₂.trans h.active, ?_⟩
    · simp only [autoBegin_open h.active, hd, Option.getD_some, hstore, hlog, autoCommit,
        Option.bind_eq_bind, Option.bind_some, Bool.false_eq_true, if_false]
    · rw [hvis₂, hchanges]
      have hslots : s₁.db.read = (Contents.set s.db.read rid.pageId rid.slotId none).set newRid.pageId
          newRid.slotId (some (makeRecord key value)) := by
        rw [hread]
        exact congrArg (Contents.set · newRid.pageId newRid.slotId _) hdeleted
      by_cases hstay : newRid = rid
      · -- in place
        subst hstay
        rw [if_pos rfl, hslots, Contents.set_set]
        exact h.reverses.overwrite hd hne hnew 0
      · simp only [moveUndoable, Bool.or_eq_true, beq_iff_eq, Bool.and_eq_true, Bool.not_eq_true',
          Bool.or_eq_false_iff] at hmove
        obtain ⟨hvalid', hok⟩ := hmove.resolve_left hstay
        have hfree' : s.db.visible.slots newRid.pageId newRid.slotId = none := by
          have hnone : (s.db.setPage rid.pageId
              (deleteRecord (s.db.heap rid.pageId) rid.slotId 0).1).read newRid.pageId newRid.slotId
              = none := hfree
          rw [hdeleted] at hnone
          exact (Contents.set_of_ne s.db.read hstay none).symm.trans hnone
        rw [if_neg hstay, hslots, IndexMap.insert_remove_eq_set]
        exact h.reverses.move hkey hvalid hd hvalid' hstay hfree' hne hnew hok 0

/-- **Each of these commands** can be taken back together with those before it. -/
theorem Reversible.step (h : Reversible s t v₀) (hv : s.IndexValid) {c : Command}
    (hok : s.undoable c = true) :
    ∃ s', s.step c = some s' ∧ Reversible s' t v₀ := by
  cases c with
  | put key value grow => exact h.put hv hok
  | update key value grow => exact h.update hok
  | del key => exact h.del hok
  | begin => cases hok
  | commit => cases hok
  | abort grow => cases hok
  | fill n grow => cases hok
  | bench n grow => cases hok

theorem Reversible.of_steps (h : Reversible s t v₀)
    (hrun : Steps Shell.step (fun s c => s.undoable c = true ∧ s.IndexValid) s s') :
    Reversible s' t v₀ := by
  refine hrun.invariant (I := fun s => Reversible s t v₀) (fun s₁ c s₂ h ⟨hok, hv⟩ hs => ?_) h
  obtain ⟨s₃, hs₃, hrev⟩ := h.step hv hok
  rw [hs] at hs₃
  rw [Option.some.inj hs₃]
  exact hrev

/-- A transaction that has just begun. -/
theorem Reversible.begin (h : Linked s) (hnone : s.activeTxn = none) (hp : Pointed s.db.visible)
    (hv : s.IndexValid) : Reversible s.begin s.db.nextTxnId s.db.visible := by
  refine ⟨h.beginCmd, ?_, ?_⟩
  · rw [Shell.begin, hnone]
  · have hbegin : s.begin.db = s.db.begin := by rw [Shell.begin, hnone]
    rw [hbegin, h.begin.2]
    exact .refl hp hv

/-- What the condition on the state at `begin` asks for, every command but `abort` keeps. -/
theorem Linked.pointed_step (h : Linked s) (hp : Pointed s.db.visible) {c : Command}
    (hc : keepsTxn c = true) (hs : s.step c = some s') : Pointed s'.db.visible := by
  have hready : Ready s := ⟨h.base, hp, fun t ht => by
    obtain ⟨prev, hl, -⟩ := (h.opened t ht).chain
    exact ⟨(h.opened t ht).id, prev, hl⟩⟩
  exact (hready.of_step hc hs).pointed

end Shell

namespace Shell

end Shell

end PersistX
