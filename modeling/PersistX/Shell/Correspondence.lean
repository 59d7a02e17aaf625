import PersistX.Shell.Operations

/-!
# PersistX — heap and index name the same records

`Corresponds` says that the index has, for every key, exactly the live record
that carries it. `Undoable` is an undo chain each record of which finds what it
has left behind; walking it keeps the correspondence (`Undoable.rollback`). Records
that another transaction adds stay out of its way as long as the chain frees no
slot (`Undoable.add`).
-/

namespace PersistX

-- ---------------------------------------------------------------------------
-- The correspondence
-- ---------------------------------------------------------------------------

/-- The index has for a key exactly the record that carries it; no record is
empty, and there are none from page `n` on. -/
structure Corresponds (n : Nat) (v : Visible) : Prop where
  index : ∀ k r, v.index k = some r ↔
    ∃ data, v.slots r.pageId r.slotId = some data ∧ recordKey data = k
  nonempty : ∀ p slot, v.slots p slot ≠ some []
  fresh : ∀ p slot, n ≤ p → v.slots p slot = none

/-- A record comes in, under its key. -/
def Visible.add (v : Visible) (r : Rid) (data : Bytes) (k : Int) : Visible :=
  ⟨v.slots.set r.pageId r.slotId (some data), v.index.insert k r⟩

/-- A record goes, with its key. -/
def Visible.drop (v : Visible) (r : Rid) (k : Int) : Visible :=
  ⟨v.slots.set r.pageId r.slotId none, v.index.remove k⟩

theorem Contents.set_of_ne (c : Contents) {r q : Rid} (h : q ≠ r) (v : Option Bytes) :
    c.set r.pageId r.slotId v q.pageId q.slotId = c q.pageId q.slotId := by
  refine if_neg fun hc => h ?_
  cases r
  cases q
  exact Rid.mk.injEq .. ▸ hc

theorem Contents.set_comm (c : Contents) {r r' : Rid} (h : r' ≠ r) (a b : Option Bytes) :
    (c.set r.pageId r.slotId a).set r'.pageId r'.slotId b =
      (c.set r'.pageId r'.slotId b).set r.pageId r.slotId a := by
  funext q u
  by_cases hq : (⟨q, u⟩ : Rid) = r'
  · subst hq
    rw [Contents.set_of_ne (q := ⟨q, u⟩) _ h]
    simp
  · rw [Contents.set_of_ne (q := ⟨q, u⟩) _ hq]
    simp only [Contents.set]
    split
    · rfl
    · exact (Contents.set_of_ne (q := ⟨q, u⟩) _ hq _).symm

theorem IndexMap.remove_of_none {m : IndexMap} {k : Int} (h : m k = none) (j : Int) :
    m.remove j k = none := by
  rw [remove]
  split
  · rfl
  · exact h

section

variable {n : Nat} {v : Visible} {r : Rid} {k : Int} {data : Bytes}

theorem Corresponds.mono {m : Nat} (h : Corresponds n v) (hnm : n ≤ m) : Corresponds m v :=
  ⟨h.index, h.nonempty, fun p slot hp => h.fresh p slot (Nat.le_trans hnm hp)⟩

theorem Corresponds.read (h : Corresponds n v) (hk : v.index k = some r) :
    ∃ data, v.slots r.pageId r.slotId = some data ∧ recordKey data = k ∧ data ≠ [] := by
  obtain ⟨data, hread, hkey⟩ := (h.index k r).mp hk
  refine ⟨data, hread, hkey, ?_⟩
  rintro rfl
  exact h.nonempty _ _ hread

theorem Corresponds.add (h : Corresponds n v) (hfree : v.slots r.pageId r.slotId = none)
    (hk : v.index k = none) (hkey : recordKey data = k) (hne : data ≠ []) (hr : r.pageId < n) :
    Corresponds n (v.add r data k) where
  index k' r' := by
    simp only [Visible.add, IndexMap.insert_of_none hk]
    by_cases hr' : r' = r
    · subst hr'
      rw [Contents.set_self]
      -- the slot was free, so no other key had it
      have hother : v.index k' ≠ some r' := by
        intro hc
        obtain ⟨d, hd, -⟩ := (h.index k' r').mp hc
        rw [hfree] at hd
        cases hd
      constructor
      · intro hi
        split at hi
        · rename_i heq
          exact ⟨data, rfl, hkey.trans heq.symm⟩
        · exact absurd hi hother
      · rintro ⟨d, hd, hdk⟩
        rw [← Option.some.inj hd, hkey] at hdk
        rw [if_pos hdk.symm]
    · rw [Contents.set_of_ne _ hr', ← h.index k' r']
      by_cases hk' : k' = k
      · subst hk'
        rw [if_pos rfl, hk]
        exact iff_of_false (fun hc => hr' (Option.some.inj hc).symm) (Option.some_ne_none r').symm
      · rw [if_neg hk']
  nonempty p slot := by
    simp only [Visible.add, Contents.set]
    split
    · exact fun hc => hne (Option.some.inj hc)
    · exact h.nonempty p slot
  fresh p slot hp := by
    have hp' : p ≠ r.pageId := by omega
    simp only [Visible.add, Contents.set, if_neg (fun hc : p = r.pageId ∧ _ => hp' hc.1)]
    exact h.fresh p slot hp

theorem Corresponds.drop (h : Corresponds n v) (hk : v.index k = some r) :
    Corresponds n (v.drop r k) where
  index k' r' := by
    simp only [Visible.drop, IndexMap.remove]
    by_cases hr' : r' = r
    · subst hr'
      rw [Contents.set_self]
      constructor
      · intro hc
        split at hc
        · cases hc
        · rename_i hk'
          obtain ⟨d, hd, hdk⟩ := (h.index k' r').mp hc
          obtain ⟨d', hd', hdk'⟩ := (h.index k r').mp hk
          rw [hd] at hd'
          rw [← Option.some.inj hd'] at hdk'
          exact absurd (hdk.symm.trans hdk') hk'
      · rintro ⟨d, hd, -⟩
        cases hd
    · rw [Contents.set_of_ne _ hr', ← h.index k' r']
      by_cases hk' : k' = k
      · subst hk'
        rw [if_pos rfl, hk]
        exact iff_of_false (Option.some_ne_none r').symm (fun hc => hr' (Option.some.inj hc).symm)
      · rw [if_neg hk']
  nonempty p slot := by
    simp only [Visible.drop, Contents.set]
    split
    · exact (Option.some_ne_none _).symm
    · exact h.nonempty p slot
  fresh p slot hp := by
    simp only [Visible.drop, Contents.set]
    split
    · rfl
    · exact h.fresh p slot hp

-- ---------------------------------------------------------------------------
-- Undoing the two changes, and an overwrite in place
-- ---------------------------------------------------------------------------

theorem Visible.undo_add (hfree : v.slots r.pageId r.slotId = none) (hk : v.index k = none)
    (data : Bytes) : (v.add r data k).undo r.pageId r.slotId [] data k = v := by
  simp only [Visible.undo, Visible.add, image_nil, if_true]
  rw [Contents.set_set, Contents.set_eq hfree, IndexMap.remove_insert hk]

theorem Visible.undo_drop (hread : v.slots r.pageId r.slotId = some data) (hne : data ≠ [])
    (hk : v.index k = some r) : (v.drop r k).undo r.pageId r.slotId data [] k = v := by
  simp only [Visible.undo, Visible.drop, if_neg hne, if_true]
  rw [Contents.set_set, image_of_ne hne, Contents.set_eq hread, IndexMap.insert_remove hk]

theorem Visible.undo_add_drop {new : Bytes} (hread : v.slots r.pageId r.slotId = some data)
    (hne : data ≠ []) (hnew : new ≠ []) (hk : v.index k = some r) (key : Int) :
    ((v.drop r k).add r new k).undo r.pageId r.slotId data new key = v := by
  simp only [Visible.undo, Visible.add, Visible.drop, if_neg hne, if_neg hnew]
  rw [Contents.set_set, Contents.set_set, image_of_ne hne, Contents.set_eq hread,
    IndexMap.insert_remove hk]

/-- Undoing a change of one record commutes with the arrival of another one. -/
theorem Visible.undo_add_comm {p slot : Nat} {old new : Bytes} {key : Int}
    (hslots : (⟨p, slot⟩ : Rid) ≠ r) (hnew : new ≠ []) (hk : v.index k = none)
    (hkeys : old = [] → key ≠ k) :
    (v.add r data k).undo p slot old new key = (v.undo p slot old new key).add r data k := by
  have hset := Contents.set_comm v.slots hslots (some data) (image old)
  simp only [Visible.undo, Visible.add, if_neg hnew] at hset ⊢
  rw [hset]
  congr 1
  by_cases ho : old = []
  · rw [if_pos ho, if_pos ho, IndexMap.insert_of_none hk,
      IndexMap.insert_of_none (IndexMap.remove_of_none hk key)]
    funext j
    simp only [IndexMap.remove]
    split
    · rename_i hj
      rw [if_neg (by rw [hj]; exact hkeys ho)]
    · rfl
  · rw [if_neg ho, if_neg ho]

end

-- ---------------------------------------------------------------------------
-- Undo chains
-- ---------------------------------------------------------------------------

/-- Undoing transaction `t` from the record at `l`, with `v` to start from: each
UPDATE is of `t` and finds in its slot what it has written there and, after an
insert, in the index as well; at BEGIN heap and index correspond. -/
inductive Undoable (t : Nat) (log : List Record) (n : Nat) : Nat → Visible → Prop where
  | begin {l : Nat} {r : Record} {v : Visible} : log[l]? = some r → r.body = .begin →
      Corresponds n v → Undoable t log n l v
  | update {l l' p slot : Nat} {r : Record} {old new : Bytes} {key : Int} {v : Visible} :
      log[l]? = some r → r.txnId = t → r.body = .update p slot old new key →
      r.prevLsn = some l' → l' < l → v.slots p slot = image new →
      (old = [] → v.index key = some ⟨p, slot⟩) →
      Undoable t log n l' (v.undo p slot old new key) → Undoable t log n l v

section

variable {t n l : Nat} {log : List Record} {v : Visible}

theorem Undoable.mono {log' : List Record} {m : Nat} (hpre : log <+: log') (hnm : n ≤ m)
    (h : Undoable t log n l v) : Undoable t log' m l v := by
  induction h with
  | begin hr hb hc => exact .begin (getElem?_of_isPrefix hpre hr) hb (hc.mono hnm)
  | update hr ht hb hp hlt hslot hkey _ ih =>
    exact .update (getElem?_of_isPrefix hpre hr) ht hb hp hlt hslot hkey ih

theorem Undoable.lt_length (h : Undoable t log n l v) : l < log.length := by
  cases h with
  | begin hr => exact (List.getElem?_eq_some_iff.mp hr).1
  | update hr => exact (List.getElem?_eq_some_iff.mp hr).1

/-- Walking the chain ends in a state where heap and index correspond. -/
theorem Undoable.rollback (h : Undoable t log n l v) :
    ∃ w, Rollback log l v w ∧ Corresponds n w := by
  induction h with
  | begin hr hb hc => exact ⟨_, .begin hr hb, hc⟩
  | update hr _ hb hp hlt _ _ _ ih =>
    obtain ⟨w, hroll, hc⟩ := ih
    exact ⟨w, .update hr hb hp hlt hroll, hc⟩

/-- A log record that says that transaction `t` has deleted a record. -/
def Record.isDeleteOf (t : Nat) (r : Record) : Bool :=
  r.txnId == t &&
    match r.body with
    | .update _ _ _ [] _ => true
    | _ => false

/-- **Other records can come in.** As long as `t` has deleted nothing, its UPDATEs
are about slots and keys that are taken, so they leave alone what goes into a
free slot under a free key. -/
theorem Undoable.add (h : Undoable t log n l v) (hdel : ∀ r ∈ log, r.isDeleteOf t = false)
    {rid : Rid} {data : Bytes} {k : Int} (hfree : v.slots rid.pageId rid.slotId = none)
    (hk : v.index k = none) (hdk : recordKey data = k) (hne : data ≠ []) (hrid : rid.pageId < n) :
    Undoable t log n l (v.add rid data k) := by
  induction h with
  | begin hr hb hc => exact .begin hr hb (hc.add hfree hk hdk hne hrid)
  | @update l l' p slot r old new key v hr ht hb hp hlt hslot hkey _ ih =>
    have hnew : new ≠ [] := by
      rintro rfl
      have := hdel r (List.mem_of_getElem? hr)
      rw [Record.isDeleteOf, ht, hb] at this
      simp at this
    rw [image_of_ne hnew] at hslot
    have hslots : (⟨p, slot⟩ : Rid) ≠ rid := by
      rintro rfl
      rw [hfree] at hslot
      cases hslot
    have hkeys : old = [] → key ≠ k := by
      rintro ho rfl
      rw [hkey ho] at hk
      cases hk
    have hslot' : (v.add rid data k).slots p slot = some new :=
      (Contents.set_of_ne v.slots hslots _).trans hslot
    refine .update hr ht hb hp hlt (by rw [hslot', image_of_ne hnew]) ?_ ?_
    · intro ho
      show v.index.insert k rid key = _
      rw [IndexMap.insert_of_none hk]
      exact (if_neg (hkeys ho)).trans (hkey ho)
    · rw [Visible.undo_add_comm hslots hnew hk hkeys]
      refine ih ?_ ?_
      · exact (Contents.set_of_ne (r := ⟨p, slot⟩) v.slots (fun hc => hslots hc.symm) _).trans hfree
      · simp only [Visible.undo, if_neg hnew]
        split
        · exact IndexMap.remove_of_none hk key
        · exact hk

end

end PersistX
