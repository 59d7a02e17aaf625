import PersistX.Shell.AllOrNothing

/-!
# PersistX — undoing a transaction's changes

`changesOf t log` is what transaction `t` has logged as changed, in order, and
`Visible.undoAll` takes it back, last change first. A slot that none of the
changes is about stays as it is, a slot that one of them is about ends as the first
of them found it (`undoAll_setSlot_of_not_written`, `undoAll_setSlot_of_written`).
A key that is there stays where it leads, unless the transaction has inserted it
(`undoAll_setKey_of_kept`, `undoAll_setKey_of_inserted`).

These two say what becomes of a change that the log does not tell: the stray record
of a refused `put`, and the old place of a record that `update` has moved.
-/

namespace PersistX

-- ---------------------------------------------------------------------------
-- Changes
-- ---------------------------------------------------------------------------

/-- What an UPDATE record says. -/
structure Change where
  rid : Rid
  old : Bytes
  new : Bytes
  key : Int
  deriving DecidableEq

/-- The change that a record of transaction `t` logs. -/
def Record.changeOf (t : Nat) (r : Record) : Option Change :=
  if r.txnId = t then
    match r.body with
    | .update p slot old new key => some ⟨⟨p, slot⟩, old, new, key⟩
    | _ => none
  else none

/-- All that transaction `t` has logged as changed. -/
def changesOf (t : Nat) (log : List Record) : List Change := log.filterMap (Record.changeOf t)

/-- Take one change back. -/
def Change.undo (c : Change) (v : Visible) : Visible :=
  v.undo c.rid.pageId c.rid.slotId c.old c.new c.key

/-- Take changes back, the last one first. -/
def Visible.undoAll (v : Visible) (cs : List Change) : Visible := cs.foldr Change.undo v

/-- One of the changes is about this slot. -/
def writtenBy (cs : List Change) (rid : Rid) : Bool := cs.any (·.rid == rid)

/-- One of the changes inserts this key. -/
def insertedBy (cs : List Change) (k : Int) : Bool := cs.any fun c => c.old == [] && c.key == k

/-- Other contents in one slot. -/
def Visible.setSlot (v : Visible) (rid : Rid) (d : Option Bytes) : Visible :=
  ⟨v.slots.set rid.pageId rid.slotId d, v.index⟩

/-- Another RID for a key. -/
def IndexMap.set (m : IndexMap) (k : Int) (rid : Rid) : IndexMap :=
  fun j => if j = k then some rid else m j

/-- The same in what a client sees. -/
def Visible.setKey (v : Visible) (k : Int) (rid : Rid) : Visible := ⟨v.slots, v.index.set k rid⟩

variable {v w : Visible} {cs : List Change} {c : Change} {rid r : Rid} {k : Int} {d : Option Bytes}

theorem writtenBy_cons : writtenBy (c :: cs) rid = true ↔ c.rid = rid ∨ writtenBy cs rid = true := by
  simp [writtenBy]

theorem writtenBy_append : writtenBy (cs ++ [c]) rid = true ↔ writtenBy cs rid = true ∨ c.rid = rid := by
  simp [writtenBy]

theorem insertedBy_cons :
    insertedBy (c :: cs) k = true ↔ (c.old = [] ∧ c.key = k) ∨ insertedBy cs k = true := by
  simp [insertedBy]

theorem insertedBy_append :
    insertedBy (cs ++ [c]) k = true ↔ insertedBy cs k = true ∨ (c.old = [] ∧ c.key = k) := by
  simp [insertedBy]

@[simp] theorem undoAll_nil : v.undoAll [] = v := rfl

theorem undoAll_cons : v.undoAll (c :: cs) = c.undo (v.undoAll cs) := rfl

theorem undoAll_append : v.undoAll (cs ++ [c]) = (c.undo v).undoAll cs := by
  simp [Visible.undoAll]

-- ---------------------------------------------------------------------------
-- Slots that the log does not tell about
-- ---------------------------------------------------------------------------

theorem Contents.set_rid (c : Contents) (r : Rid) (d : Option Bytes) (q : Rid) :
    c.set r.pageId r.slotId d q.pageId q.slotId = if q = r then d else c q.pageId q.slotId := by
  split
  · rename_i h
    rw [h, Contents.set_self]
  · rename_i h
    exact Contents.set_of_ne c h d

theorem Change.undo_setSlot_self : c.undo (v.setSlot c.rid d) = c.undo v := by
  simp only [Change.undo, Visible.undo, Visible.setSlot, Contents.set_set]

theorem Change.undo_setSlot_of_ne (h : c.rid ≠ rid) :
    c.undo (v.setSlot rid d) = (c.undo v).setSlot rid d := by
  simp only [Change.undo, Visible.undo, Visible.setSlot]
  rw [Contents.set_comm v.slots h]

theorem Change.undo_slots_of_ne (h : c.rid ≠ rid) :
    (c.undo v).slots rid.pageId rid.slotId = v.slots rid.pageId rid.slotId :=
  Contents.set_of_ne v.slots (Ne.symm h) _

/-- A slot that no change is about stays as it is. -/
theorem undoAll_slots_of_not_written (h : writtenBy cs rid = false) :
    (v.undoAll cs).slots rid.pageId rid.slotId = v.slots rid.pageId rid.slotId := by
  induction cs with
  | nil => rfl
  | cons c cs ih =>
    rw [← Bool.not_eq_true, writtenBy_cons, not_or, Bool.not_eq_true] at h
    rw [undoAll_cons, Change.undo_slots_of_ne h.1, ih h.2]

theorem undoAll_setSlot_of_not_written (h : writtenBy cs rid = false) :
    (v.setSlot rid d).undoAll cs = (v.undoAll cs).setSlot rid d := by
  induction cs with
  | nil => rfl
  | cons c cs ih =>
    rw [← Bool.not_eq_true, writtenBy_cons, not_or, Bool.not_eq_true] at h
    rw [undoAll_cons, ih h.2, Change.undo_setSlot_of_ne h.1, undoAll_cons]

/-- The first change of a slot puts back what it has found there. -/
theorem undoAll_setSlot_of_written (h : writtenBy cs rid = true) :
    (v.setSlot rid d).undoAll cs = v.undoAll cs := by
  induction cs with
  | nil => cases h
  | cons c cs ih =>
    rw [undoAll_cons, undoAll_cons]
    cases hcs : writtenBy cs rid with
    | true => rw [ih hcs]
    | false =>
      have hc : c.rid = rid := by
        rw [writtenBy_cons, hcs] at h
        exact h.resolve_right Bool.false_ne_true
      rw [undoAll_setSlot_of_not_written hcs, ← hc, Change.undo_setSlot_self]

-- ---------------------------------------------------------------------------
-- Keys that lead elsewhere than the log tells
-- ---------------------------------------------------------------------------

theorem IndexMap.remove_set_self (m : IndexMap) : (m.set k rid).remove k = m.remove k := by
  funext j
  by_cases hj : j = k
  · simp [IndexMap.remove, hj]
  · simp [IndexMap.remove, IndexMap.set, hj]

theorem IndexMap.remove_set_of_ne (m : IndexMap) {k' : Int} (h : k' ≠ k) :
    (m.set k rid).remove k' = (m.remove k').set k rid := by
  funext j
  by_cases hj : j = k
  · simp [IndexMap.remove, IndexMap.set, hj, Ne.symm h]
  · simp [IndexMap.remove, IndexMap.set, hj]

/-- An insert is refused or is about another key. -/
theorem IndexMap.insert_set {m : IndexMap} (hk : m k = some r) (hr : r.isValid = true)
    (hrid : rid.isValid = true) (k' : Int) (q : Rid) :
    (m.set k rid).insert k' q = (m.insert k' q).set k rid := by
  by_cases hne : k' = k
  · subst hne
    have hself : m.set k' rid k' = some rid := if_pos rfl
    rw [IndexMap.insert_of_valid hself hrid, IndexMap.insert_of_valid hk hr]
  · have hother : m.set k rid k' = m k' := if_neg hne
    rw [IndexMap.insert, IndexMap.insert, hother]
    split
    · rfl
    · funext j
      by_cases hj : j = k
      · simp [IndexMap.set, hj, Ne.symm hne]
      · simp [IndexMap.set, hj]

theorem IndexMap.insert_kept {m : IndexMap} (hk : m k = some r) (hr : r.isValid = true) (k' : Int)
    (q : Rid) : m.insert k' q k = some r := by
  rw [IndexMap.insert]
  split
  · exact hk
  · rename_i hfree
    have hne : k ≠ k' := by
      rintro rfl
      rw [hk, Option.any_some] at hfree
      exact hfree hr
    exact (if_neg hne).trans hk

theorem IndexMap.remove_of_ne (m : IndexMap) {k' : Int} (h : k ≠ k') : m.remove k' k = m k := if_neg h

theorem IndexMap.eq_some_of_remove {m : IndexMap} {k' : Int} (h : m.remove k' k = some r) :
    m k = some r := by
  rw [IndexMap.remove] at h
  split at h
  · cases h
  · exact h

theorem IndexMap.eq_some_of_insert {m : IndexMap} {k' : Int} (h : m.insert k' rid k = some r) :
    r = rid ∨ m k = some r := by
  by_cases hk' : (m k').any Rid.isValid = true
  · rw [IndexMap.insert, if_pos hk'] at h
    exact .inr h
  · have happ : m.insert k' rid k = if k = k' then some rid else m k := by
      rw [IndexMap.insert, if_neg hk']
    rw [happ] at h
    split at h
    · exact .inl (Option.some.inj h).symm
    · exact .inr h

/-- Undoing the insert of the key itself takes it out, wherever it leads. -/
theorem Change.undo_setKey_of_inserted (h : c.old = [] ∧ c.key = k) :
    c.undo (v.setKey k rid) = c.undo v := by
  simp only [Change.undo, Visible.undo, Visible.setKey, if_pos h.1, h.2, IndexMap.remove_set_self]

/-- Undoing any other change leaves a key that is there alone. -/
theorem Change.undo_setKey_of_kept (h : ¬(c.old = [] ∧ c.key = k)) (hk : v.index k = some r)
    (hr : r.isValid = true) (hrid : rid.isValid = true) :
    (c.undo v).index k = some r ∧ c.undo (v.setKey k rid) = (c.undo v).setKey k rid := by
  simp only [Change.undo, Visible.undo, Visible.setKey]
  by_cases hold : c.old = []
  · have hne : c.key ≠ k := fun hc => h ⟨hold, hc⟩
    rw [if_pos hold, if_pos hold, IndexMap.remove_set_of_ne _ hne]
    exact ⟨(IndexMap.remove_of_ne _ hne.symm).trans hk, rfl⟩
  · rw [if_neg hold, if_neg hold]
    by_cases hnew : c.new = []
    · rw [if_pos hnew, if_pos hnew, IndexMap.insert_set hk hr hrid]
      exact ⟨IndexMap.insert_kept hk hr _ _, rfl⟩
    · rw [if_neg hnew, if_neg hnew]
      exact ⟨hk, rfl⟩

/-- **A key that is there and not inserted by the changes** is still there once they are undone. -/
theorem undoAll_setKey_of_kept (h : insertedBy cs k = false) (hk : v.index k = some r)
    (hr : r.isValid = true) (hrid : rid.isValid = true) :
    (v.undoAll cs).index k = some r ∧ (v.setKey k rid).undoAll cs = (v.undoAll cs).setKey k rid := by
  induction cs with
  | nil => exact ⟨hk, rfl⟩
  | cons c cs ih =>
    rw [← Bool.not_eq_true, insertedBy_cons, not_or, Bool.not_eq_true] at h
    obtain ⟨hindex, hset⟩ := ih h.2
    obtain ⟨hindex', hset'⟩ := Change.undo_setKey_of_kept h.1 hindex hr hrid
    rw [undoAll_cons, undoAll_cons, hset]
    exact ⟨hindex', hset'⟩

/-- **A key that the changes insert** leads nowhere once they are undone. -/
theorem undoAll_setKey_of_inserted (h : insertedBy cs k = true) (hk : v.index k = some r)
    (hr : r.isValid = true) (hrid : rid.isValid = true) :
    (v.setKey k rid).undoAll cs = v.undoAll cs := by
  induction cs with
  | nil => cases h
  | cons c cs ih =>
    rw [undoAll_cons, undoAll_cons]
    cases hcs : insertedBy cs k with
    | true => rw [ih hcs]
    | false =>
      have hc : c.old = [] ∧ c.key = k := by
        rw [insertedBy_cons, hcs] at h
        exact h.resolve_right Bool.false_ne_true
      obtain ⟨-, hset⟩ := undoAll_setKey_of_kept hcs hk hr hrid
      rw [hset, Change.undo_setKey_of_inserted hc]

-- ---------------------------------------------------------------------------
-- Pages that the changes are about
-- ---------------------------------------------------------------------------

/-- Pages from `n` on hold nothing, if they held nothing and no change is about them. -/
theorem undoAll_fresh {n : Nat} (hcs : ∀ c ∈ cs, c.rid.pageId < n)
    (hv : ∀ p slot, n ≤ p → v.slots p slot = none) {p slot : Nat} (hp : n ≤ p) :
    (v.undoAll cs).slots p slot = none := by
  have hnot : writtenBy cs ⟨p, slot⟩ = false := by
    rw [writtenBy, List.any_eq_false]
    intro c hc heq
    rw [beq_iff_eq] at heq
    have hlt := hcs c hc
    rw [heq] at hlt
    exact Nat.lt_irrefl _ (Nat.lt_of_lt_of_le hlt hp)
  exact (undoAll_slots_of_not_written hnot).trans (hv p slot hp)

/-- The index leads to pages below `n`, if it did and the changes are about such pages. -/
theorem undoAll_pages {n : Nat} (hcs : ∀ c ∈ cs, c.rid.pageId < n)
    (hv : ∀ k r, v.index k = some r → r.pageId < n) :
    ∀ k r, (v.undoAll cs).index k = some r → r.pageId < n := by
  induction cs with
  | nil => exact hv
  | cons c cs ih =>
    intro k r hk
    have ih' := ih fun c hc => hcs c (List.mem_cons_of_mem _ hc)
    have hc := hcs c List.mem_cons_self
    rw [undoAll_cons] at hk
    simp only [Change.undo, Visible.undo] at hk
    split at hk
    · exact ih' k r (IndexMap.eq_some_of_remove hk)
    · split at hk
      · rcases IndexMap.eq_some_of_insert hk with rfl | hk
        · exact hc
        · exact ih' k r hk
      · exact ih' k r hk

-- ---------------------------------------------------------------------------
-- Undo chains
-- ---------------------------------------------------------------------------

/-- Transaction `u` has added to the log, and no other. -/
def GrewBy (u : Nat) (log log' : List Record) : Prop := ∃ l, log' = log ++ l ∧ ∀ r ∈ l, r.txnId = u

section Chains

variable {t u l : Nat} {log log' log'' : List Record}

theorem GrewBy.refl (u : Nat) (log : List Record) : GrewBy u log log :=
  ⟨[], (List.append_nil log).symm, fun _ h => absurd h List.not_mem_nil⟩

theorem GrewBy.trans (h : GrewBy u log log') (h' : GrewBy u log' log'') : GrewBy u log log'' := by
  obtain ⟨l, rfl, hl⟩ := h
  obtain ⟨l', rfl, hl'⟩ := h'
  refine ⟨l ++ l', List.append_assoc .., fun r hr => ?_⟩
  rcases List.mem_append.mp hr with hr | hr
  · exact hl r hr
  · exact hl' r hr

theorem GrewBy.append (lm : LogManager) (u : Nat) (pr : Option Nat) (b : RecordBody) :
    GrewBy u lm.log (lm.append u pr b).1.log := by
  rw [LogManager.append_log]
  exact ⟨_, rfl, fun r hr => by rw [List.mem_singleton.mp hr]⟩

theorem GrewBy.isPrefix (h : GrewBy u log log') : log <+: log' := by
  obtain ⟨l, rfl, -⟩ := h
  exact List.prefix_append _ _

theorem GrewBy.mem (h : GrewBy u log log') {r : Record} (hr : r ∈ log') : r ∈ log ∨ r.txnId = u := by
  obtain ⟨l, rfl, hl⟩ := h
  exact (List.mem_append.mp hr).imp_right (hl r)

theorem changesOf_eq_nil (h : ∀ r ∈ log, r.txnId ≠ t) : changesOf t log = [] := by
  rw [changesOf, List.filterMap_eq_nil_iff]
  intro r hr
  rw [Record.changeOf, if_neg (h r hr)]

/-- What another transaction logs is no change of `t`. -/
theorem GrewBy.changesOf (h : GrewBy u log log') (hut : u ≠ t) : changesOf t log' = changesOf t log := by
  obtain ⟨l, rfl, hl⟩ := h
  rw [PersistX.changesOf, List.filterMap_append]
  have hnil := @changesOf_eq_nil t l fun r hr => (hl r hr).symm ▸ hut
  rw [PersistX.changesOf] at hnil
  rw [hnil, List.append_nil]
  rfl

/-- **The undo chain** of transaction `t` from the record at `l` takes back its changes. -/
def Chains (log : List Record) (t l : Nat) : Prop :=
  ∀ v, Rollback log l v (v.undoAll (changesOf t log))

theorem Chains.begin {r : Record} (hr : log[l]? = some r) (hb : r.body = .begin)
    (hnone : changesOf t log = []) : Chains log t l := by
  intro v
  rw [hnone]
  exact .begin hr hb

theorem Chains.other (h : Chains log t l) (hgrew : GrewBy u log log') (hut : u ≠ t) :
    Chains log' t l := by
  intro v
  rw [hgrew.changesOf hut]
  exact (h v).mono hgrew.isPrefix

theorem changesOf_snoc {lsn p slot : Nat} {pr : Option Nat} {old new : Bytes} {key : Int} :
    changesOf t (log ++ [⟨lsn, t, pr, .update p slot old new key⟩])
      = changesOf t log ++ [⟨⟨p, slot⟩, old, new, key⟩] := by
  simp [changesOf, Record.changeOf]

/-- One change more, in front of the chain. -/
theorem Chains.snoc (h : Chains log t l) {lsn p slot : Nat} {old new : Bytes} {key : Int}
    (hlsn : lsn = log.length) :
    Chains (log ++ [⟨lsn, t, some l, .update p slot old new key⟩]) t lsn := by
  intro v
  have hget : (log ++ [⟨lsn, t, some l, .update p slot old new key⟩])[lsn]?
      = some ⟨lsn, t, some l, .update p slot old new key⟩ := by
    rw [hlsn]
    exact List.getElem?_concat_length
  rw [changesOf_snoc, undoAll_append]
  refine .update hget rfl rfl ?_ ((h _).mono (List.prefix_append _ _))
  rw [hlsn]
  exact (h v).lt_length

end Chains

end PersistX
