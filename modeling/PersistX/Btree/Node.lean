import PersistX.Common
import Mathlib.Algebra.Group.Int.Defs
import Mathlib.Data.List.Pairwise
import Mathlib.Data.List.TakeWhile

/-!
# PersistX — B+ tree nodes

`BTreeLeafPage` and `BTreeInternalPage` of `btree_page.cpp`, with a node's
arrays as lists (`num_keys` is their length). Both kinds of page have
`parent_id` at the same place in the header, and the code writes it without
looking at the kind; so a node is a `parentId` and a body.

Keys are compared and never computed with: the `int64_t` keys are integers.
`Fits` says which nodes a page has the room for: within capacity, every number
in the width of its field.

`key_index` is the binary search of the source; `keyIndex_cut` says that it
cuts a sorted leaf at the key, and every operation on a leaf is described from
that cut.
-/

namespace PersistX.Btree

/-- `LEAF_MAX_ENTRIES`: header 15 bytes, entry 14 bytes. -/
def leafMaxEntries : Nat := (pageSize - 15) / 14

/-- `INTERNAL_MAX_KEYS`: header 11 bytes, child 4 bytes, key 8 bytes. -/
def internalMaxKeys : Nat := (pageSize - 11 - 4) / 12

theorem leafMaxEntries_eq : leafMaxEntries = 291 := rfl

theorem internalMaxKeys_eq : internalMaxKeys = 340 := rfl

/-- A key and the handle of its record. -/
abbrev Entry := Int × Rid

/-- A leaf page. -/
structure Leaf where
  nextLeafId : Option Nat
  entries : List Entry
  deriving DecidableEq

/-- An internal page: one child more than keys. -/
structure Internal where
  keys : List Int
  children : List Nat
  deriving DecidableEq

/-- What a page holds besides its header's `parent_id`. -/
inductive Body where
  | leaf (l : Leaf)
  | internal (n : Internal)
  deriving DecidableEq

/-- A B+ tree page. -/
structure Node where
  parentId : Option Nat
  body : Body
  deriving DecidableEq

-- ---------------------------------------------------------------------------
-- Leaves
-- ---------------------------------------------------------------------------

namespace Leaf

/-- The loop of `key_index`: `lo` and `hi` enclose the answer. -/
def keyIndexLoop (l : Leaf) (key : Int) : Nat → Nat → Nat → Nat
  | 0, lo, _ => lo
  | fuel + 1, lo, hi =>
    if lo < hi then
      let mid := lo + (hi - lo) / 2
      match l.entries[mid]? with
      | some e =>
        if e.1 < key then l.keyIndexLoop key fuel (mid + 1) hi else l.keyIndexLoop key fuel lo mid
      | none => lo
    else lo

/-- `key_index`: the index of the first key that is not smaller. -/
def keyIndex (l : Leaf) (key : Int) : Nat :=
  l.keyIndexLoop key (l.entries.length + 1) 0 l.entries.length

/-- `lookup`. -/
def lookup (l : Leaf) (key : Int) : Rid :=
  match l.entries[l.keyIndex key]? with
  | some e => if e.1 = key then e.2 else Rid.invalid
  | none => Rid.invalid

/-- `insert`; `none`: the leaf is full. -/
def insert (l : Leaf) (key : Int) (rid : Rid) : Option Leaf :=
  if l.entries.length ≥ leafMaxEntries then none
  else
    let pos := l.keyIndex key
    some { l with entries := l.entries.take pos ++ (key, rid) :: l.entries.drop pos }

/-- `remove`; `none`: the key is not there. -/
def remove (l : Leaf) (key : Int) : Option Leaf :=
  let pos := l.keyIndex key
  match l.entries[pos]? with
  | some e =>
    if e.1 = key then some { l with entries := l.entries.take pos ++ l.entries.drop (pos + 1) }
    else none
  | none => none

end Leaf

/-- Strictly increasing keys. -/
def Sorted (es : List Entry) : Prop := es.Pairwise fun a b => a.1 < b.1

theorem Sorted.getElem_lt {es : List Entry} (h : Sorted es) {i j : Nat} {a b : Entry} (hij : i < j)
    (ha : es[i]? = some a) (hb : es[j]? = some b) : a.1 < b.1 := by
  obtain ⟨hi, rfl⟩ := List.getElem?_eq_some_iff.mp ha
  obtain ⟨hj, rfl⟩ := List.getElem?_eq_some_iff.mp hb
  exact List.pairwise_iff_getElem.mp h i j hi hj hij

/-- Without a key, sorted entries lose one entry. -/
theorem Sorted.filter_ne {x y : List Entry} {key : Int} {rid : Rid}
    (h : Sorted (x ++ (key, rid) :: y)) :
    (x ++ (key, rid) :: y).filter (·.1 ≠ key) = x ++ y := by
  obtain ⟨-, hy, hxy⟩ := List.pairwise_append.mp h
  have hx : x.filter (·.1 ≠ key) = x := List.filter_eq_self.mpr fun e he => by
    have := hxy e he (key, rid) List.mem_cons_self
    simp only [ne_eq, decide_eq_true_eq]
    omega
  have hy' : y.filter (·.1 ≠ key) = y := List.filter_eq_self.mpr fun e he => by
    have := (List.pairwise_cons.mp hy).1 e he
    simp only [ne_eq, decide_eq_true_eq]
    omega
  rw [List.filter_append, List.filter_cons_of_neg (by simp), hx, hy']

/-- `i` cuts the entries at `key`: smaller keys before it, the others from it on. -/
structure CutAt (es : List Entry) (key : Int) (i : Nat) : Prop where
  le : i ≤ es.length
  before : ∀ j e, es[j]? = some e → j < i → e.1 < key
  behind : ∀ j e, es[j]? = some e → i ≤ j → key ≤ e.1

namespace Leaf

variable {l : Leaf}

/-- The binary search keeps smaller keys before `lo` and the others from `hi` on. -/
theorem keyIndexLoop_cutAt (hs : Sorted l.entries) (key : Int) (fuel lo hi : Nat)
    (hlo : lo ≤ hi) (hhi : hi ≤ l.entries.length) (hfuel : hi - lo < fuel)
    (before : ∀ j e, l.entries[j]? = some e → j < lo → e.1 < key)
    (behind : ∀ j e, l.entries[j]? = some e → hi ≤ j → key ≤ e.1) :
    CutAt l.entries key (l.keyIndexLoop key fuel lo hi) := by
  induction fuel generalizing lo hi with
  | zero => omega
  | succ fuel ih =>
    unfold keyIndexLoop
    by_cases hlt : lo < hi
    · have hmid : lo + (hi - lo) / 2 < l.entries.length := by omega
      obtain ⟨e, he⟩ : ∃ e, l.entries[lo + (hi - lo) / 2]? = some e :=
        ⟨_, List.getElem?_eq_getElem hmid⟩
      simp only [if_pos hlt, he]
      by_cases hkey : e.1 < key
      · rw [if_pos hkey]
        refine ih _ _ (by omega) hhi (by omega) (fun j x hx hj => ?_) behind
        rcases Nat.lt_or_eq_of_le (Nat.le_of_lt_succ hj) with hj | rfl
        · exact Int.lt_trans (hs.getElem_lt hj hx he) hkey
        · rw [he] at hx
          cases hx
          exact hkey
      · rw [if_neg hkey]
        refine ih _ _ (by omega) (by omega) (by omega) before (fun j x hx hj => ?_)
        rcases Nat.lt_or_eq_of_le hj with hj | rfl
        · have := hs.getElem_lt hj he hx
          omega
        · rw [he] at hx
          cases hx
          omega
    · rw [if_neg hlt]
      obtain rfl : lo = hi := by omega
      exact ⟨hhi, before, behind⟩

theorem keyIndex_cutAt (hs : Sorted l.entries) (key : Int) :
    CutAt l.entries key (l.keyIndex key) :=
  keyIndexLoop_cutAt hs key _ _ _ (Nat.zero_le _) (Nat.le_refl _) (by omega)
    (fun _ _ _ hj => absurd hj (Nat.not_lt_zero _))
    (fun j e he hj => by
      rw [List.getElem?_eq_none hj] at he
      cases he)

/-- `key_index` cuts a sorted leaf at the key. -/
theorem keyIndex_cut (hs : Sorted l.entries) (key : Int) :
    ∃ a b, l.entries = a ++ b ∧ l.keyIndex key = a.length ∧ (∀ e ∈ a, e.1 < key) ∧
      (∀ e ∈ b, key ≤ e.1) := by
  obtain ⟨hle, hbefore, hbehind⟩ := keyIndex_cutAt hs key
  refine ⟨l.entries.take (l.keyIndex key), l.entries.drop (l.keyIndex key),
    (List.take_append_drop _ _).symm, (List.length_take_of_le hle).symm, fun e he => ?_,
    fun e he => ?_⟩
  · obtain ⟨j, hj, rfl⟩ := List.mem_iff_getElem.mp he
    rw [List.length_take_of_le hle] at hj
    exact hbefore j _ (by rw [List.getElem_take]; exact List.getElem?_eq_getElem _) hj
  · obtain ⟨j, hj, rfl⟩ := List.mem_iff_getElem.mp he
    rw [List.length_drop] at hj
    exact hbehind (l.keyIndex key + j) _
      (by rw [List.getElem_drop]; exact List.getElem?_eq_getElem (by omega)) (Nat.le_add_right _ _)

/-- The cut, when the key is in the leaf. -/
theorem keyIndex_of_mem (hs : Sorted l.entries) {key : Int} {rid : Rid}
    (hm : (key, rid) ∈ l.entries) :
    ∃ a b, l.entries = a ++ (key, rid) :: b ∧ l.keyIndex key = a.length := by
  obtain ⟨a, b, hab, hidx, ha, hb⟩ := keyIndex_cut hs key
  rw [hab] at hm
  rcases List.mem_append.mp hm with hm | hm
  · exact absurd (ha _ hm) (Int.lt_irrefl _)
  · match b, hm with
    | e :: b, hm =>
      rcases List.mem_cons.mp hm with rfl | hm
      · exact ⟨a, b, hab, hidx⟩
      · -- an entry before it would be smaller, but it is not left of the cut
        have hlt : e.1 < key := by
          have hs' := hab ▸ hs
          have hpair := (List.pairwise_append.mp hs').2.1
          exact (List.pairwise_cons.mp hpair).1 _ hm
        exact absurd (hb e List.mem_cons_self) (by omega)

/-- The cut, when the key is not in the leaf. -/
theorem keyIndex_of_not_mem (hs : Sorted l.entries) {key : Int}
    (hm : ∀ rid, (key, rid) ∉ l.entries) :
    ∃ a b, l.entries = a ++ b ∧ l.keyIndex key = a.length ∧ (∀ e ∈ a, e.1 < key) ∧
      (∀ e ∈ b, key < e.1) := by
  obtain ⟨a, b, hab, hidx, ha, hb⟩ := keyIndex_cut hs key
  refine ⟨a, b, hab, hidx, ha, fun e he => ?_⟩
  have hle := hb e he
  have hne : e.1 ≠ key := by
    rintro rfl
    exact hm e.2 (by rw [hab]; exact List.mem_append_right _ he)
  omega

theorem lookup_of_mem (hs : Sorted l.entries) {key : Int} {rid : Rid}
    (hm : (key, rid) ∈ l.entries) : l.lookup key = rid := by
  obtain ⟨a, b, hab, hidx⟩ := keyIndex_of_mem hs hm
  unfold lookup
  rw [hidx, hab]
  simp

theorem lookup_of_not_mem (hs : Sorted l.entries) {key : Int}
    (hm : ∀ rid, (key, rid) ∉ l.entries) : l.lookup key = Rid.invalid := by
  obtain ⟨a, b, hab, hidx, _, hb⟩ := keyIndex_of_not_mem hs hm
  unfold lookup
  rw [hidx, hab]
  match b, hb with
  | [], _ => simp
  | e :: b, hb =>
    have hne : e.1 ≠ key := by
      have := hb e List.mem_cons_self
      omega
    simp [hne]

/-- A key that is not in the leaf goes where the cut is. -/
theorem insert_of_not_mem (hs : Sorted l.entries) {key : Int}
    (hm : ∀ rid, (key, rid) ∉ l.entries) (rid : Rid) (hroom : l.entries.length < leafMaxEntries) :
    ∃ a b, l.entries = a ++ b ∧ l.insert key rid = some { l with entries := a ++ (key, rid) :: b } ∧
      (∀ e ∈ a, e.1 < key) ∧ (∀ e ∈ b, key < e.1) := by
  obtain ⟨a, b, hab, hidx, ha, hb⟩ := keyIndex_of_not_mem hs hm
  refine ⟨a, b, hab, ?_, ha, hb⟩
  unfold insert
  rw [if_neg (by omega), hidx]
  simp only [hab, List.take_left, List.drop_left]

theorem insert_of_full (hfull : leafMaxEntries ≤ l.entries.length) (key : Int) (rid : Rid) :
    l.insert key rid = none := by
  unfold insert
  rw [if_pos hfull]

theorem remove_of_mem (hs : Sorted l.entries) {key : Int} {rid : Rid}
    (hm : (key, rid) ∈ l.entries) :
    ∃ a b, l.entries = a ++ (key, rid) :: b ∧ l.remove key = some { l with entries := a ++ b } := by
  obtain ⟨a, b, hab, hidx⟩ := keyIndex_of_mem hs hm
  refine ⟨a, b, hab, ?_⟩
  unfold remove
  simp only [hidx, hab]
  simp [List.drop_append]

theorem remove_of_not_mem (hs : Sorted l.entries) {key : Int}
    (hm : ∀ rid, (key, rid) ∉ l.entries) : l.remove key = none := by
  obtain ⟨a, b, hab, hidx, _, hb⟩ := keyIndex_of_not_mem hs hm
  unfold remove
  simp only [hidx, hab]
  match b, hb with
  | [], _ => simp
  | e :: b, hb =>
    have hne : e.1 ≠ key := by
      have := hb e List.mem_cons_self
      omega
    simp [hne]

end Leaf

-- ---------------------------------------------------------------------------
-- Internal nodes
-- ---------------------------------------------------------------------------

namespace Internal

/-- The index of the child `lookup_child` picks: the number of leading keys `≤ key`. -/
def childIndex (n : Internal) (key : Int) : Nat := (n.keys.takeWhile (· ≤ key)).length

/-- `lookup_child`. -/
def lookupChild (n : Internal) (key : Int) : Option Nat := n.children[n.childIndex key]?

/-- The arrays with `key` and `right` inserted behind the child `left`; a page
of any size. -/
def insertBehind (n : Internal) (left : Nat) (key : Int) (right : Nat) : Internal :=
  let pos := n.children.idxOf left
  { keys := n.keys.take pos ++ key :: n.keys.drop pos
    children := n.children.take (pos + 1) ++ right :: n.children.drop (pos + 1) }

/-- A page of any size with `key` inserted at `i`, and `child` behind the child at `i`. -/
def insertedAt (n : Internal) (i : Nat) (key : Int) (child : Nat) : Internal where
  keys := n.keys.take i ++ key :: n.keys.drop i
  children := n.children.take (i + 1) ++ child :: n.children.drop (i + 1)

/-- `insert_after`; `none`: the node is full. -/
def insertAfter (n : Internal) (left : Nat) (key : Int) (right : Nat) : Option Internal :=
  if n.keys.length ≥ internalMaxKeys then none else some (n.insertBehind left key right)

/-- The linear scan cuts sorted keys at the key. -/
theorem childIndex_cut {n : Internal} (hs : n.keys.Pairwise (· < ·)) (key : Int) :
    ∃ lk rk, n.keys = lk ++ rk ∧ n.childIndex key = lk.length ∧ (∀ k ∈ lk, k ≤ key) ∧
      (∀ k ∈ rk, key < k) := by
  have hsplit := List.takeWhile_append_dropWhile (p := (· ≤ key)) (l := n.keys)
  refine ⟨_, _, hsplit.symm, rfl, fun k hk => ?_, fun k hk => ?_⟩
  · simpa using List.mem_takeWhile_imp hk
  · -- the first key behind the cut is larger, and the keys increase
    rw [← hsplit] at hs
    have hpair := (List.pairwise_append.mp hs).2.1
    cases hd : n.keys.dropWhile (· ≤ key) with
    | nil =>
      rw [hd] at hk
      cases hk
    | cons x xs =>
      have hx : key < x := by
        have := List.head_dropWhile_not (p := (· ≤ key)) (l := n.keys) (by rw [hd]; simp)
        simp only [hd, List.head_cons] at this
        simpa using this
      rw [hd] at hk hpair
      rcases List.mem_cons.mp hk with rfl | hk
      · exact hx
      · exact Int.lt_trans hx ((List.pairwise_cons.mp hpair).1 k hk)

/-- **Routing past a split.** A node with sorted keys is cut at the key `sep`: a search key goes
to the same child in the half that `sep` sends it to. -/
theorem lookupChild_split {lk rk : List Int} {sep : Int} {children : List Nat}
    (hs : (lk ++ sep :: rk).Pairwise (· ≤ ·)) (key : Int) :
    (if sep ≤ key then (⟨rk, children.drop (lk.length + 1)⟩ : Internal)
      else ⟨lk, children.take (lk.length + 1)⟩).lookupChild key
      = (⟨lk ++ sep :: rk, children⟩ : Internal).lookupChild key := by
  have hlk : ∀ k ∈ lk, k ≤ sep := fun k hk =>
    (List.pairwise_append.mp hs).2.2 k hk sep List.mem_cons_self
  split
  · rename_i hge
    have hpass : ∀ k ∈ lk ++ [sep], decide (k ≤ key) = true := by
      intro k hk
      rw [decide_eq_true_eq]
      rcases List.mem_append.mp hk with hk | hk
      · exact Int.le_trans (hlk k hk) hge
      · rwa [List.mem_singleton.mp hk]
    have hidx : childIndex ⟨lk ++ sep :: rk, children⟩ key
        = lk.length + 1 + childIndex ⟨rk, children.drop (lk.length + 1)⟩ key := by
      have hsplit : lk ++ sep :: rk = (lk ++ [sep]) ++ rk := by simp
      simp only [childIndex, hsplit, List.takeWhile_append_of_pos hpass, List.length_append,
        List.length_singleton]
    simp only [lookupChild, hidx, List.getElem?_drop]
  · rename_i hlt
    have hidx : childIndex ⟨lk ++ sep :: rk, children⟩ key
        = childIndex ⟨lk, children.take (lk.length + 1)⟩ key := by
      have hstop : (sep :: rk).takeWhile (· ≤ key) = [] := by
        rw [List.takeWhile_cons, if_neg (by simpa using hlt)]
      simp only [childIndex, List.takeWhile_append, hstop]
      split
      · rename_i hall
        rw [List.append_nil, hall]
      · rfl
    have hle : childIndex ⟨lk, children.take (lk.length + 1)⟩ key < lk.length + 1 :=
      Nat.lt_succ_of_le (List.takeWhile_sublist _).length_le
    simp only [lookupChild, hidx]
    rw [List.getElem?_take_of_lt hle]

theorem insertBehind_append {lk rk : List Int} {lc rc : List Nat} {left : Nat}
    (hlen : lc.length = lk.length) (hl : left ∉ lc) (key : Int) (right : Nat) :
    insertBehind ⟨lk ++ rk, lc ++ left :: rc⟩ left key right
      = ⟨lk ++ key :: rk, lc ++ left :: right :: rc⟩ := by
  have hpos : (lc ++ left :: rc).idxOf left = lk.length := by
    rw [List.idxOf_append_of_notMem hl, List.idxOf_cons_self, hlen]
    rfl
  have hsplit : lc ++ left :: rc = (lc ++ [left]) ++ rc := by simp
  have hlen' : lk.length + 1 = (lc ++ [left]).length := by simp [hlen]
  unfold insertBehind
  simp only [hpos]
  rw [List.take_left, List.drop_left, hlen', hsplit, List.take_left, List.drop_left]
  simp

end Internal

-- ---------------------------------------------------------------------------
-- What fits on a page
-- ---------------------------------------------------------------------------

/-- An `int64_t`. -/
def KeyFits (key : Int) : Prop := -2 ^ 63 ≤ key ∧ key < 2 ^ 63

/-- A `page_id_t` and a `slot_id_t`. -/
def RidFits (rid : Rid) : Prop := rid.pageId < 2 ^ 32 ∧ rid.slotId < 2 ^ 16

instance (key : Int) : Decidable (KeyFits key) := inferInstanceAs (Decidable (_ ∧ _))

instance (rid : Rid) : Decidable (RidFits rid) := inferInstanceAs (Decidable (_ ∧ _))

/-- A `page_id_t` that may be missing. -/
def IdFits (id : Option Nat) : Prop := ∀ p, id = some p → p < invalidPageId

/-- The entries are within the capacity of a page. -/
structure Leaf.Fits (l : Leaf) : Prop where
  size : l.entries.length ≤ leafMaxEntries
  next : IdFits l.nextLeafId
  entries : ∀ e ∈ l.entries, KeyFits e.1 ∧ RidFits e.2

/-- Arrays of any length, as they may be before a split. -/
structure Internal.Coded (n : Internal) : Prop where
  children : n.children.length = n.keys.length + 1
  keys : ∀ k ∈ n.keys, KeyFits k
  ids : ∀ c ∈ n.children, c < 2 ^ 32

/-- The keys are within the capacity of a page. -/
structure Internal.Fits (n : Internal) : Prop extends Internal.Coded n where
  size : n.keys.length ≤ internalMaxKeys

/-- A body within capacity. -/
def Body.Fits : Body → Prop
  | .leaf l => l.Fits
  | .internal n => n.Fits

/-- A node within capacity. -/
structure Node.Fits (n : Node) : Prop where
  parent : IdFits n.parentId
  body : n.body.Fits

theorem idFits_none : IdFits none := fun _ h => nomatch h

theorem idFits_some {p : Nat} (h : p < invalidPageId) : IdFits (some p) :=
  fun _ hq => Option.some.inj hq ▸ h

namespace Leaf

variable {l l' : Leaf} {key : Int} {rid : Rid}

/-- A part of the entries, with another next leaf. -/
theorem Fits.part (h : l.Fits) {es : List Entry} (hes : es.Sublist l.entries) {next : Option Nat}
    (hnext : IdFits next) : (⟨next, es⟩ : Leaf).Fits where
  size := Nat.le_trans hes.length_le h.size
  next := hnext
  entries e he := h.entries e (hes.subset he)

theorem Fits.insert (h : l.Fits) (hkey : KeyFits key) (hrid : RidFits rid)
    (hins : l.insert key rid = some l') : l'.Fits := by
  unfold Leaf.insert at hins
  split at hins
  · cases hins
  · rename_i hroom
    obtain rfl := Option.some.inj hins
    refine ⟨?_, h.next, fun e he => ?_⟩
    · simp only [List.length_append, List.length_cons, List.length_take, List.length_drop]
      omega
    · rcases List.mem_append.mp he with he | he
      · exact h.entries e (List.mem_of_mem_take he)
      · rcases List.mem_cons.mp he with rfl | he
        · exact ⟨hkey, hrid⟩
        · exact h.entries e (List.mem_of_mem_drop he)

theorem Fits.remove (h : l.Fits) (hrem : l.remove key = some l') : l'.Fits := by
  unfold Leaf.remove at hrem
  dsimp only at hrem
  split at hrem
  · split at hrem
    · obtain rfl := Option.some.inj hrem
      refine h.part ?_ h.next
      have hdrop := (List.drop_sublist 1 (l.entries.drop (l.keyIndex key)))
      rw [List.drop_drop] at hdrop
      have hsub := (List.Sublist.refl (l.entries.take (l.keyIndex key))).append hdrop
      rwa [List.take_append_drop] at hsub
    · cases hrem
  · cases hrem

end Leaf

namespace Internal

variable {n n' : Internal} {left right mid : Nat} {key : Int}

theorem mem_keys_insertBehind {k : Int} (h : k ∈ (n.insertBehind left key right).keys) :
    k = key ∨ k ∈ n.keys := by
  rcases List.mem_append.mp h with h | h
  · exact Or.inr (List.mem_of_mem_take h)
  · rcases List.mem_cons.mp h with rfl | h
    · exact Or.inl rfl
    · exact Or.inr (List.mem_of_mem_drop h)

theorem mem_children_insertBehind {c : Nat} (h : c ∈ (n.insertBehind left key right).children) :
    c = right ∨ c ∈ n.children := by
  rcases List.mem_append.mp h with h | h
  · exact Or.inr (List.mem_of_mem_take h)
  · rcases List.mem_cons.mp h with rfl | h
    · exact Or.inl rfl
    · exact Or.inr (List.mem_of_mem_drop h)

theorem length_keys_insertBehind :
    (n.insertBehind left key right).keys.length = n.keys.length + 1 := by
  simp only [insertBehind, List.length_append, List.length_cons, List.length_take, List.length_drop]
  omega

/-- The arrays with one entry more. -/
theorem Coded.insertBehind (h : n.Coded) (hkey : KeyFits key) (hright : right < 2 ^ 32) :
    (n.insertBehind left key right).Coded where
  children := by
    rw [length_keys_insertBehind, ← h.children]
    simp only [Internal.insertBehind, List.length_append, List.length_cons, List.length_take,
      List.length_drop]
    omega
  keys k hk := (mem_keys_insertBehind hk).elim (fun heq => heq ▸ hkey) (h.keys k)
  ids c hc := (mem_children_insertBehind hc).elim (fun heq => heq ▸ hright) (h.ids c)

theorem Fits.insertAfter (h : n.Fits) (hkey : KeyFits key) (hright : right < 2 ^ 32)
    (hins : n.insertAfter left key right = some n') : n'.Fits := by
  unfold Internal.insertAfter at hins
  split at hins
  · cases hins
  · rename_i hroom
    obtain rfl := Option.some.inj hins
    refine ⟨h.toCoded.insertBehind hkey hright, ?_⟩
    rw [length_keys_insertBehind]
    omega

/-- The part up to a key. -/
theorem Coded.take (h : n.Coded) (hmid : mid < n.keys.length) (hsize : mid ≤ internalMaxKeys) :
    (⟨n.keys.take mid, n.children.take (mid + 1)⟩ : Internal).Fits where
  children := by
    have hlen := h.children
    simp only [List.length_take]
    omega
  keys k hk := h.keys k (List.mem_of_mem_take hk)
  ids c hc := h.ids c (List.mem_of_mem_take hc)
  size := by
    simp only [List.length_take]
    omega

/-- The part behind a key. -/
theorem Coded.drop (h : n.Coded) (hmid : mid < n.keys.length)
    (hsize : n.keys.length ≤ internalMaxKeys + (mid + 1)) :
    (⟨n.keys.drop (mid + 1), n.children.drop (mid + 1)⟩ : Internal).Fits where
  children := by
    have hlen := h.children
    simp only [List.length_drop]
    omega
  keys k hk := h.keys k (List.mem_of_mem_drop hk)
  ids c hc := h.ids c (List.mem_of_mem_drop hc)
  size := by
    simp only [List.length_drop]
    omega

end Internal

end PersistX.Btree
