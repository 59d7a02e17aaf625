import PersistX.Btree.Node
import Mathlib.Logic.Function.Basic

/-!
# PersistX — the B+ tree index

`BTreeIndex` of `btree_index.cpp` over the pages of its buffer manager: a map
from page ids to nodes that keeps what is written to it (a pool that never has
to evict), and the next id that `new_page` hands out.

An operation returns `none` where the code would assert or follow a page id
that is not a tree node. The loops that walk down, along the leaves and up have
as many rounds as there are allocated pages.
-/

namespace PersistX.Btree

/-- The pages, by id. -/
abbrev Pages := Nat → Option Node

/-- What a page holds besides its `parent_id`. -/
def bodyAt (pages : Pages) (pid : Nat) : Option Body := (pages pid).map (·.body)

/-- A page's `parent_id` (`none`: no such page, or `INVALID_PAGE_ID`). -/
def parentAt (pages : Pages) (pid : Nat) : Option Nat := (pages pid).bind (·.parentId)

/-- Write a page. -/
def setPage (pages : Pages) (pid : Nat) (node : Node) : Pages :=
  Function.update pages pid (some node)

/-- Write a page's body, keeping its `parent_id`. -/
def setBody (pages : Pages) (pid : Nat) (body : Body) : Pages :=
  setPage pages pid ⟨parentAt pages pid, body⟩

/-- Write `parent_id` into the header of a page, if the page can be fetched. -/
def setParentId (pages : Pages) (pid parent : Nat) : Pages :=
  match pages pid with
  | some node => setPage pages pid { node with parentId := some parent }
  | none => pages

/-- Write `parent_id` into a list of pages. -/
def setParentIds (pages : Pages) (pids : List Nat) (parent : Nat) : Pages :=
  pids.foldl (fun pages pid => setParentId pages pid parent) pages

/-- `BTreeIndex`, with the pages it lives in. -/
structure BTreeIndex where
  pages : Pages
  nextPageId : Nat
  rootPageId : Option Nat

namespace BTreeIndex

/-- Read a page as a leaf. -/
def leafAt (idx : BTreeIndex) (pid : Nat) : Option Leaf :=
  match bodyAt idx.pages pid with
  | some (.leaf l) => some l
  | _ => none

/-- Read a page as an internal node. -/
def internalAt (idx : BTreeIndex) (pid : Nat) : Option Internal :=
  match bodyAt idx.pages pid with
  | some (.internal n) => some n
  | _ => none

/-- `create`: one empty leaf, which is the root. -/
def create (idx : BTreeIndex) : BTreeIndex :=
  { pages := setPage idx.pages idx.nextPageId ⟨none, .leaf ⟨none, []⟩⟩
    nextPageId := idx.nextPageId + 1
    rootPageId := some idx.nextPageId }

/-- The loop of `find_leaf`. -/
def findLeafLoop (idx : BTreeIndex) (key : Int) : Nat → Nat → Option Nat
  | 0, _ => none
  | fuel + 1, pid =>
    match bodyAt idx.pages pid with
    | some (.leaf _) => some pid
    | some (.internal n) => (n.lookupChild key).bind (idx.findLeafLoop key fuel)
    | none => none

/-- `find_leaf`, from the root. -/
def findLeaf (idx : BTreeIndex) (key : Int) (root : Nat) : Option Nat :=
  idx.findLeafLoop key idx.nextPageId root

/-- `search`. -/
def search (idx : BTreeIndex) (key : Int) : Option Rid :=
  match idx.rootPageId with
  | none => some Rid.invalid
  | some root => do
    let pid ← idx.findLeaf key root
    let leaf ← idx.leafAt pid
    return leaf.lookup key

/-- `remove`. -/
def remove (idx : BTreeIndex) (key : Int) : Option (BTreeIndex × Bool) :=
  match idx.rootPageId with
  | none => some (idx, false)
  | some root => do
    let pid ← idx.findLeaf key root
    let leaf ← idx.leafAt pid
    match leaf.remove key with
    | some leaf' => return ({ idx with pages := setBody idx.pages pid (.leaf leaf') }, true)
    | none => return (idx, false)

/-- The loop over the entries of one leaf in `range_scan`, from `start_idx` on:
the RIDs up to `end_key`, and whether a larger key was seen. -/
def scanEntries (endKey : Int) : List Entry → List Rid × Bool
  | [] => ([], false)
  | (k, rid) :: es =>
    if k > endKey then ([], true)
    else
      let (rids, done) := scanEntries endKey es
      (rid :: rids, done)

/-- The loop of `range_scan` over the leaves. -/
def scanLoop (idx : BTreeIndex) (beginKey endKey : Int) : Nat → Option Nat → Option (List Rid)
  | _, none => some []
  | 0, some _ => none
  | fuel + 1, some pid => do
    let leaf ← idx.leafAt pid
    let (rids, done) := scanEntries endKey (leaf.entries.drop (leaf.keyIndex beginKey))
    if done then return rids
    else
      let rest ← idx.scanLoop beginKey endKey fuel leaf.nextLeafId
      return rids ++ rest

/-- `range_scan`. -/
def rangeScan (idx : BTreeIndex) (beginKey endKey : Int) : Option (List Rid) :=
  match idx.rootPageId with
  | none => some []
  | some root => do
    let pid ← idx.findLeaf beginKey root
    idx.scanLoop beginKey endKey idx.nextPageId (some pid)

/-- `split_leaf`: the upper half moves to a new leaf behind this one, which gets
the same `parent_id`. Returns the first key of the new leaf and its page id. -/
def splitLeaf (idx : BTreeIndex) (pid : Nat) (leaf : Leaf) : Option (BTreeIndex × Int × Nat) := do
  let mid := leaf.entries.length / 2
  let pushUp ← leaf.entries[mid]?
  let newPid := idx.nextPageId
  let right : Leaf := { nextLeafId := leaf.nextLeafId, entries := leaf.entries.drop mid }
  let left : Leaf := { nextLeafId := some newPid, entries := leaf.entries.take mid }
  let pages := setPage (setBody idx.pages pid (.leaf left)) newPid
    ⟨parentAt idx.pages pid, .leaf right⟩
  return ({ idx with pages, nextPageId := idx.nextPageId + 1 }, pushUp.1, newPid)

/-- Case 1 of `insert_into_parent`: a new root above `left` and `right`. -/
def newRoot (idx : BTreeIndex) (left : Nat) (key : Int) (right : Nat) : BTreeIndex :=
  let root := idx.nextPageId
  let pages := setPage idx.pages root ⟨none, .internal ⟨[key], [left, right]⟩⟩
  { pages := setParentIds pages [left, right] root
    nextPageId := idx.nextPageId + 1
    rootPageId := some root }

/-- Case 3 of `insert_into_parent`: the parent, with the new entry, does not fit
on its page and is cut at its middle key. The right part goes to a new page,
and `parent_id` is set in the children there. Returns the middle key and the
new page id. The `parent_id` of the new page itself stays invalid. -/
def splitParent (idx : BTreeIndex) (parentPid : Nat) (big : Internal) :
    Option (BTreeIndex × Int × Nat) := do
  let mid := big.keys.length / 2
  let pushUp ← big.keys[mid]?
  let newPid := idx.nextPageId
  let left : Internal := ⟨big.keys.take mid, big.children.take (mid + 1)⟩
  let right : Internal := ⟨big.keys.drop (mid + 1), big.children.drop (mid + 1)⟩
  let pages := setPage (setBody idx.pages parentPid (.internal left)) newPid ⟨none, .internal right⟩
  return ({ idx with
      pages := setParentIds pages right.children newPid
      nextPageId := idx.nextPageId + 1 }, pushUp, newPid)

/-- `insert_into_parent`. A `left` that is not among the children of the node its
`parent_id` names is outside the model: the code then leaves stale array entries. -/
def insertIntoParent : Nat → BTreeIndex → Nat → Int → Nat → Option BTreeIndex
  | 0, _, _, _, _ => none
  | fuel + 1, idx, left, key, right =>
    if some left = idx.rootPageId then some (idx.newRoot left key right)
    else do
      let parentPid ← parentAt idx.pages left
      let parent ← idx.internalAt parentPid
      if left ∈ parent.children then
        match parent.insertAfter left key right with
        | some parent' =>
          let pages := setBody idx.pages parentPid (.internal parent')
          return { idx with pages := setParentId pages right parentPid }
        | none =>
          let (idx', pushUp, newPid) ← idx.splitParent parentPid (parent.insertBehind left key right)
          insertIntoParent fuel idx' parentPid pushUp newPid
      else none

/-- The slow path of `insert`: split the leaf, put the key into its half, and
push the separator up. -/
def insertSplit (idx : BTreeIndex) (pid : Nat) (leaf : Leaf) (key : Int) (rid : Rid) :
    Option BTreeIndex := do
  let (idx1, pushUp, newPid) ← idx.splitLeaf pid leaf
  let target := if key ≥ pushUp then newPid else pid
  let half ← idx1.leafAt target
  let half' ← half.insert key rid
  let idx2 : BTreeIndex := { idx1 with pages := setBody idx1.pages target (.leaf half') }
  insertIntoParent idx2.nextPageId idx2 pid pushUp newPid

/-- `insert`. -/
def insert (idx : BTreeIndex) (key : Int) (rid : Rid) : Option (BTreeIndex × Bool) :=
  match idx.rootPageId with
  | none => some (idx, false)
  | some root => do
    let pid ← idx.findLeaf key root
    let leaf ← idx.leafAt pid
    if (leaf.lookup key).isValid then return (idx, false)
    match leaf.insert key rid with
    | some leaf' => return ({ idx with pages := setBody idx.pages pid (.leaf leaf') }, true)
    | none =>
      let idx' ← idx.insertSplit pid leaf key rid
      return (idx', true)

end BTreeIndex

-- ---------------------------------------------------------------------------
-- Reading back what was written
-- ---------------------------------------------------------------------------

variable {pages : Pages} {pid p q : Nat} {body : Body} {node : Node}

theorem bodyAt_setPage : bodyAt (setPage pages p node) q = if q = p then some node.body else bodyAt pages q := by
  unfold bodyAt setPage
  rw [Function.update_apply]
  split <;> rfl

theorem parentAt_setPage :
    parentAt (setPage pages p node) q = if q = p then node.parentId else parentAt pages q := by
  unfold parentAt setPage
  rw [Function.update_apply]
  split <;> rfl

@[simp] theorem bodyAt_setBody :
    bodyAt (setBody pages p body) q = if q = p then some body else bodyAt pages q :=
  bodyAt_setPage

@[simp] theorem parentAt_setBody : parentAt (setBody pages p body) q = parentAt pages q := by
  unfold setBody
  rw [parentAt_setPage]
  split
  · rename_i h
    rw [h]
  · rfl

@[simp] theorem bodyAt_setParentId : bodyAt (setParentId pages p pid) q = bodyAt pages q := by
  unfold setParentId
  split
  · rename_i node h
    rw [bodyAt_setPage]
    split
    · rename_i hq
      rw [hq, bodyAt, h]
      rfl
    · rfl
  · rfl

theorem parentAt_setParentId (h : (bodyAt pages p).isSome) :
    parentAt (setParentId pages p pid) q = if q = p then some pid else parentAt pages q := by
  unfold setParentId
  split
  · rw [parentAt_setPage]
  · rename_i hp
    rw [bodyAt, hp] at h
    cases h

@[simp] theorem bodyAt_setParentIds {pids : List Nat} :
    bodyAt (setParentIds pages pids pid) q = bodyAt pages q := by
  unfold setParentIds
  induction pids generalizing pages with
  | nil => rfl
  | cons p pids ih => rw [List.foldl_cons, ih, bodyAt_setParentId]

theorem parentAt_setParentIds {pids : List Nat} (h : ∀ p ∈ pids, (bodyAt pages p).isSome) :
    parentAt (setParentIds pages pids pid) q = if q ∈ pids then some pid else parentAt pages q := by
  unfold setParentIds
  induction pids generalizing pages with
  | nil => simp
  | cons p pids ih =>
    have hp : (bodyAt pages p).isSome := h p List.mem_cons_self
    rw [List.foldl_cons, ih, parentAt_setParentId hp]
    · by_cases hq : q ∈ pids
      · simp [hq]
      · by_cases hqp : q = p
        · simp [hqp]
        · simp [hq, hqp]
    · intro x hx
      rw [bodyAt_setParentId]
      exact h x (List.mem_cons_of_mem _ hx)

end PersistX.Btree
