import PersistX.Pool.Program
import PersistX.Btree.Layout

/-!
# PersistX — the B+ tree index over its buffer manager

The operations of `btree_index.cpp` once more, now with every `fetch_page`,
`new_page` and `unpin_page` they make, as programs over a pool. The loops that
walk down, along the leaves, up and through the levels have a number of rounds.

Each of them is tidy with two frames: the only moments with two pins are a leaf
with its new sibling, and a parent, a new parent or a new root with one of its
children.
-/

namespace PersistX.Btree

open PageOps Pool Pool.Program

/-- Pages that can hold a B+ tree node: the node they hold, and how one is written into
them. Only nodes that fit can be held; `Btree/NodeImage.lean` has the pages of 4096 bytes.
What the bytes of a node spell as a heap page is left open; the page LSN that
`enforce_wal` reads lies in the middle of them. -/
class NodePage (P : Type) extends PageOps P where
  node : P → Option Node
  setNode : P → Node → P
  fits_of_node {x : P} {n : Node} (h : node x = some n) : n.Fits
  node_setNode (x : P) {n : Node} (h : n.Fits) : node (setNode x n) = some n

variable {P : Type} [NodePage P]

-- ---------------------------------------------------------------------------
-- Nodes behind pointers
-- ---------------------------------------------------------------------------

/-- Read the node behind a pointer. -/
def loadNode (ptr : Nat) : Program P Node := load ptr >>= fun x => ofOption (NodePage.node x)

/-- Write the node behind a pointer. -/
def storeNode (ptr : Nat) (node : Node) : Program P Unit :=
  load ptr >>= fun x => store ptr (NodePage.setNode x node)

/-- The leaf in a body. -/
def Body.leaf? : Body → Option Leaf
  | .leaf l => some l
  | .internal _ => none

/-- The internal node in a body. -/
def Body.internal? : Body → Option Internal
  | .leaf _ => none
  | .internal n => some n

/-- The children of a node. -/
def Body.children : Body → List Nat
  | .leaf _ => []
  | .internal n => n.children

namespace Pooled

-- ---------------------------------------------------------------------------
-- The operations
-- ---------------------------------------------------------------------------

/-- `find_leaf`, from page `pid` on. The leaf is not pinned at the end. -/
def findLeaf (key : Int) : Nat → Nat → Program P Nat
  | 0, _ => .fail
  | rounds + 1, pid => do
    let page ← fetch (some pid)
    let node ← loadNode page
    match node.body with
    | .leaf _ => do
      unpin (some pid) false
      return pid
    | .internal n => do
      let child ← ofOption (n.lookupChild key)
      unpin (some pid) false
      findLeaf key rounds child

/-- `search`. -/
def search (root rounds : Nat) (key : Int) : Program P Rid := do
  let pid ← findLeaf key rounds root
  let page ← fetch (some pid)
  let node ← loadNode page
  let leaf ← ofOption node.body.leaf?
  unpin (some pid) false
  return leaf.lookup key

/-- `remove`; the page is dirty only if the key was there. -/
def remove (root rounds : Nat) (key : Int) : Program P Bool := do
  let pid ← findLeaf key rounds root
  let page ← fetch (some pid)
  let node ← loadNode page
  let leaf ← ofOption node.body.leaf?
  match leaf.remove key with
  | some leaf' => do
    storeNode page { node with body := .leaf leaf' }
    unpin (some pid) true
    return true
  | none => do
    unpin (some pid) false
    return false

/-- The loop of `range_scan` over the leaves. -/
def scanLoop (beginKey endKey : Int) : Nat → Option Nat → Program P (List Rid)
  | _, none => pure []
  | 0, some _ => .fail
  | rounds + 1, some pid => do
    let page ← fetch (some pid)
    let node ← loadNode page
    let leaf ← ofOption node.body.leaf?
    let found := BTreeIndex.scanEntries endKey (leaf.entries.drop (leaf.keyIndex beginKey))
    unpin (some pid) false
    if found.2 then return found.1
    else do
      let rest ← scanLoop beginKey endKey rounds leaf.nextLeafId
      return found.1 ++ rest

/-- `range_scan`. -/
def rangeScan (root rounds : Nat) (beginKey endKey : Int) : Program P (List Rid) := do
  let pid ← findLeaf beginKey rounds root
  scanLoop beginKey endKey rounds (some pid)

/-- `split_leaf` on the pinned page `pid`, which it unpins. -/
def splitLeaf (page pid : Nat) : Program P (Int × Nat) := do
  let node ← loadNode page
  let leaf ← ofOption node.body.leaf?
  let mid := leaf.entries.length / 2
  let pushUp ← ofOption leaf.entries[mid]?
  let (newPid, sibling) ← alloc
  storeNode sibling ⟨node.parentId, .leaf ⟨leaf.nextLeafId, leaf.entries.drop mid⟩⟩
  storeNode page { node with body := .leaf ⟨some newPid, leaf.entries.take mid⟩ }
  unpin (some pid) true
  unpin (some newPid) true
  return (pushUp.1, newPid)

/-- Write `parent_id` into a page, if it can be fetched. -/
def setParentId (pid parent : Nat) : Program P Unit :=
  .fetchPage (some pid) fun r => r.elim (pure ()) fun page => do
    let node ← loadNode page
    storeNode page { node with parentId := some parent }
    unpin (some pid) true

/-- Write `parent_id` into a list of pages. -/
def setParentIds : List Nat → Nat → Program P Unit
  | [], _ => pure ()
  | pid :: pids, parent => do
    setParentId pid parent
    setParentIds pids parent

/-- Case 1 of `insert_into_parent`; gives the new root. -/
def newRoot (left : Nat) (key : Int) (right : Nat) : Program P Nat := do
  let (root, page) ← alloc
  storeNode page ⟨none, .internal ⟨[key], [left, right]⟩⟩
  setParentIds [left, right] root
  unpin (some root) true
  return root

/-- Case 3 of `insert_into_parent`, up to the recursive call: the pinned parent is cut,
unpinned, and its right part goes to a new page. -/
def splitParent (page pid : Nat) (big : Internal) : Program P (Int × Nat) := do
  let mid := big.keys.length / 2
  let pushUp ← ofOption big.keys[mid]?
  let node ← loadNode page
  storeNode page { node with body := .internal ⟨big.keys.take mid, big.children.take (mid + 1)⟩ }
  unpin (some pid) true
  let (newPid, sibling) ← alloc
  storeNode sibling ⟨none, .internal ⟨big.keys.drop (mid + 1), big.children.drop (mid + 1)⟩⟩
  setParentIds (big.children.drop (mid + 1)) newPid
  unpin (some newPid) true
  return (pushUp, newPid)

/-- `insert_into_parent`; gives the root at the end. A `parent_id` of
`INVALID_PAGE_ID`, or one whose page does not have `left` as a child, is outside
the model. -/
def insertIntoParent (root : Nat) : Nat → Nat → Int → Nat → Program P Nat
  | 0, _, _, _ => .fail
  | rounds + 1, left, key, right =>
    if left = root then newRoot left key right
    else do
      let leftPage ← fetch (some left)
      let leftNode ← loadNode leftPage
      unpin (some left) false
      let parentPid ← ofOption leftNode.parentId
      let page ← fetch (some parentPid)
      let node ← loadNode page
      let parent ← ofOption node.body.internal?
      if left ∈ parent.children then
        match parent.insertAfter left key right with
        | some parent' => do
          storeNode page { node with body := .internal parent' }
          setParentId right parentPid
          unpin (some parentPid) true
          return root
        | none => do
          let (pushUp, newPid) ← splitParent page parentPid (parent.insertBehind left key right)
          insertIntoParent root rounds parentPid pushUp newPid
      else .fail

/-- Put a key into a leaf that has room; what the leaf says is not looked at. -/
def insertIntoHalf (pid : Nat) (key : Int) (rid : Rid) : Program P Unit := do
  let page ← fetch (some pid)
  let node ← loadNode page
  let leaf ← ofOption node.body.leaf?
  match leaf.insert key rid with
  | some leaf' => do
    storeNode page { node with body := .leaf leaf' }
    unpin (some pid) true
  | none => unpin (some pid) true

/-- `insert`; gives the result and the root at the end. -/
def insert (root rounds : Nat) (key : Int) (rid : Rid) : Program P (Bool × Nat) := do
  let pid ← findLeaf key rounds root
  let page ← fetch (some pid)
  let node ← loadNode page
  let leaf ← ofOption node.body.leaf?
  if (leaf.lookup key).isValid then do
    unpin (some pid) false
    return (false, root)
  else
    match leaf.insert key rid with
    | some leaf' => do
      storeNode page { node with body := .leaf leaf' }
      unpin (some pid) true
      return (true, root)
    | none => do
      let (pushUp, newPid) ← splitLeaf page pid
      insertIntoHalf (if key ≥ pushUp then newPid else pid) key rid
      let root ← insertIntoParent root (rounds + 1) pid pushUp newPid
      return (true, root)

/-- The inner loop of `get_stats` and `get_tree_layout`: `n` pages of the queue. -/
def levelLoop {σ : Type} (visit : σ → Nat → Body → σ) :
    Nat → List Nat → σ → Program P (List Nat × σ)
  | 0, queue, acc => pure (queue, acc)
  | _ + 1, [], acc => pure ([], acc)
  | n + 1, pid :: queue, acc =>
    .fetchPage (some pid) fun r => r.elim (levelLoop visit n queue acc) fun page => do
      let node ← loadNode page
      unpin (some pid) false
      levelLoop visit n (queue ++ node.body.children) (visit acc pid node.body)

/-- The outer loop of `get_stats`. -/
def statsLoop : Nat → List Nat → TreeStats → Program P TreeStats
  | _, [], stats => pure stats
  | 0, _ :: _, _ => .fail
  | rounds + 1, pid :: queue, stats => do
    let level ← levelLoop TreeStats.visit (queue.length + 1) (pid :: queue)
      { stats with height := stats.height + 1 }
    statsLoop rounds level.1 level.2

/-- The outer loop of `get_tree_layout`. -/
def layoutLoop : Nat → List Nat → List (List NodeInfo) → Program P (List (List NodeInfo))
  | _, [], levels => pure levels
  | 0, _ :: _, _ => .fail
  | rounds + 1, pid :: queue, levels => do
    let level ← levelLoop (fun level pid body => level ++ [nodeInfo pid body])
      (queue.length + 1) (pid :: queue) []
    layoutLoop rounds level.1 (levels ++ [level.2])

end Pooled

-- ---------------------------------------------------------------------------
-- Two frames are enough
-- ---------------------------------------------------------------------------

section Pins

variable {α β : Type}

theorem tidy_loadNode {Q : Nat → List Held → β → Prop} {k : Node → Program P β} {n : Nat}
    {held : List Held} {h : Held} (hh : h ∈ held) (hk : ∀ node, Tidy 2 Q (k node) n held) :
    Tidy 2 Q (loadNode h.ptr >>= k) n held :=
  ⟨⟨h, hh, rfl⟩, fun _ => Tidy.ofOption hk⟩

theorem tidy_storeNode {Q : Nat → List Held → β → Prop} {k : Unit → Program P β} {n : Nat}
    {held : List Held} {h : Held} {node : Node} (hh : h ∈ held)
    (hk : Tidy 2 Q (k ()) n ({ h with wrote := true } :: held.erase h)) :
    Tidy 2 Q (storeNode h.ptr node >>= k) n held :=
  ⟨⟨h, hh, rfl⟩, fun _ => ⟨h, hh, rfl, hk⟩⟩

/-- With no frame to spare, the caller has nothing pinned. -/
theorem eq_nil_of_full {held : List Held} (h : held.length + 2 ≤ 2) : held = [] :=
  List.eq_nil_of_length_eq_zero (by omega)

namespace Pooled

/-- Fetch a page and read its node. -/
theorem tidy_fetchNode {Q : Nat → List Held → β → Prop} {k : Nat → Node → Program P β} {n : Nat}
    {held : List Held} {pid : Nat} (hlt : held.length < 2)
    (hk : ∀ node, Tidy 2 Q (k n node) (n + 1) (⟨n, pid, false, false⟩ :: held)) :
    Tidy 2 Q (fetch (some pid) >>= fun page => loadNode page >>= k page) n held :=
  Tidy.fetch hlt (tidy_loadNode (h := ⟨n, pid, false, false⟩) List.mem_cons_self hk)

/-- Write the node of the page that was fetched last and unpin it. -/
theorem tidy_putNode {Q : Nat → List Held → β → Prop} {k : Unit → Program P β} {n ptr pid : Nat}
    {held : List Held} {node : Node} (hk : Tidy 2 Q (k ()) n held) :
    Tidy 2 Q (storeNode ptr node >>= fun _ => unpin (some pid) true >>= k) n
      (⟨ptr, pid, false, false⟩ :: held) := by
  refine tidy_storeNode (h := ⟨ptr, pid, false, false⟩) List.mem_cons_self ?_
  rw [List.erase_cons_head]
  exact Tidy.unpin_dirty (h := ⟨ptr, pid, true, false⟩) hk

theorem findLeaf_balanced (key : Int) : ∀ rounds pid, Balanced 2 2 (findLeaf (P := P) key rounds pid)
  | 0, _, _, _, _ => trivial
  | rounds + 1, pid, n, held, hlen => by
    obtain rfl := eq_nil_of_full hlen
    refine tidy_fetchNode (by simp) fun node => ?_
    cases node.body with
    | leaf l => exact Tidy.unpin_clean rfl
    | internal i =>
      exact Tidy.ofOption fun child => Tidy.unpin_clean (findLeaf_balanced key rounds child _ _ hlen)

theorem search_balanced (root rounds : Nat) (key : Int) : Balanced 2 2 (search (P := P) root rounds key) := by
  refine (findLeaf_balanced key rounds root).bind fun pid n held hlen => ?_
  obtain rfl := eq_nil_of_full hlen
  refine tidy_fetchNode (by simp) fun node => ?_
  exact Tidy.ofOption fun leaf => Tidy.unpin_clean rfl

theorem remove_balanced (root rounds : Nat) (key : Int) : Balanced 2 2 (remove (P := P) root rounds key) := by
  refine (findLeaf_balanced key rounds root).bind fun pid n held hlen => ?_
  obtain rfl := eq_nil_of_full hlen
  refine tidy_fetchNode (by simp) fun node => Tidy.ofOption fun leaf => ?_
  cases leaf.remove key with
  | some leaf' => exact tidy_putNode rfl
  | none => exact Tidy.unpin_clean rfl

theorem scanLoop_balanced (beginKey endKey : Int) :
    ∀ rounds pid, Balanced 2 2 (scanLoop (P := P) beginKey endKey rounds pid)
  | 0, none => Balanced.pure []
  | _ + 1, none => Balanced.pure []
  | 0, some _ => fun _ _ _ => trivial
  | rounds + 1, some pid => by
    intro n held hlen
    obtain rfl := eq_nil_of_full hlen
    refine tidy_fetchNode (by simp) fun node => Tidy.ofOption fun leaf => Tidy.unpin_clean ?_
    split
    · rfl
    · exact (scanLoop_balanced beginKey endKey rounds leaf.nextLeafId).bind
        (fun rest => Balanced.pure _) _ _ hlen

theorem rangeScan_balanced (root rounds : Nat) (beginKey endKey : Int) :
    Balanced 2 2 (rangeScan (P := P) root rounds beginKey endKey) :=
  (findLeaf_balanced beginKey rounds root).bind fun pid => scanLoop_balanced beginKey endKey rounds (some pid)

/-- `split_leaf` holds a second pin for a while, and gives up the one on the leaf. -/
theorem splitLeaf_tidy (n ptr pid : Nat) :
    Tidy 2 (fun _ held' _ => held' = []) (splitLeaf (P := P) ptr pid) n [⟨ptr, pid, false, false⟩] := by
  refine tidy_loadNode (h := ⟨ptr, pid, false, false⟩) List.mem_cons_self fun node => ?_
  refine Tidy.ofOption fun leaf => Tidy.ofOption fun pushUp => Tidy.alloc (by simp) fun newPid => ?_
  refine tidy_storeNode (h := ⟨n, newPid, false, true⟩) List.mem_cons_self ?_
  rw [List.erase_cons_head]
  refine tidy_storeNode (h := ⟨ptr, pid, false, false⟩) (by simp) ?_
  rw [List.erase_cons_tail (by simp), List.erase_cons_head]
  exact Tidy.unpin_dirty (h := ⟨ptr, pid, true, false⟩) (Tidy.unpin_dirty (h := ⟨n, newPid, true, true⟩) rfl)

theorem setParentId_balanced (pid parent : Nat) : Balanced 2 1 (setParentId (P := P) pid parent) := by
  intro n held hlen
  refine ⟨by omega, ?_⟩
  exact tidy_loadNode (h := ⟨n, pid, false, false⟩) List.mem_cons_self fun node => tidy_putNode rfl

theorem setParentIds_balanced (parent : Nat) : ∀ pids, Balanced 2 1 (setParentIds (P := P) pids parent)
  | [] => Balanced.pure ()
  | pid :: pids => (setParentId_balanced pid parent).bind fun _ => setParentIds_balanced parent pids

theorem newRoot_balanced (left : Nat) (key : Int) (right : Nat) :
    Balanced 2 2 (newRoot (P := P) left key right) := by
  intro n held hlen
  obtain rfl := eq_nil_of_full hlen
  refine Tidy.alloc (by simp) fun root => ?_
  refine tidy_storeNode (h := ⟨n, root, false, true⟩) List.mem_cons_self ?_
  rw [List.erase_cons_head]
  refine (setParentIds_balanced root [left, right]).then (by simp) fun n' _ => ?_
  exact Tidy.unpin_dirty (h := ⟨n, root, true, true⟩) rfl

theorem splitParent_tidy (n ptr pid : Nat) (big : Internal) :
    Tidy 2 (fun _ held' _ => held' = []) (splitParent (P := P) ptr pid big) n [⟨ptr, pid, false, false⟩] := by
  refine Tidy.ofOption fun pushUp => ?_
  refine tidy_loadNode (h := ⟨ptr, pid, false, false⟩) List.mem_cons_self fun node => ?_
  refine tidy_storeNode (h := ⟨ptr, pid, false, false⟩) List.mem_cons_self ?_
  rw [List.erase_cons_head]
  refine Tidy.unpin_dirty (h := ⟨ptr, pid, true, false⟩) (Tidy.alloc (by simp) fun newPid => ?_)
  refine tidy_storeNode (h := ⟨n, newPid, false, true⟩) List.mem_cons_self ?_
  rw [List.erase_cons_head]
  refine (setParentIds_balanced newPid _).then (by simp) fun n' _ => ?_
  exact Tidy.unpin_dirty (h := ⟨n, newPid, true, true⟩) rfl

theorem insertIntoParent_balanced (root : Nat) :
    ∀ rounds left key right, Balanced 2 2 (insertIntoParent (P := P) root rounds left key right)
  | 0, _, _, _, _, _, _ => trivial
  | rounds + 1, left, key, right, n, held, hlen => by
    obtain rfl := eq_nil_of_full hlen
    unfold insertIntoParent
    split
    · exact newRoot_balanced left key right n [] hlen
    refine tidy_fetchNode (by simp) fun leftNode => Tidy.unpin_clean (Tidy.ofOption fun parentPid => ?_)
    refine tidy_fetchNode (by simp) fun node => Tidy.ofOption fun parent => ?_
    split
    · split
      · refine tidy_storeNode (h := ⟨n + 1, parentPid, false, false⟩) List.mem_cons_self ?_
        rw [List.erase_cons_head]
        refine (setParentId_balanced right parentPid).then (by simp) fun n' _ => ?_
        exact Tidy.unpin_dirty (h := ⟨n + 1, parentPid, true, false⟩) rfl
      · refine (splitParent_tidy _ _ parentPid _).bind fun n' held' r heq => ?_
        rw [heq]
        exact insertIntoParent_balanced root rounds parentPid r.1 r.2 n' [] hlen
    · trivial

theorem insertIntoHalf_balanced (pid : Nat) (key : Int) (rid : Rid) :
    Balanced 2 2 (insertIntoHalf (P := P) pid key rid) := by
  intro n held hlen
  obtain rfl := eq_nil_of_full hlen
  refine tidy_fetchNode (by simp) fun node => Tidy.ofOption fun leaf => ?_
  cases leaf.insert key rid with
  | some leaf' => exact tidy_putNode rfl
  | none => exact Tidy.unpin_dirty (h := ⟨n, pid, false, false⟩) rfl

theorem insert_balanced (root rounds : Nat) (key : Int) (rid : Rid) :
    Balanced 2 2 (insert (P := P) root rounds key rid) := by
  refine (findLeaf_balanced key rounds root).bind fun pid n held hlen => ?_
  obtain rfl := eq_nil_of_full hlen
  refine tidy_fetchNode (by simp) fun node => Tidy.ofOption fun leaf => ?_
  split
  · exact Tidy.unpin_clean rfl
  cases leaf.insert key rid with
  | some leaf' => exact tidy_putNode rfl
  | none =>
    refine (splitLeaf_tidy _ _ pid).bind fun n' held' r heq => ?_
    rw [heq]
    exact ((insertIntoHalf_balanced _ key rid).bind fun _ =>
      (insertIntoParent_balanced root (rounds + 1) pid r.1 r.2).bind fun root' => Balanced.pure _) n' [] hlen

theorem levelLoop_balanced {σ : Type} (visit : σ → Nat → Body → σ) :
    ∀ m queue acc, Balanced 2 2 (levelLoop (P := P) visit m queue acc)
  | 0, _, _ => Balanced.pure _
  | _ + 1, [], _ => Balanced.pure _
  | m + 1, pid :: queue, acc => by
    intro n held hlen
    obtain rfl := eq_nil_of_full hlen
    refine ⟨by simp, ?_⟩
    refine tidy_loadNode (h := ⟨n, pid, false, false⟩) List.mem_cons_self fun node => Tidy.unpin_clean ?_
    exact levelLoop_balanced visit m _ _ _ _ hlen

theorem statsLoop_balanced : ∀ rounds queue stats, Balanced 2 2 (statsLoop (P := P) rounds queue stats)
  | 0, [], _ => Balanced.pure _
  | _ + 1, [], _ => Balanced.pure _
  | 0, _ :: _, _ => fun _ _ _ => trivial
  | rounds + 1, _ :: _, _ =>
    (levelLoop_balanced _ _ _ _).bind fun level => statsLoop_balanced rounds level.1 level.2

theorem layoutLoop_balanced : ∀ rounds queue levels, Balanced 2 2 (layoutLoop (P := P) rounds queue levels)
  | 0, [], _ => Balanced.pure _
  | _ + 1, [], _ => Balanced.pure _
  | 0, _ :: _, _ => fun _ _ _ => trivial
  | rounds + 1, _ :: _, levels =>
    (levelLoop_balanced _ _ _ _).bind fun level => layoutLoop_balanced rounds level.1 (levels ++ [level.2])

end Pooled

end Pins

/-- The calls of the index. -/
inductive IndexCall where
  | search (key : Int)
  | insert (key : Int) (rid : Rid)
  | remove (key : Int)
  | rangeScan (beginKey endKey : Int)
  | getStats
  | getTreeLayout

/-- What they return. -/
inductive IndexResult where
  | rid (r : Rid)
  | done (b : Bool)
  | rids (rs : List Rid)
  | stats (s : TreeStats)
  | layout (l : List (List NodeInfo))

/-- A call on an index with this root; gives the result and the root at the end. -/
def IndexCall.program (root rounds : Nat) : IndexCall → Program P (IndexResult × Nat)
  | .search key => do
    let r ← Pooled.search root rounds key
    return (.rid r, root)
  | .insert key rid => do
    let r ← Pooled.insert root rounds key rid
    return (.done r.1, r.2)
  | .remove key => do
    let b ← Pooled.remove root rounds key
    return (.done b, root)
  | .rangeScan beginKey endKey => do
    let rs ← Pooled.rangeScan root rounds beginKey endKey
    return (.rids rs, root)
  | .getStats => do
    let s ← Pooled.statsLoop rounds [root] ⟨0, 0, 0, 0⟩
    return (.stats s, root)
  | .getTreeLayout => do
    let l ← Pooled.layoutLoop rounds [root] []
    return (.layout l, root)

/-- **Two frames are enough** for every call on the index. -/
theorem IndexCall.balanced (root rounds : Nat) (call : IndexCall) :
    Balanced 2 2 (call.program (P := P) root rounds) := by
  cases call with
  | search key => exact (Pooled.search_balanced root rounds key).bind fun _ => Balanced.pure _
  | insert key rid => exact (Pooled.insert_balanced root rounds key rid).bind fun _ => Balanced.pure _
  | remove key => exact (Pooled.remove_balanced root rounds key).bind fun _ => Balanced.pure _
  | rangeScan b e => exact (Pooled.rangeScan_balanced root rounds b e).bind fun _ => Balanced.pure _
  | getStats => exact (Pooled.statsLoop_balanced rounds [root] _).bind fun _ => Balanced.pure _
  | getTreeLayout => exact (Pooled.layoutLoop_balanced rounds [root] _).bind fun _ => Balanced.pure _

end PersistX.Btree
