import PersistX.Btree.Tree

/-!
# PersistX — tree statistics and layout

`get_stats` and `get_tree_layout` walk the tree level by level with a queue of page
ids. Given the top nodes of a forest of height `h`, one round of the outer loop
visits them in order and leaves the queue at the top nodes of the subtrees
(`levelLoop_tops`); so the levels come out as `Tree.levels` has them.

Main result: `stats_and_layout_iff` — both walks end, the layout describes the index,
and so do the statistics, but for the number of keys: `get_stats` adds up the keys of
all nodes, separators included, which is right for a single leaf only.
-/

namespace PersistX.Btree

open Separators

-- ---------------------------------------------------------------------------
-- The code
-- ---------------------------------------------------------------------------

/-- `TreeStats`. -/
structure TreeStats where
  height : Nat
  internalPages : Nat
  leafPages : Nat
  totalKeys : Nat
  deriving DecidableEq, Repr

/-- `NodeInfo`. -/
structure NodeInfo where
  pageId : Nat
  isLeaf : Bool
  keys : List Int
  children : List Nat
  deriving DecidableEq, Repr

/-- The inner loop of both functions: the first `n` pages of the queue, each of which
goes to `visit` if it can be fetched; the children of an internal node are queued. -/
def levelLoop {σ : Type} (pages : Pages) (visit : σ → Nat → Body → σ) :
    Nat → List Nat → σ → List Nat × σ
  | 0, queue, acc => (queue, acc)
  | _ + 1, [], acc => ([], acc)
  | n + 1, pid :: queue, acc =>
    match bodyAt pages pid with
    | none => levelLoop pages visit n queue acc
    | some (.leaf l) => levelLoop pages visit n queue (visit acc pid (.leaf l))
    | some (.internal i) =>
      levelLoop pages visit n (queue ++ i.children) (visit acc pid (.internal i))

/-- What `get_stats` does at a node. -/
def TreeStats.visit (stats : TreeStats) (_ : Nat) : Body → TreeStats
  | .leaf l =>
    { stats with
      totalKeys := stats.totalKeys + l.entries.length
      leafPages := stats.leafPages + 1 }
  | .internal n =>
    { stats with
      totalKeys := stats.totalKeys + n.keys.length
      internalPages := stats.internalPages + 1 }

/-- What `get_tree_layout` keeps of a node. -/
def nodeInfo (pid : Nat) : Body → NodeInfo
  | .leaf l => ⟨pid, true, l.entries.map Prod.fst, []⟩
  | .internal n => ⟨pid, false, n.keys, n.children⟩

namespace BTreeIndex

/-- The outer loop of `get_stats`. -/
def statsLoop (idx : BTreeIndex) : Nat → List Nat → TreeStats → Option TreeStats
  | _, [], stats => some stats
  | 0, _ :: _, _ => none
  | fuel + 1, pid :: queue, stats =>
    let (queue, stats) := levelLoop idx.pages TreeStats.visit (queue.length + 1) (pid :: queue)
      { stats with height := stats.height + 1 }
    idx.statsLoop fuel queue stats

/-- `get_stats`. -/
def getStats (idx : BTreeIndex) : Option TreeStats :=
  match idx.rootPageId with
  | none => some ⟨0, 0, 0, 0⟩
  | some root => idx.statsLoop idx.nextPageId [root] ⟨0, 0, 0, 0⟩

/-- The outer loop of `get_tree_layout`. -/
def layoutLoop (idx : BTreeIndex) : Nat → List Nat → List (List NodeInfo) →
    Option (List (List NodeInfo))
  | _, [], levels => some levels
  | 0, _ :: _, _ => none
  | fuel + 1, pid :: queue, levels =>
    let (queue, level) := levelLoop idx.pages (fun level pid body => level ++ [nodeInfo pid body])
      (queue.length + 1) (pid :: queue) []
    idx.layoutLoop fuel queue (levels ++ [level])

/-- `get_tree_layout`. -/
def getTreeLayout (idx : BTreeIndex) : Option (List (List NodeInfo)) :=
  match idx.rootPageId with
  | none => some []
  | some root => idx.layoutLoop idx.nextPageId [root] []

end BTreeIndex

-- ---------------------------------------------------------------------------
-- The levels of a tree
-- ---------------------------------------------------------------------------

namespace Tree

/-- The subtrees below the top node. -/
def subtrees : {h : Nat} → Tree (h + 1) → List (Tree h)
  | _, .node _ _ cs => cs

/-- The top node. -/
def info : {h : Nat} → Tree h → NodeInfo
  | 0, .leaf p es => ⟨p, true, es.map Prod.fst, []⟩
  | _ + 1, .node p ks cs => ⟨p, false, ks, cs.map pid⟩

/-- The nodes of a forest, level by level. -/
def levels : {h : Nat} → List (Tree h) → List (List NodeInfo)
  | 0, ts => [ts.map info]
  | _ + 1, ts => ts.map info :: levels (ts.flatMap subtrees)

/-- The body of the page that holds the top node, if the page is stored. -/
theorem Stored.bodyAt {pages : Pages} : {h : Nat} → {t : Tree h} → t.Stored pages →
    ∃ body, bodyAt pages t.pid = some body ∧ nodeInfo t.pid body = t.info
  | 0, .leaf _ _, ⟨_, hs⟩ => ⟨_, hs, rfl⟩
  | _ + 1, .node _ _ _, hs => ⟨_, hs.1, rfl⟩

@[simp] theorem pageId_info : {h : Nat} → (t : Tree h) → t.info.pageId = t.pid
  | 0, .leaf _ _ => rfl
  | _ + 1, .node _ _ _ => rfl

@[simp] theorem children_info {h : Nat} : (t : Tree (h + 1)) → t.info.children = t.subtrees.map pid
  | .node _ _ _ => rfl

@[simp] theorem children_info_zero : (t : Tree 0) → t.info.children = []
  | .leaf _ _ => rfl

@[simp] theorem isLeaf_info {h : Nat} : (t : Tree (h + 1)) → t.info.isLeaf = false
  | .node _ _ _ => rfl

@[simp] theorem isLeaf_info_zero : (t : Tree 0) → t.info.isLeaf = true
  | .leaf _ _ => rfl

theorem flatMap_children {h : Nat} (ts : List (Tree (h + 1))) :
    ts.flatMap (fun t => t.info.children) = (ts.flatMap subtrees).map pid := by
  simp only [children_info, List.map_flatMap]

theorem flatMap_children_zero (ts : List (Tree 0)) :
    ts.flatMap (fun t => t.info.children) = [] := by
  simp only [children_info_zero, List.flatMap_eq_nil_iff, implies_true]

theorem Stored.subtrees {pages : Pages} {h : Nat} : {ts : List (Tree (h + 1))} →
    (∀ t ∈ ts, t.Stored pages) → ∀ c ∈ ts.flatMap Tree.subtrees, c.Stored pages := by
  intro ts hts c hc
  obtain ⟨t, ht, hc⟩ := List.mem_flatMap.mp hc
  match t, hts t ht, hc with
  | .node _ _ _, ⟨_, hcs⟩, hc => exact hcs c hc

/-- Taking the top nodes off a forest of internal nodes. -/
theorem flatMap_subtrees {α : Type} {h : Nat} (f : {h : Nat} → Tree h → List α)
    (hf : ∀ p ks (cs : List (Tree h)), f (node p ks cs) = cs.flatMap f) :
    (ts : List (Tree (h + 1))) → ts.flatMap f = (ts.flatMap subtrees).flatMap f
  | [] => rfl
  | .node p ks cs :: ts => by
    rw [List.flatMap_cons, List.flatMap_cons, List.flatMap_append, hf, flatMap_subtrees f hf ts]
    rfl

/-- The same when the top nodes count themselves. -/
theorem flatMap_subtrees_perm {α : Type} {h : Nat} (f : {h : Nat} → Tree h → List α)
    (g : Tree (h + 1) → List α)
    (hf : ∀ t : Tree (h + 1), f t = g t ++ t.subtrees.flatMap f) (ts : List (Tree (h + 1))) :
    (ts.flatMap f).Perm (ts.flatMap g ++ (ts.flatMap subtrees).flatMap f) := by
  induction ts with
  | nil => exact .refl _
  | cons t ts ih =>
    simp only [List.flatMap_cons, List.flatMap_append, hf t, List.append_assoc]
    refine .append_left _ ?_
    refine (List.Perm.append_left _ ih).trans ?_
    rw [← List.append_assoc, ← List.append_assoc]
    exact .append_right _ List.perm_append_comm

end Tree

-- ---------------------------------------------------------------------------
-- The walks
-- ---------------------------------------------------------------------------

section

variable {pages : Pages} {σ : Type} {visit : σ → Nat → Body → σ} {f : σ → NodeInfo → σ}

/-- **One round** visits the top nodes of a forest, and queues what is below them. -/
theorem levelLoop_tops (hf : ∀ acc pid body, visit acc pid body = f acc (nodeInfo pid body))
    {h : Nat} : ∀ (ts : List (Tree h)) (queue : List Nat) (acc : σ),
      (∀ t ∈ ts, t.Stored pages) →
      levelLoop pages visit ts.length (ts.map Tree.pid ++ queue) acc =
        (queue ++ ts.flatMap (fun t => t.info.children), (ts.map Tree.info).foldl f acc) := by
  intro ts
  induction ts with
  | nil => exact fun queue acc _ => by simp [levelLoop]
  | cons t ts ih =>
    intro queue acc hts
    obtain ⟨body, hbody, hinfo⟩ := (hts t List.mem_cons_self).bodyAt
    have hrest := fun x hx => hts x (List.mem_cons_of_mem _ hx)
    simp only [List.length_cons, List.map_cons, List.cons_append, levelLoop, hbody,
      List.flatMap_cons, List.foldl_cons]
    cases body with
    | leaf l =>
      have hchildren : t.info.children = [] := by
        rw [← hinfo]
        rfl
      simp only [ih _ _ hrest, hf, hinfo, hchildren, List.nil_append]
    | internal n =>
      have hchildren : t.info.children = n.children := by
        rw [← hinfo]
        rfl
      simp only [List.append_assoc, ih _ _ hrest, hf, hinfo, hchildren]

end

variable {idx : BTreeIndex}

/-- The queue of a round, as the loops give it. -/
theorem levelLoop_round {σ : Type} {visit : σ → Nat → Body → σ} {f : σ → NodeInfo → σ}
    (hf : ∀ acc pid body, visit acc pid body = f acc (nodeInfo pid body)) {h : Nat} {t : Tree h}
    {ts : List (Tree h)} (hts : ∀ x ∈ t :: ts, x.Stored idx.pages) (acc : σ) :
    levelLoop idx.pages visit ((ts.map Tree.pid).length + 1) (t.pid :: ts.map Tree.pid) acc =
      ((t :: ts).flatMap (fun t => t.info.children), ((t :: ts).map Tree.info).foldl f acc) := by
  have h := levelLoop_tops hf (t :: ts) [] acc hts
  rw [List.append_nil, List.nil_append] at h
  rw [← h, List.length_map]
  rfl

/-- What the walks need of a forest: it is stored, and no node is without children. -/
structure Walkable (pages : Pages) {h : Nat} (ts : List (Tree h)) : Prop where
  nonempty : ts ≠ []
  stored : ∀ t ∈ ts, t.Stored pages
  ordered : ∀ t ∈ ts, ∃ lo hi, t.Ordered lo hi

theorem Walkable.subtrees {pages : Pages} {h : Nat} {ts : List (Tree (h + 1))}
    (hw : Walkable pages ts) : Walkable pages (ts.flatMap Tree.subtrees) where
  nonempty := by
    obtain ⟨t, ts', rfl⟩ := List.exists_cons_of_ne_nil hw.nonempty
    obtain ⟨lo, hi, ho⟩ := hw.ordered t List.mem_cons_self
    match t, ho with
    | .node p ks (c :: cs), _ => exact List.cons_ne_nil c _
    | .node p ks [], ⟨_, _, _, hsep⟩ => exact absurd hsep.length (by simp)
  stored := Tree.Stored.subtrees hw.stored
  ordered c hc := by
    obtain ⟨t, ht, hc⟩ := List.mem_flatMap.mp hc
    obtain ⟨lo, hi, ho⟩ := hw.ordered t ht
    match t, ho, hc with
    | .node p ks cs, ⟨_, _, _, hsep⟩, hc => exact hsep.exists_of_mem hc

/-- `get_tree_layout` lists the levels. -/
theorem layoutLoop_levels : ∀ {h : Nat} (ts : List (Tree h)) (fuel : Nat)
    (levels : List (List NodeInfo)), Walkable idx.pages ts → h < fuel →
    idx.layoutLoop fuel (ts.map Tree.pid) levels = some (levels ++ Tree.levels ts) := by
  have hvisit : ∀ (level : List NodeInfo) (infos : List NodeInfo),
      infos.foldl (fun level info => level ++ [info]) level = level ++ infos := by
    intro level infos
    induction infos generalizing level with
    | nil => exact (List.append_nil level).symm
    | cons info infos ih => rw [List.foldl_cons, ih, List.append_assoc, List.singleton_append]
  have hround : ∀ {h : Nat} (t : Tree h) (ts : List (Tree h)) (fuel : Nat)
      (levels : List (List NodeInfo)), Walkable idx.pages (t :: ts) →
      idx.layoutLoop (fuel + 1) ((t :: ts).map Tree.pid) levels =
        idx.layoutLoop fuel ((t :: ts).flatMap fun t => t.info.children)
          (levels ++ [(t :: ts).map Tree.info]) := by
    intro h t ts fuel levels hw
    have h := levelLoop_round (f := fun level info => level ++ [info]) (fun _ _ _ => rfl) hw.stored
      ([] : List NodeInfo)
    rw [hvisit, List.nil_append] at h
    rw [List.map_cons, BTreeIndex.layoutLoop, h]
  intro h
  induction h with
  | zero =>
    intro ts fuel levels hw hfuel
    obtain ⟨fuel, rfl⟩ : ∃ n, fuel = n + 1 := ⟨fuel - 1, by omega⟩
    obtain ⟨t, ts, rfl⟩ := List.exists_cons_of_ne_nil hw.nonempty
    rw [hround t ts fuel levels hw, Tree.flatMap_children_zero]
    cases fuel <;> rfl
  | succ h ih =>
    intro ts fuel levels hw hfuel
    obtain ⟨fuel, rfl⟩ : ∃ n, fuel = n + 1 := ⟨fuel - 1, by omega⟩
    obtain ⟨t, ts, rfl⟩ := List.exists_cons_of_ne_nil hw.nonempty
    rw [hround t ts fuel levels hw, Tree.flatMap_children, ih _ fuel _ hw.subtrees (by omega),
      List.append_assoc]
    rfl

/-- A node is counted. -/
def TreeStats.count (stats : TreeStats) (info : NodeInfo) : TreeStats :=
  if info.isLeaf then
    { stats with
      totalKeys := stats.totalKeys + info.keys.length
      leafPages := stats.leafPages + 1 }
  else
    { stats with
      totalKeys := stats.totalKeys + info.keys.length
      internalPages := stats.internalPages + 1 }

theorem TreeStats.visit_eq (stats : TreeStats) (pid : Nat) (body : Body) :
    stats.visit pid body = stats.count (nodeInfo pid body) := by
  cases body with
  | leaf l => simp [visit, count, nodeInfo]
  | internal n => simp [visit, count, nodeInfo]

namespace Tree

theorem foldl_count_zero : ∀ (ts : List (Tree 0)) (stats : TreeStats),
    (ts.map info).foldl TreeStats.count stats =
      { stats with
        internalPages := stats.internalPages + (ts.flatMap innerIds).length
        leafPages := stats.leafPages + (ts.flatMap leafIds).length
        totalKeys := stats.totalKeys + (ts.flatMap separators).length + (ts.flatMap entries).length }
  | [], _ => rfl
  | .leaf p es :: ts, stats => by
    rw [List.map_cons, List.foldl_cons, foldl_count_zero ts]
    simp only [TreeStats.count, info, if_true, List.flatMap_cons, List.length_append, innerIds,
      leafIds, separators, entries, List.length_map, List.length_nil, List.length_singleton]
    congr 1 <;> omega

theorem foldl_count {h : Nat} : ∀ (ts : List (Tree (h + 1))) (stats : TreeStats),
    (ts.map info).foldl TreeStats.count stats =
      { stats with
        internalPages := stats.internalPages + ts.length
        totalKeys := stats.totalKeys + (ts.flatMap fun t => t.info.keys).length }
  | [], _ => rfl
  | t :: ts, stats => by
    rw [List.map_cons, List.foldl_cons, foldl_count ts]
    simp only [TreeStats.count, isLeaf_info, Bool.false_eq_true, if_false, List.flatMap_cons,
      List.length_append, List.length_cons]
    congr 1 <;> omega

/-- The internal nodes of a forest, without its top nodes. -/
theorem length_innerIds {h : Nat} (ts : List (Tree (h + 1))) :
    (ts.flatMap innerIds).length = ts.length + ((ts.flatMap subtrees).flatMap innerIds).length := by
  have hperm := flatMap_subtrees_perm innerIds (fun t => [t.pid])
    (fun | .node _ _ _ => rfl) ts
  rw [hperm.length_eq, List.length_append, ← List.map_eq_flatMap, List.length_map]

theorem length_separators {h : Nat} (ts : List (Tree (h + 1))) :
    (ts.flatMap separators).length =
      (ts.flatMap fun t => t.info.keys).length + ((ts.flatMap subtrees).flatMap separators).length := by
  have hperm := flatMap_subtrees_perm separators (fun t => t.info.keys)
    (fun | .node _ _ _ => rfl) ts
  rw [hperm.length_eq, List.length_append]

end Tree

/-- `get_stats` counts leaves, internal nodes and all keys. -/
theorem statsLoop_counts : ∀ {h : Nat} (ts : List (Tree h)) (fuel : Nat) (stats : TreeStats),
    Walkable idx.pages ts → h < fuel →
    idx.statsLoop fuel (ts.map Tree.pid) stats = some
      { height := stats.height + h + 1
        internalPages := stats.internalPages + (ts.flatMap Tree.innerIds).length
        leafPages := stats.leafPages + (ts.flatMap Tree.leafIds).length
        totalKeys := stats.totalKeys + (ts.flatMap Tree.separators).length +
          (ts.flatMap Tree.entries).length } := by
  have hround : ∀ {h : Nat} (t : Tree h) (ts : List (Tree h)) (fuel : Nat) (stats : TreeStats),
      Walkable idx.pages (t :: ts) →
      idx.statsLoop (fuel + 1) ((t :: ts).map Tree.pid) stats =
        idx.statsLoop fuel ((t :: ts).flatMap fun t => t.info.children)
          (((t :: ts).map Tree.info).foldl TreeStats.count { stats with height := stats.height + 1 }) := by
    intro h t ts fuel stats hw
    rw [List.map_cons, BTreeIndex.statsLoop, levelLoop_round TreeStats.visit_eq hw.stored]
  intro h
  induction h with
  | zero =>
    intro ts fuel stats hw hfuel
    obtain ⟨fuel, rfl⟩ : ∃ n, fuel = n + 1 := ⟨fuel - 1, by omega⟩
    obtain ⟨t, ts, rfl⟩ := List.exists_cons_of_ne_nil hw.nonempty
    rw [hround t ts fuel stats hw, Tree.flatMap_children_zero, Tree.foldl_count_zero]
    cases fuel <;> rfl
  | succ h ih =>
    intro ts fuel stats hw hfuel
    obtain ⟨fuel, rfl⟩ : ∃ n, fuel = n + 1 := ⟨fuel - 1, by omega⟩
    obtain ⟨t, ts, rfl⟩ := List.exists_cons_of_ne_nil hw.nonempty
    rw [hround t ts fuel stats hw, Tree.flatMap_children, Tree.foldl_count,
      ih _ fuel _ hw.subtrees (by omega), Tree.length_innerIds, Tree.length_separators,
      Tree.flatMap_subtrees Tree.leafIds (fun _ _ _ => rfl),
      Tree.flatMap_subtrees Tree.entries (fun _ _ _ => rfl)]
    simp only [Option.some.injEq, TreeStats.mk.injEq]
    exact ⟨by omega, by omega, trivial, by omega⟩

-- ---------------------------------------------------------------------------
-- What the levels hold
-- ---------------------------------------------------------------------------

namespace Tree

/-- The levels list every node once. -/
theorem levels_perm : ∀ {h : Nat} (ts : List (Tree h)),
    ((levels ts).flatten.map NodeInfo.pageId).Perm (ts.flatMap ids) := by
  intro h
  induction h with
  | zero =>
    intro ts
    refine .of_eq ?_
    simp only [levels, List.flatten_singleton, List.map_map]
    rw [List.map_eq_flatMap]
    exact List.flatMap_congr fun t _ => by
      match t with
      | .leaf _ _ => rfl
  | succ h ih =>
    intro ts
    have hperm := flatMap_subtrees_perm ids (fun t => [t.pid]) (fun | .node _ _ _ => rfl) ts
    refine .trans ?_ hperm.symm
    rw [levels, List.flatten_cons, List.map_append, ← List.map_eq_flatMap, List.map_map]
    refine .append (.of_eq ?_) (ih _)
    exact List.map_congr_left fun t _ => pageId_info t

/-- Each of them as its page has it. -/
theorem levels_nodes {pages : Pages} : ∀ {h : Nat} {ts : List (Tree h)},
    (∀ t ∈ ts, t.Stored pages) → ∀ info ∈ (levels ts).flatten,
      ∃ body, PersistX.Btree.bodyAt pages info.pageId = some body ∧ nodeInfo info.pageId body = info := by
  have htop : ∀ {h : Nat} {ts : List (Tree h)}, (∀ t ∈ ts, t.Stored pages) →
      ∀ info ∈ ts.map Tree.info, ∃ body, PersistX.Btree.bodyAt pages info.pageId = some body ∧
        nodeInfo info.pageId body = info := by
    intro h ts hts info hinfo
    obtain ⟨t, ht, rfl⟩ := List.mem_map.mp hinfo
    rw [pageId_info]
    exact (hts t ht).bodyAt
  intro h
  induction h with
  | zero =>
    intro ts hts info hinfo
    rw [levels, List.flatten_singleton] at hinfo
    exact htop hts info hinfo
  | succ h ih =>
    intro ts hts info hinfo
    rw [levels, List.flatten_cons, List.mem_append] at hinfo
    rcases hinfo with hinfo | hinfo
    · exact htop hts info hinfo
    · exact ih (Stored.subtrees hts) info hinfo

/-- The last level is the leaves, left to right. -/
theorem levels_last : ∀ {h : Nat} (ts : List (Tree h)), ∃ last,
    (levels ts).getLast? = some last ∧ last.map NodeInfo.pageId = ts.flatMap leafIds ∧
      (∀ info ∈ last, info.isLeaf = true) ∧
      last.flatMap NodeInfo.keys = (ts.flatMap entries).map Prod.fst := by
  intro h
  induction h with
  | zero =>
    intro ts
    refine ⟨ts.map info, rfl, ?_, fun i hi => ?_, ?_⟩
    · rw [List.map_map, List.map_eq_flatMap]
      exact List.flatMap_congr fun t _ => by
        match t with
        | .leaf _ _ => rfl
    · obtain ⟨t, -, rfl⟩ := List.mem_map.mp hi
      exact isLeaf_info_zero t
    · rw [List.flatMap_map, List.map_flatMap]
      exact List.flatMap_congr fun t _ => by
        match t with
        | .leaf _ _ => rfl
  | succ h ih =>
    intro ts
    obtain ⟨last, hlast, hids, hleaf, hkeys⟩ := ih (ts.flatMap subtrees)
    refine ⟨last, ?_, ?_, hleaf, ?_⟩
    · rw [levels, List.getLast?_cons, hlast]
      rfl
    · rw [hids, flatMap_subtrees leafIds (fun _ _ _ => rfl)]
    · rw [hkeys, flatMap_subtrees entries (fun _ _ _ => rfl)]

theorem length_levels : ∀ {h : Nat} (ts : List (Tree h)), (levels ts).length = h + 1 := by
  intro h
  induction h with
  | zero => exact fun _ => rfl
  | succ h ih => exact fun ts => congrArg Nat.succ (ih _)

end Tree

-- ---------------------------------------------------------------------------
-- Statistics and layout of a well-formed tree
-- ---------------------------------------------------------------------------

/-- The statistics of a tree. -/
structure StatsDescribe {h : Nat} (t : Tree h) (stats : TreeStats) : Prop where
  totalKeys : stats.totalKeys = t.entries.length
  height : stats.height = h + 1
  leafPages : stats.leafPages = t.leafIds.length
  internalPages : stats.internalPages = t.innerIds.length

/-- The layout of a tree: one list for each level, every node once and as its page has
it, and in the last level the leaves, in the order of the chain, with the stored keys. -/
structure LayoutDescribes (idx : BTreeIndex) {h : Nat} (t : Tree h)
    (layout : List (List NodeInfo)) : Prop where
  levels : layout.length = h + 1
  once : (layout.flatten.map NodeInfo.pageId).Perm t.ids
  nodup : (layout.flatten.map NodeInfo.pageId).Nodup
  nodes : ∀ info ∈ layout.flatten, ∃ body, bodyAt idx.pages info.pageId = some body ∧
    nodeInfo info.pageId body = info
  leaves : ∃ last, layout.getLast? = some last ∧ last.map NodeInfo.pageId = t.leafIds ∧
    (∀ info ∈ last, info.isLeaf = true) ∧ Linked idx.pages (last.map NodeInfo.pageId) ∧
    last.flatMap NodeInfo.keys = t.entries.map Prod.fst ∧
    (last.flatMap NodeInfo.keys).Pairwise (· < ·)

section

variable {h : Nat} {t : Tree h}

theorem Represents.walkable (ht : Represents idx t) : Walkable idx.pages [t] where
  nonempty := List.cons_ne_nil t []
  stored x hx := by
    rw [List.mem_singleton.mp hx]
    exact ht.stored
  ordered x hx := by
    rw [List.mem_singleton.mp hx]
    exact ⟨none, none, ht.ordered⟩

theorem Represents.layout (ht : Represents idx t) :
    ∃ layout, idx.getTreeLayout = some layout ∧ LayoutDescribes idx t layout := by
  have hloop := layoutLoop_levels [t] idx.nextPageId [] ht.walkable ht.height_lt
  have hperm := Tree.levels_perm [t]
  rw [List.flatMap_singleton] at hperm
  refine ⟨Tree.levels [t], ?_, Tree.length_levels [t], hperm, hperm.nodup_iff.mpr ht.nodup, ?_, ?_⟩
  · rw [BTreeIndex.getTreeLayout, ht.root]
    exact hloop
  · exact Tree.levels_nodes ht.walkable.stored
  · obtain ⟨last, hlast, hids, hleaf, hkeys⟩ := Tree.levels_last [t]
    rw [List.flatMap_singleton] at hids hkeys
    refine ⟨last, hlast, hids, hleaf, ?_, hkeys, ?_⟩
    · rw [hids]
      exact ht.linked
    · rw [hkeys]
      exact List.pairwise_map.mpr ht.ordered.sorted_entries.1

theorem Represents.stats (ht : Represents idx t) :
    ∃ stats, idx.getStats = some stats ∧ stats.height = h + 1 ∧
      stats.leafPages = t.leafIds.length ∧ stats.internalPages = t.innerIds.length ∧
      stats.totalKeys = t.separators.length + t.entries.length := by
  have hloop := statsLoop_counts [t] idx.nextPageId ⟨0, 0, 0, 0⟩ ht.walkable ht.height_lt
  simp only [List.flatMap_singleton, Nat.zero_add] at hloop
  refine ⟨⟨h + 1, t.innerIds.length, t.leafIds.length, t.separators.length + t.entries.length⟩, ?_,
    rfl, rfl, rfl, rfl⟩
  rw [BTreeIndex.getStats, ht.root]
  exact hloop

/-- **Statistics and layout.** For every well-formed tree both walks end; statistics and layout
describe the index exactly if the tree has a single leaf. The layout describes every index, and so
do the levels and the pages that are counted; the keys are counted with the separators. -/
theorem stats_and_layout_iff (ht : Represents idx t) :
    ∃ stats layout, idx.getStats = some stats ∧ idx.getTreeLayout = some layout ∧
      (StatsDescribe t stats ∧ LayoutDescribes idx t layout ↔ t.leafIds.length = 1) ∧
      LayoutDescribes idx t layout ∧ stats.height = h + 1 ∧
      stats.leafPages = t.leafIds.length ∧ stats.internalPages = t.innerIds.length ∧
      stats.totalKeys = t.separators.length + t.entries.length := by
  obtain ⟨layout, hlayout, hl⟩ := ht.layout
  obtain ⟨stats, hstats, hheight, hleaf, hinner, htotal⟩ := ht.stats
  have hleaves := ht.ordered.length_leafIds
  refine ⟨stats, layout, hstats, hlayout, ?_, hl, hheight, hleaf, hinner, htotal⟩
  constructor
  · rintro ⟨hs, -⟩
    have := hs.totalKeys
    omega
  · intro hone
    exact ⟨⟨by omega, hheight, hleaf, hinner⟩, hl⟩

end

/-- An index of a single leaf with two keys. -/
def oneLeaf : BTreeIndex where
  pages := setPage (fun _ => none) 0 ⟨none, .leaf ⟨none, [(10, ⟨5, 0⟩), (20, ⟨5, 1⟩)]⟩⟩
  nextPageId := 1
  rootPageId := some 0

theorem oneLeaf_represents : Represents oneLeaf (.leaf 0 [(10, ⟨5, 0⟩), (20, ⟨5, 1⟩)]) where
  root := rfl
  stored := ⟨none, rfl⟩
  ordered := by
    refine ⟨?_, by decide, fun e he => ⟨within_none e.1, ?_⟩⟩
    · rw [Sorted]
      decide
    · revert e
      decide
  linked := ⟨⟨_, rfl⟩, trivial⟩
  nodup := by decide
  allocated := by decide

theorem oneLeaf_described :
    ∃ stats layout, oneLeaf.getStats = some stats ∧ oneLeaf.getTreeLayout = some layout ∧
      StatsDescribe (.leaf 0 [(10, ⟨5, 0⟩), (20, ⟨5, 1⟩)] : Tree 0) stats ∧
      LayoutDescribes oneLeaf (.leaf 0 [(10, ⟨5, 0⟩), (20, ⟨5, 1⟩)] : Tree 0) layout := by
  obtain ⟨stats, layout, hstats, hlayout, hiff, -⟩ := stats_and_layout_iff oneLeaf_represents
  exact ⟨stats, layout, hstats, hlayout, hiff.mpr rfl⟩

/-- Three keys are stored, and `get_stats` says four. -/
theorem separators_counted_as_keys :
    Represents twoLeaves twoLeavesTree ∧ twoLeavesTree.entries.length = 3 ∧
      twoLeaves.getStats = some ⟨2, 1, 2, 4⟩ ∧
      ∀ stats, twoLeaves.getStats = some stats → ¬ StatsDescribe twoLeavesTree stats := by
  refine ⟨twoLeaves_represents, rfl, by decide, fun stats hs h => ?_⟩
  have htotal := h.totalKeys
  rw [show twoLeaves.getStats = some ⟨2, 1, 2, 4⟩ by decide] at hs
  rw [← Option.some.inj hs] at htotal
  exact absurd htotal (by decide)

end PersistX.Btree
