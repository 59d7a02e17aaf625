import PersistX.Btree.Pooled

/-!
# PersistX — the pooled index on a map of pages

`Does` is a small program logic for the programs of the pooled index on a map
that never evicts: assertions are about the nodes of the index and the pages
behind pointers, one rule for each call.

Main results: one lemma for each operation, saying that the program with the
pool calls does what `BTreeIndex` says, whenever `BTreeIndex` gives a result.
-/

namespace PersistX.Btree

open PageOps Pool Pool.Program

variable {P α β : Type} [NodePage P]

-- ---------------------------------------------------------------------------
-- The logic
-- ---------------------------------------------------------------------------

/-- The map holds these nodes, and these pages are behind these pointers. -/
structure Stands (pages : Pages) (next : Nat) (env : List (Nat × Nat)) (ms : MapState P) : Prop where
  allocated : ms.nextPageId = next
  lt : ∀ p node, pages p = some node → p < next
  node : ∀ p node, pages p = some node → NodePage.node (ms.mem p) = some node
  behind : ∀ e ∈ env, ms.pointers[e.1]? = some e.2 ∧ e.2 < next

/-- Where these nodes stand, the program comes to an end, with `Q`. -/
def Does (pages : Pages) (next : Nat) (env : List (Nat × Nat)) (m : Program P α)
    (Q : Pages → Nat → α → Prop) : Prop :=
  ∀ ms : MapState P, Stands pages next env ms → ∃ a ms' pages' next',
    m.runMap ms = some (a, ms') ∧ Stands pages' next' env ms' ∧ Q pages' next' a

theorem Stands.weaken {pages : Pages} {next : Nat} {env : List (Nat × Nat)} {e : Nat × Nat}
    {ms : MapState P} (h : Stands pages next (e :: env) ms) : Stands pages next env ms :=
  ⟨h.allocated, h.lt, h.node, fun _ he => h.behind _ (List.mem_cons_of_mem _ he)⟩

section Rules

variable {pages : Pages} {next : Nat} {env : List (Nat × Nat)} {Q : Pages → Nat → β → Prop}

theorem Does.pure {b : β} (h : Q pages next b) :
    Does pages next env (Pure.pure b : Program P β) Q :=
  fun ms hs => ⟨b, ms, pages, next, rfl, hs, h⟩

theorem Does.bind {m : Program P α} {f : α → Program P β} {R : Pages → Nat → α → Prop}
    (hm : Does pages next env m R)
    (hf : ∀ pages' next' a, R pages' next' a → Does pages' next' env (f a) Q) :
    Does pages next env (m >>= f) Q := by
  intro ms hs
  obtain ⟨a, ms₁, pages₁, next₁, hrun, hs₁, hR⟩ := hm ms hs
  obtain ⟨b, ms₂, pages₂, next₂, hrun', hs₂, hQ⟩ := hf pages₁ next₁ a hR ms₁ hs₁
  refine ⟨b, ms₂, pages₂, next₂, ?_, hs₂, hQ⟩
  rw [runMap_bind, hrun]
  exact hrun'

theorem Does.ofOption {o : Option α} {a : α} {k : α → Program P β} (ho : o = some a)
    (hk : Does pages next env (k a) Q) : Does pages next env (Program.ofOption o >>= k) Q := by
  subst ho
  exact hk

theorem Does.unpin {p : PageId} {d : Bool} {k : Unit → Program P β}
    (hk : Does pages next env (k ()) Q) : Does pages next env (Program.unpin p d >>= k) Q := hk

/-- A page with a node is allocated. -/
theorem Does.allocated {pid : Nat} {node : Node} {m : Program P β} (hpid : pages pid = some node)
    (h : pid < next → Does pages next env m Q) : Does pages next env m Q :=
  fun ms hs => h (hs.lt pid node hpid) ms hs

/-- A node on a page fits. -/
theorem Does.fits {pid : Nat} {node : Node} {m : Program P β} (hpid : pages pid = some node)
    (h : node.Fits → Does pages next env m Q) : Does pages next env m Q :=
  fun ms hs => h (NodePage.fits_of_node (hs.node pid node hpid)) ms hs

/-- One more pointer. -/
theorem Stands.push {ms : MapState P} (hs : Stands pages next env ms) {pid : Nat} (hpid : pid < next) :
    Stands pages next ((ms.pointers.length, pid) :: env) { ms with pointers := ms.pointers ++ [pid] } := by
  refine ⟨hs.allocated, hs.lt, hs.node, fun e he => ?_⟩
  rcases List.mem_cons.mp he with rfl | he
  · refine ⟨?_, hpid⟩
    rw [List.getElem?_append_right (Nat.le_refl _), Nat.sub_self]
    rfl
  · obtain ⟨hget, hlt⟩ := hs.behind e he
    exact ⟨by rw [List.getElem?_append_left (List.getElem?_eq_some_iff.mp hget).1, hget], hlt⟩

theorem Does.fetchPage {pid : Nat} {node : Node} {k : Option Nat → Program P β}
    (hpid : pages pid = some node)
    (hk : ∀ ptr, Does pages next ((ptr, pid) :: env) (k (some ptr)) Q) :
    Does pages next env (.fetchPage (some pid) k) Q := by
  intro ms hs
  have hlt := hs.lt pid node hpid
  obtain ⟨b, ms', pages', next', hrun, hs', hQ⟩ := hk _ _ (hs.push hlt)
  refine ⟨b, ms', pages', next', ?_, hs'.weaken, hQ⟩
  rw [runMap, if_pos (by rw [hs.allocated]; exact hlt)]
  exact hrun

theorem Does.alloc {k : Nat × Nat → Program P β}
    (hk : ∀ ptr, Does pages (next + 1) ((ptr, next) :: env) (k (next, ptr)) Q) :
    Does pages next env (Program.alloc >>= k) Q := by
  intro ms hs
  have hs₁ : Stands pages (next + 1) env
      { ms with mem := Function.update ms.mem next (init next), nextPageId := next + 1 } := by
    refine ⟨rfl, fun p node hp => Nat.lt_succ_of_lt (hs.lt p node hp), fun p node hp => ?_, fun e he => ?_⟩
    · show NodePage.node (Function.update ms.mem next (init next) p) = _
      rw [Function.update_of_ne (Nat.ne_of_lt (hs.lt p node hp))]
      exact hs.node p node hp
    · exact ⟨(hs.behind e he).1, Nat.lt_succ_of_lt (hs.behind e he).2⟩
  obtain ⟨b, ms', pages', next', hrun, hs', hQ⟩ := hk _ _ (hs₁.push (Nat.lt_succ_self next))
  refine ⟨b, ms', pages', next', ?_, hs'.weaken, hQ⟩
  rw [runMap_bind, runMap_alloc, hs.allocated]
  exact hrun

theorem Does.loadNode {ptr pid : Nat} {node : Node} {k : Node → Program P β} (hptr : (ptr, pid) ∈ env)
    (hpid : pages pid = some node) (hk : Does pages next env (k node) Q) :
    Does pages next env (Btree.loadNode ptr >>= k) Q := by
  intro ms hs
  obtain ⟨b, ms', pages', next', hrun, hs', hQ⟩ := hk ms hs
  refine ⟨b, ms', pages', next', ?_, hs', hQ⟩
  rw [runMap_bind, Btree.loadNode, runMap_bind, runMap_load (hs.behind _ hptr).1, Option.bind_some,
    runMap_ofOption, hs.node pid node hpid]
  exact hrun

theorem Does.storeNode {ptr pid : Nat} {node : Node} {k : Unit → Program P β} (hptr : (ptr, pid) ∈ env)
    (hfits : node.Fits) (hk : Does (setPage pages pid node) next env (k ()) Q) :
    Does pages next env (Btree.storeNode ptr node >>= k) Q := by
  intro ms hs
  obtain ⟨hget, hlt⟩ := hs.behind _ hptr
  have hs₁ : Stands (setPage pages pid node) next env
      { ms with mem := Function.update ms.mem pid (NodePage.setNode (ms.mem pid) node) } := by
    refine ⟨hs.allocated, fun p n hp => ?_, fun p n hp => ?_, hs.behind⟩
    · rw [setPage, Function.update_apply] at hp
      split at hp
      · rename_i heq
        rw [heq]
        exact hlt
      · exact hs.lt p n hp
    · show NodePage.node (Function.update ms.mem pid _ p) = _
      rw [setPage, Function.update_apply] at hp
      by_cases heq : p = pid
      · rw [if_pos heq] at hp
        rw [heq, Function.update_self, NodePage.node_setNode _ hfits]
        exact hp
      · rw [if_neg heq] at hp
        rw [Function.update_of_ne heq]
        exact hs.node p n hp
  obtain ⟨b, ms', pages', next', hrun, hs', hQ⟩ := hk _ hs₁
  refine ⟨b, ms', pages', next', ?_, hs', hQ⟩
  rw [runMap_bind, Btree.storeNode, runMap_bind, runMap_load hget, Option.bind_some, runMap_store hget]
  exact hrun

/-- Fetch a page and read its node. -/
theorem Does.fetchNode {pid : Nat} {node : Node} {k : Nat → Node → Program P β}
    (hpid : pages pid = some node)
    (hk : ∀ ptr, Does pages next ((ptr, pid) :: env) (k ptr node) Q) :
    Does pages next env (fetch (some pid) >>= fun page => Btree.loadNode page >>= k page) Q :=
  Does.fetchPage hpid fun ptr => Does.loadNode List.mem_cons_self hpid (hk ptr)

end Rules

-- ---------------------------------------------------------------------------
-- Walking
-- ---------------------------------------------------------------------------

section Operations

variable {idx : BTreeIndex} {pages : Pages} {next : Nat} {env : List (Nat × Nat)} {pid : Nat}

theorem pages_of_bodyAt {body : Body} (h : bodyAt pages pid = some body) :
    pages pid = some ⟨parentAt pages pid, body⟩ := by
  obtain ⟨node, hnode, rfl⟩ := Option.map_eq_some_iff.mp h
  rw [parentAt, hnode]
  rfl

theorem pages_of_leafAt {leaf : Leaf} (h : idx.leafAt pid = some leaf) :
    idx.pages pid = some ⟨parentAt idx.pages pid, .leaf leaf⟩ := by
  refine pages_of_bodyAt ?_
  unfold BTreeIndex.leafAt at h
  split at h
  · rename_i l hbody
    rw [hbody, Option.some.inj h]
  · cases h

theorem pages_of_internalAt {n : Internal} (h : idx.internalAt pid = some n) :
    idx.pages pid = some ⟨parentAt idx.pages pid, .internal n⟩ := by
  refine pages_of_bodyAt ?_
  unfold BTreeIndex.internalAt at h
  split at h
  · rename_i l hbody
    rw [hbody, Option.some.inj h]
  · cases h

theorem findLeaf_does (key : Int) : ∀ {rounds pid leafPid : Nat} {env : List (Nat × Nat)},
    idx.findLeafLoop key rounds pid = some leafPid →
    Does idx.pages next env (Pooled.findLeaf (P := P) key rounds pid) fun pages' next' a =>
      pages' = idx.pages ∧ next' = next ∧ a = leafPid
  | 0, _, _, _, h => by cases h
  | rounds + 1, pid, leafPid, env, h => by
    unfold BTreeIndex.findLeafLoop at h
    split at h
    · rename_i l hbody
      refine Does.fetchNode (pages_of_bodyAt hbody) fun ptr => Does.unpin ?_
      exact Does.pure ⟨rfl, rfl, Option.some.inj h⟩
    · rename_i n hbody
      obtain ⟨child, hchild, h⟩ := Option.bind_eq_some_iff.mp h
      refine Does.fetchNode (pages_of_bodyAt hbody) fun ptr => Does.ofOption hchild (Does.unpin ?_)
      exact findLeaf_does key h
    · cases h

theorem search_does {root rounds leafPid : Nat} {key : Int} {leaf : Leaf}
    (hfind : idx.findLeafLoop key rounds root = some leafPid) (hleaf : idx.leafAt leafPid = some leaf) :
    Does idx.pages next env (Pooled.search (P := P) root rounds key) fun pages' next' a =>
      pages' = idx.pages ∧ next' = next ∧ a = leaf.lookup key := by
  refine (findLeaf_does key hfind).bind fun pages' next' pid hR => ?_
  obtain ⟨hp, hn, hpid⟩ := hR
  subst hp hn hpid
  refine Does.fetchNode (pages_of_leafAt hleaf) fun ptr => Does.ofOption rfl (Does.unpin ?_)
  exact Does.pure ⟨rfl, rfl, rfl⟩

theorem remove_does {root rounds leafPid : Nat} {key : Int} {leaf : Leaf}
    (hfind : idx.findLeafLoop key rounds root = some leafPid) (hleaf : idx.leafAt leafPid = some leaf) :
    Does idx.pages next env (Pooled.remove (P := P) root rounds key) fun pages' next' a =>
      (pages', a) = (leaf.remove key).elim (idx.pages, false)
        (fun leaf' => (setBody idx.pages leafPid (.leaf leaf'), true)) ∧ next' = next := by
  refine (findLeaf_does key hfind).bind fun pages' next' pid hR => ?_
  obtain ⟨hp, hn, hpid⟩ := hR
  subst hp hn hpid
  have hnode := pages_of_leafAt hleaf
  refine Does.fits hnode fun hfits => Does.fetchNode hnode fun ptr => Does.ofOption rfl ?_
  cases hrem : leaf.remove key with
  | some leaf' =>
    have hfits' : Node.Fits ⟨parentAt idx.pages pid, .leaf leaf'⟩ :=
      ⟨hfits.parent, Leaf.Fits.remove hfits.body hrem⟩
    exact Does.storeNode List.mem_cons_self hfits' (Does.unpin (Does.pure ⟨rfl, rfl⟩))
  | none => exact Does.unpin (Does.pure ⟨rfl, rfl⟩)

theorem scanLoop_does (beginKey endKey : Int) : ∀ {rounds : Nat} {pid : Option Nat} {rids : List Rid}
    {env : List (Nat × Nat)},
    idx.scanLoop beginKey endKey rounds pid = some rids →
    Does idx.pages next env (Pooled.scanLoop (P := P) beginKey endKey rounds pid) fun pages' next' a =>
      pages' = idx.pages ∧ next' = next ∧ a = rids
  | 0, none, _, _, h => Does.pure ⟨rfl, rfl, Option.some.inj h⟩
  | _ + 1, none, _, _, h => Does.pure ⟨rfl, rfl, Option.some.inj h⟩
  | 0, some _, _, _, h => by cases h
  | rounds + 1, some pid, rids, env, h => by
    unfold BTreeIndex.scanLoop at h
    obtain ⟨leaf, hleaf, h⟩ := Option.bind_eq_some_iff.mp h
    refine Does.fetchNode (pages_of_leafAt hleaf) fun ptr => Does.ofOption rfl (Does.unpin ?_)
    generalize BTreeIndex.scanEntries endKey (leaf.entries.drop (leaf.keyIndex beginKey)) = found at h ⊢
    obtain ⟨found, seen⟩ := found
    cases seen with
    | true => exact Does.pure ⟨rfl, rfl, Option.some.inj h⟩
    | false =>
      obtain ⟨rest, hrest, h⟩ := Option.bind_eq_some_iff.mp h
      refine (scanLoop_does beginKey endKey hrest).bind fun pages' next' a hR => ?_
      obtain ⟨hp, hn, ha⟩ := hR
      subst hp hn ha
      exact Does.pure ⟨rfl, rfl, Option.some.inj h⟩

-- ---------------------------------------------------------------------------
-- Level by level
-- ---------------------------------------------------------------------------

/-- The children of every node are nodes. -/
def Closed (pages : Pages) : Prop :=
  ∀ p body, bodyAt pages p = some body → ∀ c ∈ body.children, (bodyAt pages c).isSome = true

theorem levelLoop_does {σ : Type} (visit : σ → Nat → Body → σ) (hc : Closed pages) :
    ∀ {m : Nat} {queue : List Nat} {acc : σ} {env : List (Nat × Nat)},
      (∀ p ∈ queue, (bodyAt pages p).isSome = true) →
      Does pages next env (Pooled.levelLoop (P := P) visit m queue acc) fun pages' next' a =>
        pages' = pages ∧ next' = next ∧ a = levelLoop pages visit m queue acc ∧
          ∀ p ∈ a.1, (bodyAt pages p).isSome = true
  | 0, _, _, _, hq => Does.pure ⟨rfl, rfl, rfl, hq⟩
  | _ + 1, [], _, _, hq => Does.pure ⟨rfl, rfl, rfl, hq⟩
  | m + 1, pid :: queue, acc, env, hq => by
    obtain ⟨body, hbody⟩ := Option.isSome_iff_exists.mp (hq pid List.mem_cons_self)
    have hq' : ∀ p ∈ queue ++ body.children, (bodyAt pages p).isSome = true := by
      intro p hp
      rcases List.mem_append.mp hp with hp | hp
      · exact hq p (List.mem_cons_of_mem _ hp)
      · exact hc pid body hbody p hp
    have hround : levelLoop pages visit (m + 1) (pid :: queue) acc =
        levelLoop pages visit m (queue ++ body.children) (visit acc pid body) := by
      rw [levelLoop, hbody]
      cases body with
      | leaf l =>
        show levelLoop pages visit m queue _ = levelLoop pages visit m (queue ++ []) _
        rw [List.append_nil]
      | internal n => rfl
    rw [hround]
    have hnode := pages_of_bodyAt hbody
    refine Does.fetchPage hnode fun ptr => Does.loadNode List.mem_cons_self hnode (Does.unpin ?_)
    exact levelLoop_does visit hc hq'

theorem statsLoop_does (hc : Closed idx.pages) : ∀ {rounds : Nat} {queue : List Nat}
    {stats result : TreeStats} {env : List (Nat × Nat)}, (∀ p ∈ queue, (bodyAt idx.pages p).isSome = true) →
    idx.statsLoop rounds queue stats = some result →
    Does idx.pages next env (Pooled.statsLoop (P := P) rounds queue stats) fun pages' next' a =>
      pages' = idx.pages ∧ next' = next ∧ a = result
  | 0, [], _, _, _, _, h => Does.pure ⟨rfl, rfl, Option.some.inj h⟩
  | _ + 1, [], _, _, _, _, h => Does.pure ⟨rfl, rfl, Option.some.inj h⟩
  | 0, _ :: _, _, _, _, _, h => by cases h
  | rounds + 1, pid :: queue, stats, result, env, hq, h => by
    refine (levelLoop_does _ hc hq).bind fun pages' next' a hR => ?_
    obtain ⟨hp, hn, ha, hq'⟩ := hR
    rw [hp, hn]
    exact statsLoop_does hc hq' (by rw [ha]; exact h)

theorem layoutLoop_does (hc : Closed idx.pages) : ∀ {rounds : Nat} {queue : List Nat}
    {levels result : List (List NodeInfo)} {env : List (Nat × Nat)},
    (∀ p ∈ queue, (bodyAt idx.pages p).isSome = true) → idx.layoutLoop rounds queue levels = some result →
    Does idx.pages next env (Pooled.layoutLoop (P := P) rounds queue levels) fun pages' next' a =>
      pages' = idx.pages ∧ next' = next ∧ a = result
  | 0, [], _, _, _, _, h => Does.pure ⟨rfl, rfl, Option.some.inj h⟩
  | _ + 1, [], _, _, _, _, h => Does.pure ⟨rfl, rfl, Option.some.inj h⟩
  | 0, _ :: _, _, _, _, _, h => by cases h
  | rounds + 1, pid :: queue, levels, result, env, hq, h => by
    refine (levelLoop_does _ hc hq).bind fun pages' next' a hR => ?_
    obtain ⟨hp, hn, ha, hq'⟩ := hR
    rw [hp, hn]
    exact layoutLoop_does hc hq' (by rw [ha]; exact h)

-- ---------------------------------------------------------------------------
-- Inserting
-- ---------------------------------------------------------------------------

theorem isSome_setPage {p q : Nat} {node : Node} (h : (bodyAt pages q).isSome = true) :
    (bodyAt (setPage pages p node) q).isSome = true := by
  rw [bodyAt_setPage]
  split
  · rfl
  · exact h

theorem setParentId_does {parent : Nat} (hparent : parent < invalidPageId)
    (hpid : (bodyAt pages pid).isSome = true) :
    Does pages next env (Pooled.setParentId (P := P) pid parent) fun pages' next' _ =>
      pages' = setParentId pages pid parent ∧ next' = next := by
  obtain ⟨body, hbody⟩ := Option.isSome_iff_exists.mp hpid
  have hnode := pages_of_bodyAt hbody
  refine Does.fits hnode fun hfits => ?_
  refine Does.fetchPage hnode fun ptr => Does.loadNode List.mem_cons_self hnode ?_
  refine Does.storeNode List.mem_cons_self ⟨idFits_some hparent, hfits.body⟩ (Does.pure ⟨?_, rfl⟩)
  rw [setParentId, hnode]

theorem setParentIds_does {parent : Nat} (hparent : parent < invalidPageId) :
    ∀ {pids : List Nat} {pages : Pages}, (∀ p ∈ pids, (bodyAt pages p).isSome = true) →
    Does pages next env (Pooled.setParentIds (P := P) pids parent) fun pages' next' _ =>
      pages' = setParentIds pages pids parent ∧ next' = next
  | [], _, _ => Does.pure ⟨rfl, rfl⟩
  | pid :: pids, pages, hp => by
    refine (setParentId_does hparent (hp pid List.mem_cons_self)).bind fun pages' next' _ hR => ?_
    obtain ⟨hpages, hnext⟩ := hR
    rw [hpages, hnext]
    refine setParentIds_does hparent fun p hmem => ?_
    rw [bodyAt_setParentId]
    exact hp p (List.mem_cons_of_mem _ hmem)

/-- A page with a body is allocated. -/
theorem Does.allocatedBody {m : Program P β} {Q : Pages → Nat → β → Prop}
    (hpid : (bodyAt pages pid).isSome = true) (h : pid < next → Does pages next env m Q) :
    Does pages next env m Q := by
  obtain ⟨body, hbody⟩ := Option.isSome_iff_exists.mp hpid
  exact Does.allocated (pages_of_bodyAt hbody) h

theorem newRoot_does {left right : Nat} {key : Int} (hkey : KeyFits key)
    (hid : idx.nextPageId < invalidPageId)
    (hl : (bodyAt idx.pages left).isSome = true) (hr : (bodyAt idx.pages right).isSome = true) :
    Does idx.pages idx.nextPageId env (Pooled.newRoot (P := P) left key right) fun pages' next' a =>
      pages' = (idx.newRoot left key right).pages ∧ next' = (idx.newRoot left key right).nextPageId ∧
        (idx.newRoot left key right).rootPageId = some a := by
  refine Does.allocatedBody hl fun hleft => Does.allocatedBody hr fun hright => ?_
  have hcoded : Internal.Coded ⟨[key], [left, right]⟩ := by
    refine ⟨rfl, fun k hk => ?_, fun c hc => ?_⟩
    · rwa [List.mem_singleton.mp hk]
    · have hlt : ∀ c, c < idx.nextPageId → c < 2 ^ 32 := fun c hc =>
        Nat.lt_trans (Nat.lt_trans hc hid) (by decide)
      rcases List.mem_cons.mp hc with rfl | hc
      · exact hlt _ hleft
      · rw [List.mem_singleton.mp hc]
        exact hlt _ hright
  have hfits : Node.Fits ⟨none, .internal ⟨[key], [left, right]⟩⟩ :=
    ⟨idFits_none, hcoded, (by decide : 1 ≤ internalMaxKeys)⟩
  refine Does.alloc fun ptr => Does.storeNode List.mem_cons_self hfits ?_
  refine (setParentIds_does hid fun p hp => ?_).bind fun pages' next' _ hR => ?_
  · refine isSome_setPage ?_
    rcases List.mem_cons.mp hp with rfl | hp
    · exact hl
    · rw [List.mem_singleton.mp hp]
      exact hr
  · obtain ⟨hpages, hnext⟩ := hR
    exact Does.unpin (Does.pure ⟨hpages, hnext, rfl⟩)

theorem splitLeaf_does {idx' : BTreeIndex} {leaf : Leaf} {ptr newPid : Nat} {key : Int}
    (hid : idx.nextPageId < invalidPageId) (hleaf : idx.leafAt pid = some leaf) (hptr : (ptr, pid) ∈ env)
    (h : idx.splitLeaf pid leaf = some (idx', key, newPid)) :
    Does idx.pages idx.nextPageId env (Pooled.splitLeaf (P := P) ptr pid) fun pages' next' a =>
      pages' = idx'.pages ∧ next' = idx'.nextPageId ∧ a = (key, newPid) ∧ KeyFits key := by
  unfold BTreeIndex.splitLeaf at h
  obtain ⟨e, he, h⟩ := Option.bind_eq_some_iff.mp h
  cases h
  have hnode := pages_of_leafAt hleaf
  refine Does.fits hnode fun hfits => Does.allocated hnode fun hlt => ?_
  have hleafFits : leaf.Fits := hfits.body
  have hkey : KeyFits e.1 := (hleafFits.entries e (List.mem_of_getElem? he)).1
  have hright : Leaf.Fits ⟨leaf.nextLeafId, leaf.entries.drop (leaf.entries.length / 2)⟩ :=
    hleafFits.part (List.drop_sublist _ _) hleafFits.next
  have hleft : Leaf.Fits ⟨some idx.nextPageId, leaf.entries.take (leaf.entries.length / 2)⟩ :=
    hleafFits.part (List.take_sublist _ _) (idFits_some hid)
  refine Does.loadNode hptr hnode (Does.ofOption rfl (Does.ofOption he ?_))
  refine Does.alloc fun ptr' => Does.storeNode List.mem_cons_self ⟨hfits.parent, hright⟩ ?_
  refine Does.storeNode (List.mem_cons_of_mem _ hptr) ⟨hfits.parent, hleft⟩ ?_
  refine Does.unpin (Does.unpin (Does.pure ⟨?_, rfl, rfl, hkey⟩))
  exact (Function.update_comm (Nat.ne_of_lt hlt) _ _ _).symm

/-- The arrays of a parent with one key too many. -/
structure Internal.Big (big : Internal) : Prop extends Internal.Coded big where
  size : big.keys.length ≤ internalMaxKeys + 1

theorem Internal.Fits.big {n : Internal} {left right : Nat} {key : Int} (h : n.Fits) (hkey : KeyFits key)
    (hright : right < 2 ^ 32) : (n.insertBehind left key right).Big where
  toCoded := h.toCoded.insertBehind hkey hright
  size := by
    rw [Internal.length_keys_insertBehind]
    exact Nat.succ_le_succ h.size

theorem splitParent_does {idx' : BTreeIndex} {parent big : Internal} {ptr newPid : Nat} {key : Int}
    (hid : idx.nextPageId < invalidPageId) (hparent : idx.internalAt pid = some parent)
    (hptr : (ptr, pid) ∈ env) (hfit : big.Big) (hbig : ∀ c ∈ big.children, (bodyAt idx.pages c).isSome = true)
    (h : idx.splitParent pid big = some (idx', key, newPid)) :
    Does idx.pages idx.nextPageId env (Pooled.splitParent (P := P) ptr pid big) fun pages' next' a =>
      pages' = idx'.pages ∧ next' = idx'.nextPageId ∧ a = (key, newPid) ∧ KeyFits key := by
  unfold BTreeIndex.splitParent at h
  obtain ⟨k, hk, h⟩ := Option.bind_eq_some_iff.mp h
  cases h
  have hnode := pages_of_internalAt hparent
  have hmid : big.keys.length / 2 < big.keys.length := (List.getElem?_eq_some_iff.mp hk).1
  have hsize := hfit.size
  have hkey : KeyFits key := hfit.keys key (List.mem_of_getElem? hk)
  have hleft := hfit.toCoded.take hmid (by omega)
  have hright := hfit.toCoded.drop hmid (by omega)
  refine Does.fits hnode fun hfits => Does.ofOption hk (Does.loadNode hptr hnode ?_)
  refine Does.storeNode hptr ⟨hfits.parent, hleft⟩ (Does.unpin (Does.alloc fun ptr' => ?_))
  refine Does.storeNode List.mem_cons_self ⟨idFits_none, hright⟩ ?_
  refine (setParentIds_does hid fun c hc => ?_).bind fun pages' next' _ hR => ?_
  · exact isSome_setPage (isSome_setPage (hbig c (List.mem_of_mem_drop hc)))
  · obtain ⟨hpages, hnext⟩ := hR
    exact Does.unpin (Does.pure ⟨hpages, hnext, rfl, hkey⟩)

/-- A node that gets only children that are nodes. -/
theorem Closed.set {pages' : Pages} {body : Body} (hc : Closed pages)
    (hbody : ∀ q, bodyAt pages' q = if q = pid then some body else bodyAt pages q)
    (hch : ∀ c ∈ body.children, (bodyAt pages' c).isSome = true) : Closed pages' := by
  intro p b hb c hmem
  rw [hbody] at hb
  split at hb
  · rw [← Option.some.inj hb] at hmem
    exact hch c hmem
  · rw [hbody]
    split
    · rfl
    · exact hc p b hb c hmem

theorem splitParent_next {idx' : BTreeIndex} {big : Internal} {newPid : Nat} {key : Int}
    (h : idx.splitParent pid big = some (idx', key, newPid)) :
    idx'.nextPageId = idx.nextPageId + 1 := by
  unfold BTreeIndex.splitParent at h
  obtain ⟨k, -, h⟩ := Option.bind_eq_some_iff.mp h
  cases h
  rfl

/-- After the split of a parent, nodes still have nodes as children. -/
theorem splitParent_closed {idx' : BTreeIndex} {big : Internal} {newPid : Nat} {key : Int}
    (hc : Closed idx.pages) (hbig : ∀ c ∈ big.children, (bodyAt idx.pages c).isSome = true)
    (h : idx.splitParent pid big = some (idx', key, newPid)) :
    Closed idx'.pages ∧ idx'.rootPageId = idx.rootPageId ∧
      (bodyAt idx'.pages pid).isSome = true ∧ (bodyAt idx'.pages newPid).isSome = true := by
  unfold BTreeIndex.splitParent at h
  obtain ⟨k, hk, h⟩ := Option.bind_eq_some_iff.mp h
  cases h
  have hleft : Closed (setBody idx.pages pid
      (.internal ⟨big.keys.take (big.keys.length / 2), big.children.take (big.keys.length / 2 + 1)⟩)) := by
    refine hc.set (fun q => bodyAt_setBody) fun c hmem => ?_
    exact isSome_setPage (hbig c (List.mem_of_mem_take hmem))
  refine ⟨?_, rfl, ?_, ?_⟩
  · refine hleft.set (fun q => by rw [bodyAt_setParentIds, bodyAt_setPage]) fun c hmem => ?_
    rw [bodyAt_setParentIds]
    exact isSome_setPage (isSome_setPage (hbig c (List.mem_of_mem_drop hmem)))
  · rw [bodyAt_setParentIds]
    refine isSome_setPage ?_
    rw [bodyAt_setBody, if_pos rfl]
    rfl
  · rw [bodyAt_setParentIds, bodyAt_setPage, if_pos rfl]
    rfl

/-- Page ids are handed out in order. -/
theorem le_insertIntoParent : ∀ {fuel left right : Nat} {key : Int} {idx idx' : BTreeIndex},
    BTreeIndex.insertIntoParent fuel idx left key right = some idx' → idx.nextPageId ≤ idx'.nextPageId
  | 0, _, _, _, _, _, h => by cases h
  | fuel + 1, left, right, key, idx, idx', h => by
    unfold BTreeIndex.insertIntoParent at h
    split at h
    · cases h
      exact Nat.le_succ _
    · obtain ⟨parentPid, -, h⟩ := Option.bind_eq_some_iff.mp h
      obtain ⟨parent, -, h⟩ := Option.bind_eq_some_iff.mp h
      split at h
      · split at h
        · cases h
          exact Nat.le_refl _
        · obtain ⟨⟨idx₁, pushUp, newPid⟩, hsplit, h⟩ := Option.bind_eq_some_iff.mp h
          have hstep := splitParent_next hsplit
          exact Nat.le_trans (by omega) (le_insertIntoParent h)
      · cases h

theorem insertIntoParent_does {root : Nat} : ∀ {fuel left right : Nat} {key : Int} {idx idx' : BTreeIndex}
    {env : List (Nat × Nat)}, idx.rootPageId = some root → Closed idx.pages →
    (bodyAt idx.pages left).isSome = true → (bodyAt idx.pages right).isSome = true → KeyFits key →
    idx'.nextPageId ≤ invalidPageId →
    BTreeIndex.insertIntoParent fuel idx left key right = some idx' →
    Does idx.pages idx.nextPageId env (Pooled.insertIntoParent (P := P) root fuel left key right)
      fun pages' next' a =>
        pages' = idx'.pages ∧ next' = idx'.nextPageId ∧ idx'.rootPageId = some a
  | 0, _, _, _, _, _, _, _, _, _, _, _, _, h => by cases h
  | fuel + 1, left, right, key, idx, idx', env, hroot, hc, hl, hr, hkey, hids, h => by
    have hle := le_insertIntoParent h
    unfold BTreeIndex.insertIntoParent at h
    unfold Pooled.insertIntoParent
    rw [hroot] at h
    by_cases htop : left = root
    · rw [if_pos htop]
      rw [if_pos (congrArg some htop)] at h
      cases h
      exact newRoot_does hkey hids hl hr
    · rw [if_neg htop]
      rw [if_neg (fun he => htop (Option.some.inj he))] at h
      obtain ⟨parentPid, hparentPid, h⟩ := Option.bind_eq_some_iff.mp h
      obtain ⟨parent, hparent, h⟩ := Option.bind_eq_some_iff.mp h
      obtain ⟨body, hbody⟩ := Option.isSome_iff_exists.mp hl
      have hnode := pages_of_internalAt hparent
      refine Does.allocated hnode fun hparentLt => Does.allocatedBody hr fun hrightLt => ?_
      refine Does.fits hnode fun hfits => ?_
      have hparentFits : parent.Fits := hfits.body
      have hright : right < 2 ^ 32 := Nat.lt_trans
        (Nat.lt_of_lt_of_le hrightLt (Nat.le_trans hle hids)) (by decide)
      refine Does.fetchNode (pages_of_bodyAt hbody) fun ptr => Does.unpin (Does.ofOption hparentPid ?_)
      refine Does.fetchNode hnode fun ptr' => Does.ofOption rfl ?_
      by_cases hmem : left ∈ parent.children
      · rw [if_pos hmem] at h ⊢
        cases hins : parent.insertAfter left key right with
        | some parent' =>
          rw [hins] at h
          cases h
          have hfits' : Node.Fits ⟨parentAt idx.pages parentPid, .internal parent'⟩ :=
            ⟨hfits.parent, hparentFits.insertAfter hkey hright hins⟩
          refine Does.storeNode List.mem_cons_self hfits' ?_
          have hparentId : parentPid < invalidPageId := Nat.lt_of_lt_of_le hparentLt hids
          refine (setParentId_does hparentId (isSome_setPage hr)).bind fun pages' next' _ hR => ?_
          obtain ⟨hpages, hnext⟩ := hR
          exact Does.unpin (Does.pure ⟨hpages, hnext, rfl⟩)
        | none =>
          rw [hins] at h
          obtain ⟨⟨idx₁, pushUp, newPid⟩, hsplit, h⟩ := Option.bind_eq_some_iff.mp h
          have hbig : ∀ c ∈ (parent.insertBehind left key right).children,
              (bodyAt idx.pages c).isSome = true := by
            intro c hcm
            rcases Internal.mem_children_insertBehind hcm with rfl | hcm
            · exact hr
            · have hbody' : bodyAt idx.pages parentPid = some (.internal parent) := by
                rw [bodyAt, hnode]
                rfl
              exact hc parentPid _ hbody' c hcm
          obtain ⟨hc₁, hroot₁, hl₁, hr₁⟩ := splitParent_closed hc hbig hsplit
          have hid : idx.nextPageId < invalidPageId := by
            have hle₁ := le_insertIntoParent h
            have hnext₁ := splitParent_next hsplit
            omega
          refine (splitParent_does hid hparent List.mem_cons_self (hparentFits.big hkey hright) hbig
            hsplit).bind fun pages' next' a hR => ?_
          obtain ⟨hpages, hnext, ha, hpushUp⟩ := hR
          rw [hpages, hnext, ha]
          exact insertIntoParent_does (hroot₁.trans hroot) hc₁ hl₁ hr₁ hpushUp hids h
      · rw [if_neg hmem] at h
        cases h

theorem insertIntoHalf_does {half half' : Leaf} {key : Int} {rid : Rid} (hkey : KeyFits key)
    (hrid : RidFits rid) (hhalf : idx.leafAt pid = some half) (hins : half.insert key rid = some half') :
    Does idx.pages next env (Pooled.insertIntoHalf (P := P) pid key rid) fun pages' next' _ =>
      pages' = setBody idx.pages pid (.leaf half') ∧ next' = next := by
  have hnode := pages_of_leafAt hhalf
  refine Does.fits hnode fun hfits => Does.fetchNode hnode fun ptr => Does.ofOption rfl ?_
  rw [hins]
  have hfits' : Node.Fits ⟨parentAt idx.pages pid, .leaf half'⟩ :=
    ⟨hfits.parent, Leaf.Fits.insert hfits.body hkey hrid hins⟩
  exact Does.storeNode List.mem_cons_self hfits' (Does.pure ⟨rfl, rfl⟩)

/-- A page that becomes a leaf. -/
theorem Closed.setLeaf {pages' : Pages} {leaf : Leaf} (hc : Closed pages)
    (hbody : ∀ q, bodyAt pages' q = if q = pid then some (.leaf leaf) else bodyAt pages q) :
    Closed pages' :=
  hc.set hbody fun _ hmem => absurd hmem List.not_mem_nil

/-- After the split of a leaf, nodes still have nodes as children. -/
theorem splitLeaf_closed {idx' : BTreeIndex} {leaf : Leaf} {newPid : Nat} {key : Int} (hc : Closed idx.pages)
    (h : idx.splitLeaf pid leaf = some (idx', key, newPid)) :
    Closed idx'.pages ∧ idx'.rootPageId = idx.rootPageId ∧ idx'.nextPageId = idx.nextPageId + 1 ∧
      (bodyAt idx'.pages pid).isSome = true ∧ (bodyAt idx'.pages newPid).isSome = true := by
  unfold BTreeIndex.splitLeaf at h
  obtain ⟨e, -, h⟩ := Option.bind_eq_some_iff.mp h
  cases h
  refine ⟨(hc.setLeaf fun q => bodyAt_setBody).setLeaf fun q => bodyAt_setPage, rfl, rfl, ?_, ?_⟩
  · refine isSome_setPage ?_
    rw [bodyAt_setBody, if_pos rfl]
    rfl
  · rw [bodyAt_setPage, if_pos rfl]
    rfl

theorem insertSplit_does {idx' : BTreeIndex} {leaf : Leaf} {root : Nat} {key : Int} {rid : Rid} {ptr : Nat}
    (hkey : KeyFits key) (hrid : RidFits rid) (hids : idx'.nextPageId ≤ invalidPageId)
    (hroot : idx.rootPageId = some root) (hc : Closed idx.pages) (hleaf : idx.leafAt pid = some leaf)
    (hptr : (ptr, pid) ∈ env) (h : idx.insertSplit pid leaf key rid = some idx') :
    Does idx.pages idx.nextPageId env (do
        let r ← Pooled.splitLeaf (P := P) ptr pid
        Pooled.insertIntoHalf (if key ≥ r.1 then r.2 else pid) key rid
        let root ← Pooled.insertIntoParent root (idx.nextPageId + 1) pid r.1 r.2
        return (true, root)) fun pages' next' a =>
      pages' = idx'.pages ∧ next' = idx'.nextPageId ∧ a.1 = true ∧ idx'.rootPageId = some a.2 := by
  unfold BTreeIndex.insertSplit at h
  obtain ⟨⟨idx₁, pushUp, newPid⟩, hsplit, h⟩ := Option.bind_eq_some_iff.mp h
  obtain ⟨half, hhalf, h⟩ := Option.bind_eq_some_iff.mp h
  obtain ⟨half', hins, h⟩ := Option.bind_eq_some_iff.mp h
  obtain ⟨hc₁, hroot₁, hnext₁, hl₁, hr₁⟩ := splitLeaf_closed hc hsplit
  have hid : idx.nextPageId < invalidPageId := by
    have hle := le_insertIntoParent h
    dsimp only at hle
    omega
  refine (splitLeaf_does hid hleaf hptr hsplit).bind fun pages' next' a hR => ?_
  obtain ⟨hpages, hnext, ha, hpushUp⟩ := hR
  rw [hpages, hnext, ha]
  refine (insertIntoHalf_does hkey hrid hhalf hins).bind fun pages₂ next₂ _ hR => ?_
  obtain ⟨hpages₂, hnext₂⟩ := hR
  rw [hpages₂, hnext₂]
  have hparent := @insertIntoParent_does P _ root (idx.nextPageId + 1) pid newPid pushUp
    { idx₁ with pages := setBody idx₁.pages (if key ≥ pushUp then newPid else pid) (.leaf half') } idx' env
    (hroot₁.trans hroot) (hc₁.setLeaf fun q => bodyAt_setBody) (isSome_setPage hl₁) (isSome_setPage hr₁)
    hpushUp hids (by rw [← hnext₁]; exact h)
  refine hparent.bind fun pages₃ next₃ a hR => ?_
  obtain ⟨hpages₃, hnext₃, ha⟩ := hR
  exact Does.pure ⟨hpages₃, hnext₃, rfl, ha⟩

theorem insert_does {idx' : BTreeIndex} {root : Nat} {key : Int} {rid : Rid} {b : Bool}
    (hkey : KeyFits key) (hrid : RidFits rid) (hids : idx'.nextPageId ≤ invalidPageId)
    (hroot : idx.rootPageId = some root) (hc : Closed idx.pages)
    (h : idx.insert key rid = some (idx', b)) :
    Does idx.pages idx.nextPageId env (Pooled.insert (P := P) root idx.nextPageId key rid)
      fun pages' next' a =>
        pages' = idx'.pages ∧ next' = idx'.nextPageId ∧ a.1 = b ∧ idx'.rootPageId = some a.2 := by
  unfold BTreeIndex.insert at h
  rw [hroot] at h
  obtain ⟨pid, hfind, h⟩ := Option.bind_eq_some_iff.mp h
  obtain ⟨leaf, hleaf, h⟩ := Option.bind_eq_some_iff.mp h
  refine (findLeaf_does key hfind).bind fun pages' next' p hR => ?_
  obtain ⟨hp, hn, hpid⟩ := hR
  rw [hp, hn, hpid]
  have hnode := pages_of_leafAt hleaf
  refine Does.fits hnode fun hfits => Does.fetchNode hnode fun ptr => Does.ofOption rfl ?_
  by_cases hdup : (leaf.lookup key).isValid = true
  · rw [if_pos hdup] at h ⊢
    cases h
    exact Does.unpin (Does.pure ⟨rfl, rfl, rfl, hroot⟩)
  · rw [if_neg hdup] at h ⊢
    cases hins : leaf.insert key rid with
    | some leaf' =>
      simp only [hins] at h ⊢
      cases h
      have hfits' : Node.Fits ⟨parentAt idx.pages pid, .leaf leaf'⟩ :=
        ⟨hfits.parent, Leaf.Fits.insert hfits.body hkey hrid hins⟩
      exact Does.storeNode List.mem_cons_self hfits' (Does.unpin (Does.pure ⟨rfl, rfl, rfl, rfl⟩))
    | none =>
      simp only [hins] at h ⊢
      obtain ⟨idx₁, hsplit, h⟩ := Option.bind_eq_some_iff.mp h
      cases h
      exact insertSplit_does hkey hrid hids hroot hc hleaf List.mem_cons_self hsplit

end Operations

end PersistX.Btree
