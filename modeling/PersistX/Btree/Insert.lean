import PersistX.Btree.Cascade

/-!
# PersistX — insert into the B+ tree

`insert` puts the entry into its leaf, or splits the leaf and hands the halves, the new
entry in one of them, to `insert_into_parent`. `insertOk` is the test on the tree before
the insert that says whether the `parent_id` fields come out right.

Main results: `insert_spec` and `ordered_map`.
-/

namespace PersistX.Btree

open Separators

-- ---------------------------------------------------------------------------
-- Splitting a leaf
-- ---------------------------------------------------------------------------

section SplitLeaf

variable {idx idx' : BTreeIndex} {n : Nat} {c : Ctx n 0} {pid : Nat} {es el er : List Entry} {k : Int}

/-- The pages once a leaf is split in two. -/
theorem Represents.split (ht : Represents idx (c.plug (.leaf pid es))) (hc : c.Ordered)
    (hl : (Tree.leaf pid el).Ordered c.lo (some k))
    (hr : (Tree.leaf idx.nextPageId er).Ordered (some k) c.hi)
    (habove : ∀ b, c.lo = some b → b < k) (hbelow : ∀ b, c.hi = some b → k < b)
    (hspine : c.Spine idx.pages pid) (hroot : idx'.rootPageId = idx.rootPageId)
    (hnext : idx'.nextPageId = idx.nextPageId + 1)
    (hbody : ∀ q, bodyAt idx'.pages q =
      if q = idx.nextPageId then some (.leaf ⟨c.postLeaves.head?, er⟩)
      else if q = pid then some (.leaf ⟨some idx.nextPageId, el⟩) else bodyAt idx.pages q)
    (hparent : ∀ q, q ≠ idx.nextPageId → parentAt idx'.pages q = parentAt idx.pages q) :
    Pending idx' c (.leaf pid el) k (.leaf idx.nextPageId er) := by
  have hnodup := ht.nodup
  have halloc := ht.allocated
  rw [c.ids_plug, Tree.ids_leaf] at hnodup halloc
  obtain ⟨hpre, hpost⟩ := nodup_hole hnodup
  have hpid : pid ≠ idx.nextPageId :=
    Nat.ne_of_lt (halloc pid (List.mem_append_right _ List.mem_cons_self))
  have hpre' : ∀ q ∈ c.preIds, bodyAt idx'.pages q = bodyAt idx.pages q := by
    intro q hq
    rw [hbody, if_neg (Nat.ne_of_lt (halloc q (List.mem_append_left _ hq))), if_neg]
    rintro rfl
    exact hpre hq
  have hpost' : ∀ q ∈ c.postIds, bodyAt idx'.pages q = bodyAt idx.pages q := by
    intro q hq
    rw [hbody, if_neg (Nat.ne_of_lt (halloc q (List.mem_append_right _ (List.mem_append_right _ hq)))),
      if_neg]
    rintro rfl
    exact hpost hq
  have hself : bodyAt idx'.pages pid = some (.leaf ⟨some idx.nextPageId, el⟩) := by
    rw [hbody, if_neg hpid, if_pos rfl]
  have hnew : bodyAt idx'.pages idx.nextPageId = some (.leaf ⟨c.postLeaves.head?, er⟩) := by
    rw [hbody, if_pos rfl]
  have hids : (c.preIds ++ ((Tree.leaf pid el).ids ++
      ((Tree.leaf idx.nextPageId er).ids ++ c.postIds))).Perm
      (idx.nextPageId :: (c.preIds ++ ([pid] ++ c.postIds))) := by
    rw [Tree.ids_leaf, Tree.ids_leaf, ← List.append_assoc c.preIds, ← List.append_assoc c.preIds]
    exact List.perm_middle
  refine ⟨?_, ((c.stored_plug _).mp ht.stored).1.congr fun q hq => ?_, ⟨_, hself⟩, ⟨_, hnew⟩, hc, hl, hr,
    habove, hbelow, ?_, ?_, fun p hp => ?_, hspine.congr fun q hq => hparent q ?_⟩
  · rw [hroot, ht.root, c.pid_plug]
    rfl
  · rcases hq with hq | hq
    · exact hpre' q hq
    · exact hpost' q hq
  · have hlinked := ht.linked
    rw [c.leafIds_plug, Tree.leafIds_leaf] at hlinked
    exact hlinked.insert_behind hself hnew (fun q hq => hpre' q (c.preLeaves_subset hq))
      fun q hq => hpost' q (c.postLeaves_subset hq)
  · rw [hids.nodup_iff, List.nodup_cons]
    exact ⟨fun hm => Nat.lt_irrefl _ (halloc _ hm), hnodup⟩
  · rw [hnext]
    rcases List.mem_cons.mp (hids.subset hp) with rfl | hp
    · exact Nat.lt_succ_self _
    · exact Nat.lt_succ_of_lt (halloc p hp)
  · rcases hq with rfl | hq
    · exact hpid
    · exact Nat.ne_of_lt (halloc q (List.mem_append_left _ hq))

/-- The two halves of a full leaf, with the new entry in one of them. -/
structure Halves (c : Ctx n 0) (es : List Entry) (key : Int) (rid : Rid) (k : Int)
    (el er : List Entry) : Prop where
  left : ∀ pid, (Tree.leaf pid el).Ordered c.lo (some k)
  right : ∀ pid, (Tree.leaf pid er).Ordered (some k) c.hi
  above : ∀ b, c.lo = some b → b < k
  below : ∀ b, c.hi = some b → k < b
  entries : ∃ a b, es = a ++ b ∧ el ++ er = a ++ (key, rid) :: b

/-- An entry comes into a leaf that has room. -/
theorem ordered_insert {lo hi : Option Int} {pid : Nat} {a b : List Entry} {key : Int} {rid : Rid}
    (ho : (Tree.leaf pid (a ++ b)).Ordered lo hi) (ha : ∀ e ∈ a, e.1 < key) (hb : ∀ e ∈ b, key < e.1)
    (hw : Within lo hi key) (hr : rid.isValid = true) (hroom : (a ++ b).length < leafMaxEntries) :
    (Tree.leaf pid (a ++ (key, rid) :: b)).Ordered lo hi := by
  obtain ⟨hs, -, hall⟩ := ho
  obtain ⟨hsa, hsb, hcross⟩ := List.pairwise_append.mp hs
  refine ⟨List.pairwise_append.mpr ⟨hsa, List.pairwise_cons.mpr ⟨hb, hsb⟩, fun x hx y hy => ?_⟩, ?_,
    fun e he => ?_⟩
  · rcases List.mem_cons.mp hy with rfl | hy
    · exact ha x hx
    · exact hcross x hx y hy
  · simp only [List.length_append, List.length_cons] at hroom ⊢
    omega
  · rcases List.mem_append.mp he with he | he
    · exact hall e (List.mem_append_left _ he)
    · rcases List.mem_cons.mp he with rfl | he
      · exact ⟨hw, hr⟩
      · exact hall e (List.mem_append_right _ he)

/-- A full leaf cut in the middle. -/
theorem halves_ordered {lo hi : Option Int} {x y : List Entry} {e : Entry} {pid : Nat}
    (ho : (Tree.leaf pid (x ++ e :: y)).Ordered lo hi) (hx : x ≠ []) :
    (∀ p, (Tree.leaf p x).Ordered lo (some e.1)) ∧ (∀ p, (Tree.leaf p (e :: y)).Ordered (some e.1) hi) ∧
      (∀ b, lo = some b → b < e.1) ∧ ∀ b, hi = some b → e.1 < b := by
  obtain ⟨hs, hlen, hall⟩ := ho
  obtain ⟨hsx, hsy, hcross⟩ := List.pairwise_append.mp hs
  have he := hall e (List.mem_append_right _ List.mem_cons_self)
  simp only [List.length_append, List.length_cons] at hlen
  refine ⟨fun p => ⟨hsx, by omega, fun a ha => ?_⟩, fun p => ⟨hsy, ?_, fun a ha => ?_⟩, fun b hb => ?_,
    he.1.hi⟩
  · obtain ⟨hw, hr⟩ := hall a (List.mem_append_left _ ha)
    refine ⟨⟨hw.lo, fun u hu => ?_⟩, hr⟩
    rw [← Option.some.inj hu]
    exact hcross a ha e List.mem_cons_self
  · rw [List.length_cons]
    omega
  · obtain ⟨hw, hr⟩ := hall a (List.mem_append_right _ ha)
    refine ⟨⟨fun l hl => ?_, hw.hi⟩, hr⟩
    rw [← Option.some.inj hl]
    rcases List.mem_cons.mp ha with rfl | ha
    · exact Int.le_refl _
    · exact Int.le_of_lt ((List.pairwise_cons.mp hsy).1 a ha)
  · obtain ⟨a, x, rfl⟩ := List.exists_cons_of_ne_nil hx
    exact Int.lt_of_le_of_lt ((hall a (List.mem_append_left _ List.mem_cons_self)).1.lo b hb)
      (hcross a List.mem_cons_self e List.mem_cons_self)

/-- What `insert` hands to `insert_into_parent`. -/
structure LeafSplit (idx idx' : BTreeIndex) (c : Ctx n 0) (pid : Nat) (el er : List Entry) : Prop where
  root : idx'.rootPageId = idx.rootPageId
  next : idx'.nextPageId = idx.nextPageId + 1
  body : ∀ q, bodyAt idx'.pages q =
    if q = idx.nextPageId then some (.leaf ⟨c.postLeaves.head?, er⟩)
    else if q = pid then some (.leaf ⟨some idx.nextPageId, el⟩) else bodyAt idx.pages q
  parent : ∀ q, parentAt idx'.pages q =
    if q = idx.nextPageId then parentAt idx.pages pid else parentAt idx.pages q

/-- The pages after `split_leaf`. -/
def leafSplitPages (idx : BTreeIndex) (pid : Nat) (next : Option Nat) (el er : List Entry) : Pages :=
  setPage (setBody idx.pages pid (.leaf ⟨some idx.nextPageId, el⟩)) idx.nextPageId
    ⟨parentAt idx.pages pid, .leaf ⟨next, er⟩⟩

theorem splitLeaf_eq {x y : List Entry} {e : Entry} {next : Option Nat}
    (hlen : x.length = (x ++ e :: y).length / 2) :
    idx.splitLeaf pid ⟨next, x ++ e :: y⟩ = some
      ({ idx with
        pages := leafSplitPages idx pid next x (e :: y)
        nextPageId := idx.nextPageId + 1 }, e.1, idx.nextPageId) := by
  rw [BTreeIndex.splitLeaf]
  simp only [← hlen, Option.bind_eq_bind]
  rw [List.getElem?_append_right (Nat.le_refl _), Nat.sub_self, List.getElem?_cons_zero,
    Option.bind_some, List.take_left, List.drop_left]
  rfl

/-- **The slow path of `insert`**, up to the call of `insert_into_parent`. -/
theorem insertSplit_halves {key : Int} {rid : Rid} (hpid : pid ≠ idx.nextPageId)
    (hl : Lands c pid es key) (hr : rid.isValid = true) (hnot : ∀ r, (key, r) ∉ es)
    (hfull : leafMaxEntries ≤ es.length) :
    ∃ (idx' : BTreeIndex) (k : Int) (el er : List Entry), Halves c es key rid k el er ∧
      LeafSplit idx idx' c pid el er ∧
      idx.insertSplit pid ⟨c.postLeaves.head?, es⟩ key rid =
        BTreeIndex.insertIntoParent idx'.nextPageId idx' pid k idx.nextPageId := by
  have hmax : leafMaxEntries = 291 := rfl
  have hcap := hl.leaf.2.1
  have hmid : es.length / 2 < es.length := by omega
  obtain ⟨x, e, y, hes, hlen⟩ : ∃ x e y, es = x ++ e :: y ∧ x.length = es.length / 2 :=
    ⟨es.take (es.length / 2), es[es.length / 2], es.drop (es.length / 2 + 1),
      by rw [List.getElem_cons_drop, List.take_append_drop],
      List.length_take_of_le (by omega)⟩
  have hx : x ≠ [] := by
    rintro rfl
    rw [List.length_nil] at hlen
    omega
  have hlen' : (x ++ e :: y).length = 291 := by
    rw [← hes]
    omega
  rw [hes] at hlen
  obtain ⟨hxo, hyo, habove, hbelow⟩ := halves_ordered (hes ▸ hl.leaf) hx
  have hcross : ∀ a ∈ x, a.1 < e.1 := by
    have hs := hl.leaf.1
    rw [hes] at hs
    exact fun a ha => (List.pairwise_append.mp hs).2.2 a ha e List.mem_cons_self
  have hsplit : idx.insertSplit pid ⟨c.postLeaves.head?, es⟩ key rid =
      (BTreeIndex.leafAt { idx with
        pages := leafSplitPages idx pid c.postLeaves.head? x (e :: y)
        nextPageId := idx.nextPageId + 1 } (if key ≥ e.1 then idx.nextPageId else pid)).bind fun half =>
      (half.insert key rid).bind fun half' =>
        BTreeIndex.insertIntoParent (idx.nextPageId + 1)
          { idx with
            pages := setBody (leafSplitPages idx pid c.postLeaves.head? x (e :: y))
              (if key ≥ e.1 then idx.nextPageId else pid) (.leaf half')
            nextPageId := idx.nextPageId + 1 } pid e.1 idx.nextPageId := by
    rw [BTreeIndex.insertSplit, hes, splitLeaf_eq hlen]
    rfl
  rw [hsplit]
  simp only [List.length_append, List.length_cons] at hlen hlen'
  by_cases hkey : key ≥ e.1
  · -- the new entry belongs to the right half
    have hnot' : ∀ r, (key, r) ∉ e :: y := by
      intro r hm
      refine hnot r ?_
      rw [hes]
      exact List.mem_append_right _ hm
    obtain ⟨a, b, hab, hins, ha, hb⟩ := Leaf.insert_of_not_mem
      (l := ⟨c.postLeaves.head?, e :: y⟩) (hyo pid).1 hnot' rid
      (by simp only [List.length_cons]; omega)
    have hab' : e :: y = a ++ b := hab
    refine ⟨{ idx with
        pages := setBody (leafSplitPages idx pid c.postLeaves.head? x (e :: y)) idx.nextPageId
          (.leaf ⟨c.postLeaves.head?, a ++ (key, rid) :: b⟩)
        nextPageId := idx.nextPageId + 1 }, e.1, x, a ++ (key, rid) :: b,
      ⟨hxo, fun p => ?_, habove, hbelow, x ++ a, b, ?_, ?_⟩, ⟨rfl, rfl, fun q => ?_, fun q => ?_⟩, ?_⟩
    · refine ordered_insert (hab' ▸ hyo p) ha hb ⟨fun l hl' => ?_, hl.within.hi⟩ hr ?_
      · rw [← Option.some.inj hl']
        exact hkey
      · rw [← hab', List.length_cons]
        omega
    · rw [hes, hab', List.append_assoc]
    · rw [List.append_assoc]
    · rw [bodyAt_setBody, leafSplitPages, bodyAt_setPage, bodyAt_setBody]
      split <;> rfl
    · rw [parentAt_setBody, leafSplitPages, parentAt_setPage, parentAt_setBody]
    · rw [if_pos hkey, BTreeIndex.leafAt]
      simp only [leafSplitPages, bodyAt_setPage, if_true, Option.bind_some, hins]
  · have hnot' : ∀ r, (key, r) ∉ x := by
      intro r hm
      refine hnot r ?_
      rw [hes]
      exact List.mem_append_left _ hm
    obtain ⟨a, b, hab, hins, ha, hb⟩ := Leaf.insert_of_not_mem
      (l := ⟨some idx.nextPageId, x⟩) (hxo pid).1 hnot' rid (by show x.length < _; omega)
    have hab' : x = a ++ b := hab
    refine ⟨{ idx with
        pages := setBody (leafSplitPages idx pid c.postLeaves.head? x (e :: y)) pid
          (.leaf ⟨some idx.nextPageId, a ++ (key, rid) :: b⟩)
        nextPageId := idx.nextPageId + 1 }, e.1, a ++ (key, rid) :: b, e :: y,
      ⟨fun p => ?_, hyo, habove, hbelow, a, b ++ e :: y, ?_, ?_⟩,
      ⟨rfl, rfl, fun q => ?_, fun q => ?_⟩, ?_⟩
    · refine ordered_insert (hab' ▸ hxo p) ha hb ⟨hl.within.lo, fun u hu => ?_⟩ hr ?_
      · rw [← Option.some.inj hu]
        exact Int.not_le.mp hkey
      · rw [← hab']
        omega
    · rw [hes, hab', List.append_assoc]
    · rw [List.append_assoc, List.cons_append]
    · rw [bodyAt_setBody, leafSplitPages, bodyAt_setPage, bodyAt_setBody]
      by_cases hq : q = pid
      · rw [if_pos hq, if_neg (hq ▸ hpid), if_pos hq]
      · simp only [if_neg hq]
    · rw [parentAt_setBody, leafSplitPages, parentAt_setPage, parentAt_setBody]
    · rw [if_neg hkey, BTreeIndex.leafAt]
      simp only [leafSplitPages, bodyAt_setPage, if_neg hpid, bodyAt_setBody, if_true,
        Option.bind_some, hins]

end SplitLeaf

-- ---------------------------------------------------------------------------
-- When the parent pointers stay right
-- ---------------------------------------------------------------------------

namespace BTreeIndex

/-- The cascade of splits from page `pid` up: no full node takes a new internal node into
its left half. `named`: the new node beside `pid` is a leaf, which has its `parent_id`. -/
def climbOk (idx : BTreeIndex) : Nat → Nat → Bool → Bool
  | 0, _, _ => true
  | fuel + 1, pid, named =>
    if some pid = idx.rootPageId then true
    else
      match parentAt idx.pages pid with
      | none => true
      | some parentPid =>
        match idx.internalAt parentPid with
        | none => true
        | some parent =>
          decide (parent.keys.length < internalMaxKeys) ||
            ((named || decide ((parent.keys.length + 1) / 2 ≤ parent.children.idxOf pid)) &&
              idx.climbOk fuel parentPid false)

/-- The leaf that takes the key has room, or has the key, or its split cascades well. -/
def insertOk (idx : BTreeIndex) (key : Int) : Bool :=
  match idx.rootPageId with
  | none => true
  | some root =>
    match idx.findLeaf key root with
    | none => true
    | some pid =>
      match idx.leafAt pid with
      | none => true
      | some leaf =>
        (leaf.lookup key).isValid || decide (leaf.entries.length < leafMaxEntries) ||
          idx.climbOk idx.nextPageId pid true

end BTreeIndex

section InsertOk

variable {idx : BTreeIndex} {n : Nat}

theorem climbOk_eq {h : Nat} {c : Ctx n h} : ∀ {t : Tree h} {fuel : Nat} {named : Bool},
    Represents idx (c.plug t) → c.Ordered → c.Spine idx.pages t.pid → c.depth < fuel →
    idx.climbOk fuel t.pid named = c.cascadeOk named := by
  induction c with
  | root =>
    intro t fuel named ht _ _ hfuel
    obtain ⟨fuel, rfl⟩ : ∃ m, fuel = m + 1 := ⟨fuel - 1, by omega⟩
    have hroot : some t.pid = idx.rootPageId := ht.root.symm
    rw [BTreeIndex.climbOk, if_pos hroot, Ctx.cascadeOk]
  | @frame h pid lk lc rk rc up ih =>
    intro t fuel named ht hc hspine hfuel
    rw [Ctx.depth] at hfuel
    obtain ⟨fuel, rfl⟩ : ∃ m, fuel = m + 1 := ⟨fuel - 1, by omega⟩
    have hnodup := ht.nodup
    rw [Ctx.ids_plug] at hnodup
    obtain ⟨-, -, hcross⟩ := List.nodup_append.mp hnodup
    have hin : t.pid ∈ t.ids ++ (Ctx.frame pid lk lc rk rc up).postIds :=
      List.mem_append_left _ t.pid_mem_ids
    have hroot : ¬ some t.pid = idx.rootPageId := by
      intro heq
      rw [ht.root, Ctx.pid_plug] at heq
      exact hcross _ (Ctx.rootPid_mem pid lk lc rk rc up t.pid) _ hin (Option.some.inj heq).symm
    have hbody := ((Ctx.stored_plug _ _).mp ht.stored).1.1
    have hinternal : idx.internalAt pid =
        some ⟨lk ++ rk, lc.map Tree.pid ++ t.pid :: rc.map Tree.pid⟩ := by
      rw [BTreeIndex.internalAt, hbody]
    have hnot : t.pid ∉ lc.map Tree.pid := by
      intro hmem
      obtain ⟨c, hcm, hpid⟩ := List.mem_map.mp hmem
      refine hcross c.pid ?_ t.pid hin hpid
      exact List.mem_append_right _ (List.mem_cons_of_mem _ (Tree.mem_ids_of_mem hcm c.pid_mem_ids))
    have hidx : (lc.map Tree.pid ++ t.pid :: rc.map Tree.pid).idxOf t.pid = lc.length := by
      rw [List.idxOf_append_of_notMem hnot, List.idxOf_cons_self, List.length_map]
      rfl
    have hclimb := @ih (.node pid (lk ++ rk) (lc ++ t :: rc)) fuel false ht hc.2.2.2.2.2 hspine.2 (by omega)
    rw [Tree.pid_node] at hclimb
    rw [BTreeIndex.climbOk, if_neg hroot, hspine.1]
    simp only [hinternal, hidx, hclimb]
    rfl

theorem insertOk_eq {c : Ctx n 0} {pid : Nat} {es : List Entry} {key : Int}
    (ht : Represents idx (c.plug (.leaf pid es)))
    (hfind : idx.findLeaf key (c.plug (.leaf pid es)).pid = some pid) (hl : Lands c pid es key)
    (hspine : c.Spine idx.pages pid) :
    idx.insertOk key = (((Leaf.mk c.postLeaves.head? es).lookup key).isValid ||
      decide (es.length < leafMaxEntries) || c.cascadeOk true) := by
  have hdepth : c.depth < idx.nextPageId := by
    have hlen := length_le_of_nodup ht.nodup ht.allocated
    rw [c.ids_plug, List.length_append, List.length_append, Tree.ids_leaf,
      List.length_singleton] at hlen
    have := c.depth_le_length
    omega
  have hclimb := @climbOk_eq _ _ _ _ (.leaf pid es) idx.nextPageId true ht hl.context hspine hdepth
  rw [BTreeIndex.insertOk, ht.root]
  simp only [hfind, ht.leafAt, Tree.pid_leaf] at hclimb ⊢
  rw [hclimb]

end InsertOk

-- ---------------------------------------------------------------------------
-- Insert
-- ---------------------------------------------------------------------------

section Insert

variable {idx : BTreeIndex} {n : Nat} {c : Ctx n 0} {pid : Nat} {es : List Entry} {key : Int} {rid : Rid}

/-- What `insert` does. -/
structure Inserted (idx idx' : BTreeIndex) {n m : Nat} (t : Tree n) (t' : Tree m) (key : Int)
    (rid : Rid) : Prop where
  represents : Represents idx' t'
  contents : contents t'.entries = Function.update (contents t.entries) key (some rid)
  next : idx'.nextPageId ≤ idx.nextPageId + (n + 2)
  parents : t'.Parents idx'.pages ↔ idx.insertOk key = true

theorem contents_insert_at {a b pre post : List Entry} (hs : Sorted (pre ++ (a ++ b ++ post)))
    (hs' : Sorted (pre ++ (a ++ (key, rid) :: b ++ post))) :
    contents (pre ++ (a ++ (key, rid) :: b ++ post)) =
      Function.update (contents (pre ++ (a ++ b ++ post))) key (some rid) := by
  have h1 : pre ++ (a ++ b ++ post) = (pre ++ a) ++ (b ++ post) := by simp
  have h2 : pre ++ (a ++ (key, rid) :: b ++ post) = (pre ++ a) ++ (key, rid) :: (b ++ post) := by simp
  rw [h1] at hs ⊢
  rw [h2] at hs' ⊢
  exact contents_insert hs hs'

/-- **Room in the leaf.** -/
theorem Represents.insert_room (ht : Represents idx (c.plug (.leaf pid es)))
    (hpar : (c.plug (.leaf pid es)).Parents idx.pages)
    (hfind : idx.findLeaf key (c.plug (.leaf pid es)).pid = some pid) (hl : Lands c pid es key)
    (hr : rid.isValid = true) (hnot : ∀ r, (key, r) ∉ es) (hroom : es.length < leafMaxEntries) :
    ∃ (idx' : BTreeIndex) (t' : Tree n), idx.insert key rid = some (idx', true) ∧
      Inserted idx idx' (c.plug (.leaf pid es)) t' key rid := by
  obtain ⟨a, b, hab, hins, ha, hb⟩ := Leaf.insert_of_not_mem
    (l := ⟨c.postLeaves.head?, es⟩) hl.leaf.1 hnot rid hroom
  obtain rfl : es = a ++ b := hab
  have hlookup := Leaf.lookup_of_not_mem (l := ⟨c.postLeaves.head?, a ++ b⟩) hl.leaf.1 hnot
  have ho := ordered_insert hl.leaf ha hb hl.within hr hroom
  have hall := hl.sorted hl.leaf
  have hall' := hl.sorted ho
  refine ⟨_, _, ?_, ht.setLeaf hl.context ho, ?_, Nat.le_add_right _ _, ?_⟩
  · rw [BTreeIndex.insert, ht.root]
    simp only [hfind, ht.leafAt, hlookup, hins, Option.bind_eq_bind, Option.bind_some]
    rfl
  · rw [c.entries_plug, c.entries_plug, Tree.entries_leaf, Tree.entries_leaf]
    exact contents_insert_at hall hall'
  · have hspine := ((c.parents_plug _).mp hpar).1.spine
    rw [insertOk_eq ht hfind hl hspine, decide_eq_true hroom, Bool.or_true, Bool.true_or]
    refine iff_of_true ?_ rfl
    have hc := ((c.parents_plug _).mp hpar).1
    exact (c.parents_plug _).mpr ⟨hc.congr fun q _ => parentAt_setBody, trivial⟩

/-- **A full leaf.** -/
theorem Represents.insert_full (ht : Represents idx (c.plug (.leaf pid es)))
    (hpar : (c.plug (.leaf pid es)).Parents idx.pages)
    (hfind : idx.findLeaf key (c.plug (.leaf pid es)).pid = some pid) (hl : Lands c pid es key)
    (hr : rid.isValid = true) (hnot : ∀ r, (key, r) ∉ es) (hfull : leafMaxEntries ≤ es.length) :
    ∃ (idx' : BTreeIndex) (m : Nat) (t' : Tree m), idx.insert key rid = some (idx', true) ∧
      Inserted idx idx' (c.plug (.leaf pid es)) t' key rid := by
  have halloc := ht.allocated
  have hlen := length_le_of_nodup ht.nodup ht.allocated
  rw [c.ids_plug, Tree.ids_leaf] at halloc hlen
  have hpid : pid < idx.nextPageId := halloc pid (List.mem_append_right _ List.mem_cons_self)
  obtain ⟨idx₁, k, el, er, hh, hs, hrun⟩ :=
    insertSplit_halves (Nat.ne_of_lt hpid) hl hr hnot hfull
  have hc := ((c.parents_plug _).mp hpar).1
  have hkeep : ∀ q, q ≠ idx.nextPageId → parentAt idx₁.pages q = parentAt idx.pages q := by
    intro q hq
    rw [hs.parent, if_neg hq]
  have hpending := ht.split hl.context (hh.left pid) (hh.right _) hh.above hh.below hc.spine hs.root
    hs.next hs.body hkeep
  have hdepth : c.depth < idx₁.nextPageId := by
    rw [List.length_append] at hlen
    have := c.depth_le_length
    rw [hs.next]
    omega
  -- the new leaf has the parent of the old one
  obtain ⟨idx', m, t', hins, hsettled⟩ := @Pending.insertIntoParent _ _ _ _ _ _ _ _ true hpending hdepth (by
    intro p hp
    rw [Tree.pid_leaf, hs.parent, if_pos rfl]
    match c, hc, hp with
    | .frame _ _ _ _ _ _, hc, hp => exact iff_of_true (hc.1.trans hp) rfl)
  obtain ⟨a, b, hab, helr⟩ := hh.entries
  have hentries : t'.entries = c.preEntries ++ (a ++ (key, rid) :: b ++ c.postEntries) := by
    rw [hsettled.entries, Tree.entries_leaf, Tree.entries_leaf, ← List.append_assoc el, helr]
  have hall := hl.sorted hl.leaf
  have hall' := hsettled.represents.ordered.sorted_entries.1
  have hlookup := Leaf.lookup_of_not_mem (l := ⟨c.postLeaves.head?, es⟩) hl.leaf.1 hnot
  refine ⟨idx', m, t', ?_, hsettled.represents, ?_, ?_, ?_⟩
  · have hleaf := Leaf.insert_of_full (l := ⟨c.postLeaves.head?, es⟩) hfull key rid
    rw [BTreeIndex.insert, ht.root]
    simp only [hfind, ht.leafAt, hlookup, hleaf, hrun, Tree.pid_leaf, Option.bind_eq_bind,
      Option.bind_some] at hins ⊢
    rw [hins]
    rfl
  · rw [hentries] at hall' ⊢
    rw [hab] at hall
    rw [c.entries_plug, Tree.entries_leaf, hab]
    exact contents_insert_at hall hall'
  · have hnext := hsettled.next
    have hheight := c.depth_add
    rw [hs.next] at hnext
    omega
  · have hc₁ : c.Parents idx₁.pages pid := by
      refine hc.congr fun q hq => hkeep q (Nat.ne_of_lt ?_)
      rcases hq with rfl | hq | hq
      · exact hpid
      · exact halloc q (List.mem_append_left _ hq)
      · exact halloc q (List.mem_append_right _ (List.mem_append_right _ hq))
    have hnotroom : decide (es.length < leafMaxEntries) = false :=
      decide_eq_false (Nat.not_lt.mpr hfull)
    rw [hsettled.parents hc₁, insertOk_eq ht hfind hl hc.spine, hlookup, hnotroom]
    show True ∧ True ∧ _ ↔ _
    rw [true_and, true_and]
    rfl

/-- **`insert`** refuses a key that is there and puts any other in; the tree stays
well-formed, and its `parent_id` fields right exactly if the cascade goes well. -/
theorem insert_spec {t : Tree n} (ht : Represents idx t) (hpar : t.Parents idx.pages) (key : Int)
    {rid : Rid} (hr : rid.isValid = true) :
    ((contents t.entries key).isSome = true ∧ idx.insert key rid = some (idx, false) ∧
        idx.insertOk key = true) ∨
      contents t.entries key = none ∧ ∃ (idx' : BTreeIndex) (m : Nat) (t' : Tree m),
        idx.insert key rid = some (idx', true) ∧ Inserted idx idx' t t' key rid := by
  obtain ⟨c, pid, es, rfl, hfind, hl⟩ := ht.find key
  have hall := hl.sorted hl.leaf
  have hentries : (c.plug (.leaf pid es)).entries = c.preEntries ++ (es ++ c.postEntries) :=
    c.entries_plug _
  rw [hentries]
  cases hc : contents (c.preEntries ++ (es ++ c.postEntries)) key with
  | some r =>
    rw [contents_eq_some hall, hl.mem_iff] at hc
    have hlookup := Leaf.lookup_of_mem (l := ⟨c.postLeaves.head?, es⟩) hl.leaf.1 hc
    have hvalid : r.isValid = true := (hl.leaf.2.2 _ hc).2
    refine .inl ⟨rfl, ?_, ?_⟩
    · rw [BTreeIndex.insert, ht.root]
      simp only [hfind, ht.leafAt, hlookup, hvalid, Option.bind_eq_bind, Option.bind_some]
      rfl
    · rw [insertOk_eq ht hfind hl ((c.parents_plug _).mp hpar).1.spine, hlookup, hvalid]
      rfl
  | none =>
    rw [contents_eq_none] at hc
    have hnot : ∀ r, (key, r) ∉ es := fun r hm => hc r ((hl.mem_iff r).mpr hm)
    refine .inr ⟨rfl, ?_⟩
    by_cases hroom : es.length < leafMaxEntries
    · obtain ⟨idx', t', hrun, hins⟩ := ht.insert_room hpar hfind hl hr hnot hroom
      exact ⟨idx', n, t', hrun, hins⟩
    · exact ht.insert_full hpar hfind hl hr hnot (Nat.le_of_not_lt hroom)

end Insert

end PersistX.Btree
