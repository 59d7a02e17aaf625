import PersistX.Btree.Map

/-!
# PersistX — the cascade of splits

`Pending` is the state between two rounds of `insert_into_parent`: a context whose hole
is to take two trees and the key between them, where the pages still have the left
one in the hole. A round ends the cascade (a new root, or room in the parent) or splits the
parent and leaves the same state one level up (`Pending.split`).

`parent_id` is only read on the way to the root, which no round touches; so the map comes
out right whatever the other `parent_id` fields say. They stay right exactly if no new
internal node stays in the left half of a parent that splits (`Ctx.cascadeOk`): such a node
has been initialised with an invalid `parent_id`, and nothing sets it.

Main result: `Pending.insertIntoParent`.
-/

namespace PersistX.Btree

open Separators

-- ---------------------------------------------------------------------------
-- Arrays of a node
-- ---------------------------------------------------------------------------

/-- Keys and children as an internal node has them, the capacity apart. -/
structure Spaced {h : Nat} (lo hi : Option Int) (ks : List Int) (cs : List (Tree h)) : Prop where
  sorted : ks.Pairwise (· < ·)
  within : ∀ k ∈ ks, Within lo hi k
  separated : Separated Tree.Ordered lo ks cs hi

theorem Spaced.ordered {h : Nat} {lo hi : Option Int} {ks : List Int} {cs : List (Tree h)}
    (hs : Spaced lo hi ks cs) (hlen : ks.length ≤ internalMaxKeys) (pid : Nat) :
    (Tree.node pid ks cs).Ordered lo hi := ⟨hs.sorted, hlen, hs.within, hs.separated⟩

theorem lt_of_lastBound {lk : List Int} {lo : Option Int} {k : Int} (hs : lk.Pairwise (· < ·))
    (h : ∀ b, lastBound lo lk = some b → b < k) : ∀ x ∈ lk, x < k := by
  induction lk generalizing lo with
  | nil => exact fun x hx => absurd hx List.not_mem_nil
  | cons y lk ih =>
    obtain ⟨hy, hs⟩ := List.pairwise_cons.mp hs
    have hrest := ih hs h
    intro x hx
    rcases List.mem_cons.mp hx with rfl | hx
    · match lk, hy, hrest, h with
      | [], _, _, h => exact h x rfl
      | z :: lk, hy, hrest, _ => exact Int.lt_trans (hy z List.mem_cons_self) (hrest z List.mem_cons_self)
    · exact hrest x hx

theorem lt_of_firstBound {rk : List Int} {hi : Option Int} {k : Int} (hs : rk.Pairwise (· < ·))
    (h : ∀ b, firstBound rk hi = some b → k < b) : ∀ x ∈ rk, k < x := by
  match rk, hs, h with
  | [], _, _ => exact fun x hx => absurd hx List.not_mem_nil
  | y :: rk, hs, h =>
    intro x hx
    rcases List.mem_cons.mp hx with rfl | hx
    · exact h x rfl
    · exact Int.lt_trans (h y rfl) ((List.pairwise_cons.mp hs).1 x hx)

theorem lastBound_of_ne_nil {lk : List Int} (hne : lk ≠ []) (lo : Option Int) :
    ∃ x ∈ lk, lastBound lo lk = some x := by
  induction lk generalizing lo with
  | nil => exact absurd rfl hne
  | cons y lk ih =>
    match lk, ih with
    | [], _ => exact ⟨y, List.mem_cons_self, rfl⟩
    | z :: lk, ih =>
      obtain ⟨x, hx, hb⟩ := ih (List.cons_ne_nil z lk) (some y)
      exact ⟨x, List.mem_cons_of_mem _ hx, hb⟩

/-- Two trees and the key between them take the place of one child. -/
theorem Spaced.insert {h : Nat} {lo hi : Option Int} {lk rk : List Int} {lc rc : List (Tree h)}
    {l r : Tree h} {k : Int} (hsorted : (lk ++ rk).Pairwise (· < ·))
    (hwithin : ∀ x ∈ lk ++ rk, Within lo hi x) (hleft : SeparatedLeft Tree.Ordered lo lk lc)
    (hright : SeparatedRight Tree.Ordered rk rc hi) (hl : l.Ordered (lastBound lo lk) (some k))
    (hr : r.Ordered (some k) (firstBound rk hi)) (habove : ∀ b, lastBound lo lk = some b → b < k)
    (hbelow : ∀ b, firstBound rk hi = some b → k < b) :
    Spaced lo hi (lk ++ k :: rk) (lc ++ l :: r :: rc) := by
  obtain ⟨hlk, hrk, hcross⟩ := List.pairwise_append.mp hsorted
  have hltk := lt_of_lastBound hlk habove
  have hgtk := lt_of_firstBound hrk hbelow
  refine ⟨?_, fun x hx => ?_, ?_⟩
  · refine List.pairwise_append.mpr ⟨hlk, List.pairwise_cons.mpr ⟨hgtk, hrk⟩, fun x hx y hy => ?_⟩
    rcases List.mem_cons.mp hy with rfl | hy
    · exact hltk x hx
    · exact hcross x hx y hy
  · rcases List.mem_append.mp hx with hx | hx
    · exact hwithin x (List.mem_append_left _ hx)
    · rcases List.mem_cons.mp hx with rfl | hx
      · -- the new key lies between the bounds, through its neighbours or by itself
        refine ⟨fun b hb => ?_, fun b hb => ?_⟩
        · by_cases hne : lk = []
          · rw [hne] at habove
            exact Int.le_of_lt (habove b hb)
          · obtain ⟨y, hy, -⟩ := lastBound_of_ne_nil hne lo
            exact Int.le_trans ((hwithin y (List.mem_append_left _ hy)).lo b hb)
              (Int.le_of_lt (hltk y hy))
        · match rk, hbelow, hgtk, hwithin with
          | [], hbelow, _, _ => exact hbelow b hb
          | y :: rk, _, hgtk, hwithin =>
            exact Int.lt_trans (hgtk y List.mem_cons_self)
              ((hwithin y (List.mem_append_right _ List.mem_cons_self)).hi b hb)
      · exact hwithin x (List.mem_append_right _ hx)
  · exact (separated_focus hleft.length).mpr ⟨hleft, hl, hr, hright⟩

/-- A node is cut at the key at `mid`. -/
theorem Spaced.split {h : Nat} {lo hi : Option Int} {ks : List Int} {cs : List (Tree h)} {mid : Nat}
    {k : Int} (hs : Spaced lo hi ks cs) (hk : ks[mid]? = some k) :
    Spaced lo (some k) (ks.take mid) (cs.take (mid + 1)) ∧
      Spaced (some k) hi (ks.drop (mid + 1)) (cs.drop (mid + 1)) ∧
      (0 < mid → ∀ b, lo = some b → b < k) ∧ ∀ b, hi = some b → k < b := by
  obtain ⟨hmid, rfl⟩ := List.getElem?_eq_some_iff.mp hk
  have hks : ks = ks.take mid ++ ks[mid] :: ks.drop (mid + 1) := by
    rw [List.getElem_cons_drop, List.take_append_drop]
  have hcs : cs = cs.take (mid + 1) ++ cs.drop (mid + 1) := (List.take_append_drop _ _).symm
  have hlen : (cs.take (mid + 1)).length = (ks.take mid).length + 1 := by
    have := hs.separated.length
    rw [List.length_take_of_le (by omega), List.length_take_of_le (by omega)]
  have hsorted := hs.sorted
  have hsep := hs.separated
  rw [hks] at hsorted
  rw [hks, hcs, separated_append hlen] at hsep
  obtain ⟨hleft, hright, hcross⟩ := List.pairwise_append.mp hsorted
  obtain ⟨hgt, hright⟩ := List.pairwise_cons.mp hright
  have hlt : ∀ x ∈ ks.take mid, x < ks[mid] := fun x hx => hcross x hx _ List.mem_cons_self
  have hw : ∀ x ∈ ks, Within lo hi x := hs.within
  refine ⟨⟨hleft, fun x hx => ⟨(hw x (List.mem_of_mem_take hx)).lo, fun b hb => ?_⟩, hsep.1⟩,
    ⟨hright, fun x hx => ⟨fun b hb => ?_, (hw x (List.mem_of_mem_drop hx)).hi⟩, hsep.2⟩,
    fun hpos b hb => ?_, (hw _ (List.getElem_mem hmid)).hi⟩
  · rw [← Option.some.inj hb]
    exact hlt x hx
  · rw [← Option.some.inj hb]
    exact Int.le_of_lt (hgt x hx)
  · -- the first key is not below the bound, and the middle one is behind it
    have hpos' : 0 < ks.length := by omega
    have h0 : ks[0] ∈ ks.take mid := List.mem_take_iff_getElem.mpr ⟨0, by omega, rfl⟩
    exact Int.lt_of_le_of_lt ((hw _ (List.mem_of_mem_take h0)).lo b hb) (hlt _ h0)

-- ---------------------------------------------------------------------------
-- The way to the root
-- ---------------------------------------------------------------------------

namespace Ctx

variable {n : Nat}

/-- The `parent_id` fields on the way from page `hole` to the root. -/
def Spine (pages : Pages) : {h : Nat} → Ctx n h → Nat → Prop
  | _, .root, _ => True
  | _, .frame pid _ _ _ _ up, hole => parentAt pages hole = some pid ∧ up.Spine pages pid

theorem Parents.spine {pages : Pages} {h : Nat} {c : Ctx n h} {hole : Nat}
    (hp : c.Parents pages hole) : c.Spine pages hole := by
  induction c generalizing hole with
  | root => trivial
  | frame pid lk lc rk rc up ih => exact ⟨hp.1, ih hp.2.2⟩

theorem Spine.congr {pages pages' : Pages} {h : Nat} {c : Ctx n h} {hole : Nat}
    (hs : c.Spine pages hole)
    (hq : ∀ q, q = hole ∨ q ∈ c.preIds → parentAt pages' q = parentAt pages q) :
    c.Spine pages' hole := by
  induction c generalizing hole with
  | root => trivial
  | frame pid lk lc rk rc up ih =>
    refine ⟨(hq hole (.inl rfl)).trans hs.1, ih hs.2 fun q hqu => hq q (.inr ?_)⟩
    rcases hqu with rfl | hqu
    · exact List.mem_append_right _ List.mem_cons_self
    · exact List.mem_append_left _ hqu

/-- The root is above the hole. -/
theorem rootPid_mem {h : Nat} (pid : Nat) (lk : List Int) (lc : List (Tree h)) (rk : List Int)
    (rc : List (Tree h)) (up : Ctx n (h + 1)) (hole : Nat) :
    (frame pid lk lc rk rc up).rootPid hole ∈ (frame pid lk lc rk rc up).preIds := by
  suffices hup : ∀ {h : Nat} (c : Ctx n h) (p : Nat), c.rootPid p = p ∨ c.rootPid p ∈ c.preIds by
    rcases hup up pid with heq | hmem
    · rw [rootPid, heq]
      exact List.mem_append_right _ List.mem_cons_self
    · exact List.mem_append_left _ hmem
  intro h c
  induction c with
  | root => exact fun _ => .inl rfl
  | frame pid lk lc rk rc up ih =>
    intro p
    rcases ih pid with heq | hmem
    · refine .inr ?_
      rw [rootPid, heq]
      exact List.mem_append_right _ List.mem_cons_self
    · exact .inr (List.mem_append_left _ hmem)

end Ctx

-- ---------------------------------------------------------------------------
-- Between two rounds
-- ---------------------------------------------------------------------------

/-- Trees `l` and `r` with `k` between them are to go into the hole of `c`, where the
pages have `l` alone. -/
structure Pending (idx : BTreeIndex) {n h : Nat} (c : Ctx n h) (l : Tree h) (k : Int)
    (r : Tree h) : Prop where
  root : idx.rootPageId = some (c.rootPid l.pid)
  context : c.Stored idx.pages l.pid
  left : l.Stored idx.pages
  right : r.Stored idx.pages
  ordered : c.Ordered
  leftOrdered : l.Ordered c.lo (some k)
  rightOrdered : r.Ordered (some k) c.hi
  above : ∀ b, c.lo = some b → b < k
  below : ∀ b, c.hi = some b → k < b
  linked : Linked idx.pages (c.preLeaves ++ (l.leafIds ++ (r.leafIds ++ c.postLeaves)))
  nodup : (c.preIds ++ (l.ids ++ (r.ids ++ c.postIds))).Nodup
  allocated : ∀ p ∈ c.preIds ++ (l.ids ++ (r.ids ++ c.postIds)), p < idx.nextPageId
  spine : c.Spine idx.pages l.pid

section Root

variable {idx : BTreeIndex} {n : Nat} {l r : Tree n} {k : Int}

theorem bodyAt_newRoot {left right q : Nat} {key : Int} :
    bodyAt (idx.newRoot left key right).pages q =
      if q = idx.nextPageId then some (.internal ⟨[key], [left, right]⟩) else bodyAt idx.pages q := by
  rw [BTreeIndex.newRoot, bodyAt_setParentIds, bodyAt_setPage]

theorem parentAt_newRoot {left right q : Nat} {key : Int} (hl : (bodyAt idx.pages left).isSome = true)
    (hr : (bodyAt idx.pages right).isSome = true) :
    parentAt (idx.newRoot left key right).pages q =
      if q ∈ [left, right] then some idx.nextPageId
      else if q = idx.nextPageId then none else parentAt idx.pages q := by
  have hsome : ∀ p, (bodyAt idx.pages p).isSome = true →
      (bodyAt (setPage idx.pages idx.nextPageId ⟨none, .internal ⟨[key], [left, right]⟩⟩) p).isSome =
        true := by
    intro p hp
    rw [bodyAt_setPage]
    split
    · rfl
    · exact hp
  rw [BTreeIndex.newRoot, parentAt_setParentIds, parentAt_setPage]
  intro p hp
  rcases List.mem_cons.mp hp with rfl | hp
  · exact hsome p hl
  · rw [List.mem_singleton.mp hp]
    exact hsome right hr

/-- **A new root.** -/
theorem Pending.newRoot (hp : Pending idx (.root : Ctx n n) l k r) :
    Represents (idx.newRoot l.pid k r.pid) (.node idx.nextPageId [k] [l, r]) := by
  have halloc := hp.allocated
  have hnodup := hp.nodup
  have hlinked := hp.linked
  simp only [Ctx.preIds, Ctx.postIds, Ctx.preLeaves, Ctx.postLeaves, List.nil_append,
    List.append_nil] at halloc hnodup hlinked
  have hsame : ∀ q, q ∈ l.ids ++ r.ids →
      bodyAt (idx.newRoot l.pid k r.pid).pages q = bodyAt idx.pages q := by
    intro q hq
    rw [bodyAt_newRoot, if_neg (Nat.ne_of_lt (halloc q hq))]
  have hids : (Tree.node idx.nextPageId [k] [l, r]).ids = idx.nextPageId :: (l.ids ++ r.ids) := by
    simp
  have hstored : ∀ t ∈ [l, r], t.Stored (idx.newRoot l.pid k r.pid).pages := by
    intro t ht
    rcases List.mem_cons.mp ht with rfl | ht
    · exact hp.left.congr fun q hq => hsame q (List.mem_append_left _ hq)
    · rw [List.mem_singleton.mp ht]
      exact hp.right.congr fun q hq => hsame q (List.mem_append_right _ hq)
  refine ⟨rfl, ⟨?_, hstored⟩, ⟨List.pairwise_singleton _ _, ?_, fun x _ => within_none x,
    hp.leftOrdered, hp.rightOrdered⟩, ?_, ?_, fun p hpm => ?_⟩
  · rw [bodyAt_newRoot, if_pos rfl]
    rfl
  · rw [internalMaxKeys_eq, List.length_singleton]
    decide
  · have hleaves : (Tree.node idx.nextPageId [k] [l, r]).leafIds = l.leafIds ++ r.leafIds := by simp
    rw [hleaves]
    refine hlinked.congr fun q hq => hsame q ?_
    rcases List.mem_append.mp hq with hq | hq
    · exact List.mem_append_left _ (l.leafIds_subset_ids hq)
    · exact List.mem_append_right _ (r.leafIds_subset_ids hq)
  · rw [hids, List.nodup_cons]
    exact ⟨fun hm => Nat.lt_irrefl _ (halloc _ hm), hnodup⟩
  · rw [hids] at hpm
    rcases List.mem_cons.mp hpm with rfl | hpm
    · exact Nat.lt_succ_self _
    · exact Nat.lt_succ_of_lt (halloc p hpm)

end Root

-- ---------------------------------------------------------------------------
-- The parent with its new entry
-- ---------------------------------------------------------------------------

/-- Page `pid` is in the hole of `up` and is to have the arrays `ks` and `cs`. -/
structure Widened (idx : BTreeIndex) {n h : Nat} (up : Ctx n (h + 1)) (pid : Nat) (ks : List Int)
    (cs : List (Tree h)) : Prop where
  root : idx.rootPageId = some (up.rootPid pid)
  context : up.Stored idx.pages pid
  children : ∀ c ∈ cs, c.Stored idx.pages
  ordered : up.Ordered
  spaced : Spaced up.lo up.hi ks cs
  linked : Linked idx.pages (up.preLeaves ++ (cs.flatMap Tree.leafIds ++ up.postLeaves))
  nodup : (up.preIds ++ ((pid :: cs.flatMap Tree.ids) ++ up.postIds)).Nodup
  allocated : ∀ p ∈ up.preIds ++ ((pid :: cs.flatMap Tree.ids) ++ up.postIds), p < idx.nextPageId
  spine : up.Spine idx.pages pid

section Frame

variable {idx : BTreeIndex} {n h : Nat} {pid : Nat} {lk rk : List Int} {lc rc : List (Tree h)}
  {up : Ctx n (h + 1)} {l r : Tree h} {k : Int}

theorem Pending.widened (hp : Pending idx (.frame pid lk lc rk rc up) l k r) :
    Widened idx up pid (lk ++ k :: rk) (lc ++ l :: r :: rc) := by
  obtain ⟨hsorted, hlen, hwithin, hleft, hright, hup⟩ := hp.ordered
  have hids : (Ctx.frame pid lk lc rk rc up).preIds ++
      (l.ids ++ (r.ids ++ (Ctx.frame pid lk lc rk rc up).postIds)) =
      up.preIds ++ ((pid :: (lc ++ l :: r :: rc).flatMap Tree.ids) ++ up.postIds) := by
    simp [Ctx.preIds, Ctx.postIds]
  refine ⟨hp.root, hp.context.2.2, fun c hc => ?_, hup, .insert hsorted hwithin hleft hright
    hp.leftOrdered hp.rightOrdered hp.above hp.below, ?_, hids ▸ hp.nodup, hids ▸ hp.allocated,
    hp.spine.2⟩
  · simp only [List.mem_append, List.mem_cons] at hc
    rcases hc with hc | rfl | rfl | hc
    · exact hp.context.2.1 c (List.mem_append_left _ hc)
    · exact hp.left
    · exact hp.right
    · exact hp.context.2.1 c (List.mem_append_right _ hc)
  · have hlinked := hp.linked
    simp only [Ctx.preLeaves, Ctx.postLeaves, List.append_assoc] at hlinked
    simpa using hlinked

/-- What the round reads: the parent, and where the left page is in it. -/
theorem Pending.parent (hp : Pending idx (.frame pid lk lc rk rc up) l k r) :
    some l.pid ≠ idx.rootPageId ∧ parentAt idx.pages l.pid = some pid ∧
      idx.internalAt pid = some ⟨lk ++ rk, lc.map Tree.pid ++ l.pid :: rc.map Tree.pid⟩ ∧
      l.pid ∉ lc.map Tree.pid := by
  have hcross := (List.nodup_append.mp hp.nodup).2.2
  have hlpid : l.pid ∈ l.ids ++ (r.ids ++ (Ctx.frame pid lk lc rk rc up).postIds) :=
    List.mem_append_left _ l.pid_mem_ids
  refine ⟨fun hroot => ?_, hp.spine.1, ?_, fun hmem => ?_⟩
  · rw [hp.root] at hroot
    exact hcross _ (Ctx.rootPid_mem pid lk lc rk rc up l.pid) _ hlpid (Option.some.inj hroot).symm
  · rw [BTreeIndex.internalAt, hp.context.1]
  · obtain ⟨c, hc, hpid⟩ := List.mem_map.mp hmem
    refine hcross c.pid ?_ l.pid hlpid hpid
    exact List.mem_append_right _ (List.mem_cons_of_mem _ (Tree.mem_ids_of_mem hc c.pid_mem_ids))

/-- **One round** at a page that is not the root. -/
theorem Pending.insertIntoParent_eq (hp : Pending idx (.frame pid lk lc rk rc up) l k r) (fuel : Nat) :
    BTreeIndex.insertIntoParent (fuel + 1) idx l.pid k r.pid =
      if (lk ++ rk).length ≥ internalMaxKeys then
        (idx.splitParent pid ⟨lk ++ k :: rk, (lc ++ l :: r :: rc).map Tree.pid⟩).bind fun x =>
          BTreeIndex.insertIntoParent fuel x.1 pid x.2.1 x.2.2
      else
        some { idx with
          pages := setParentId (setBody idx.pages pid
            (.internal ⟨lk ++ k :: rk, (lc ++ l :: r :: rc).map Tree.pid⟩)) r.pid pid } := by
  obtain ⟨hroot, hparent, hinternal, hnot⟩ := hp.parent
  have hlen : (lc.map Tree.pid).length = lk.length := by
    rw [List.length_map]
    exact hp.ordered.2.2.2.1.length
  have hbig : Internal.insertBehind ⟨lk ++ rk, lc.map Tree.pid ++ l.pid :: rc.map Tree.pid⟩ l.pid k
      r.pid = ⟨lk ++ k :: rk, lc.map Tree.pid ++ l.pid :: r.pid :: rc.map Tree.pid⟩ :=
    Internal.insertBehind_append hlen hnot k r.pid
  have hmap : (lc ++ l :: r :: rc).map Tree.pid =
      lc.map Tree.pid ++ l.pid :: r.pid :: rc.map Tree.pid := by simp
  rw [BTreeIndex.insertIntoParent, if_neg hroot]
  simp only [hparent, hinternal, Option.bind_eq_bind, Option.bind_some, Internal.insertAfter, hmap]
  rw [if_pos (List.mem_append_right _ List.mem_cons_self)]
  by_cases hfull : (lk ++ rk).length ≥ internalMaxKeys
  · simp only [if_pos hfull, hbig]
  · simp only [if_neg hfull, hbig]
    rfl

end Frame

theorem disjoint_of_nodup {a m b : List Nat} (h : (a ++ (m ++ b)).Nodup) :
    ∀ q ∈ m, q ∉ a ∧ q ∉ b := by
  obtain ⟨-, hmb, hcross⟩ := List.nodup_append.mp h
  intro q hq
  exact ⟨fun ha => hcross q ha q (List.mem_append_left _ hq) rfl,
    fun hb => (List.nodup_append.mp hmb).2.2 q hq q hb rfl⟩

section Widened

variable {idx idx' : BTreeIndex} {n h : Nat} {up : Ctx n (h + 1)} {pid : Nat} {ks : List Int}
  {cs : List (Tree h)}

/-- The page is none of the others. -/
theorem Widened.pid_fresh (hw : Widened idx up pid ks cs) :
    pid ∉ up.preIds ∧ pid ∉ up.postIds ∧ pid ∉ cs.flatMap Tree.ids := by
  obtain ⟨hpre, hpost⟩ := disjoint_of_nodup hw.nodup pid List.mem_cons_self
  refine ⟨hpre, hpost, ?_⟩
  have hmid := (List.nodup_append.mp (List.nodup_append.mp hw.nodup).2.1).1
  exact (List.nodup_cons.mp hmid).1

/-- **Room in the parent.** -/
theorem Widened.room (hw : Widened idx up pid ks cs) (hlen : ks.length ≤ internalMaxKeys)
    (hroot : idx'.rootPageId = idx.rootPageId) (hnext : idx'.nextPageId = idx.nextPageId)
    (hbody : ∀ q, bodyAt idx'.pages q =
      if q = pid then some (.internal ⟨ks, cs.map Tree.pid⟩) else bodyAt idx.pages q) :
    Represents idx' (up.plug (.node pid ks cs)) := by
  obtain ⟨hpre, hpost, hcs⟩ := hw.pid_fresh
  have hsame : ∀ q, q ≠ pid → bodyAt idx'.pages q = bodyAt idx.pages q := by
    intro q hq
    rw [hbody, if_neg hq]
  have hids : (up.plug (.node pid ks cs)).ids =
      up.preIds ++ ((pid :: cs.flatMap Tree.ids) ++ up.postIds) := by
    rw [up.ids_plug, Tree.ids_node]
  refine ⟨?_, (up.stored_plug _).mpr ⟨?_, ?_, fun c hc => ?_⟩, hw.ordered.plug (hw.spaced.ordered hlen pid),
    ?_, hids ▸ hw.nodup, ?_⟩
  · rw [hroot, hw.root, up.pid_plug, Tree.pid_node]
  · refine hw.context.congr fun q hq => hsame q ?_
    rintro rfl
    rcases hq with hq | hq
    · exact hpre hq
    · exact hpost hq
  · rw [hbody, if_pos rfl]
  · refine (hw.children c hc).congr fun q hq => hsame q ?_
    rintro rfl
    exact hcs (Tree.mem_ids_of_mem hc hq)
  · rw [up.leafIds_plug, Tree.leafIds_node]
    refine hw.linked.congr fun q hq => hsame q ?_
    rintro rfl
    rcases List.mem_append.mp hq with hq | hq
    · exact hpre (up.preLeaves_subset hq)
    · rcases List.mem_append.mp hq with hq | hq
      · obtain ⟨c, hc, hq⟩ := List.mem_flatMap.mp hq
        exact hcs (Tree.mem_ids_of_mem hc (c.leafIds_subset_ids hq))
      · exact hpost (up.postLeaves_subset hq)
  · rw [hids, hnext]
    exact hw.allocated

/-- **A full parent** is cut at the key at `mid`; the next round has its halves to put in. -/
theorem Widened.split (hw : Widened idx up pid ks cs) {mid : Nat} {k : Int} (hk : ks[mid]? = some k)
    (hmid : 0 < mid) (hleft : mid ≤ internalMaxKeys) (hright : ks.length ≤ mid + 1 + internalMaxKeys)
    (hroot : idx'.rootPageId = idx.rootPageId) (hnext : idx'.nextPageId = idx.nextPageId + 1)
    (hbody : ∀ q, bodyAt idx'.pages q =
      if q = idx.nextPageId then
        some (.internal ⟨ks.drop (mid + 1), (cs.drop (mid + 1)).map Tree.pid⟩)
      else if q = pid then some (.internal ⟨ks.take mid, (cs.take (mid + 1)).map Tree.pid⟩)
      else bodyAt idx.pages q)
    (hparent : ∀ q, q = pid ∨ q ∈ up.preIds → parentAt idx'.pages q = parentAt idx.pages q) :
    Pending idx' up (.node pid (ks.take mid) (cs.take (mid + 1))) k
      (.node idx.nextPageId (ks.drop (mid + 1)) (cs.drop (mid + 1))) := by
  obtain ⟨hpre, hpost, hcs⟩ := hw.pid_fresh
  obtain ⟨hl, hr, habove, hbelow⟩ := hw.spaced.split hk
  have hold : ∀ q ∈ up.preIds ++ ((pid :: cs.flatMap Tree.ids) ++ up.postIds), q ≠ pid →
      bodyAt idx'.pages q = bodyAt idx.pages q := by
    intro q hq hne
    rw [hbody, if_neg (Nat.ne_of_lt (hw.allocated q hq)), if_neg hne]
  have hpre' : ∀ q ∈ up.preIds, bodyAt idx'.pages q = bodyAt idx.pages q := by
    intro q hq
    refine hold q (List.mem_append_left _ hq) ?_
    rintro rfl
    exact hpre hq
  have hpost' : ∀ q ∈ up.postIds, bodyAt idx'.pages q = bodyAt idx.pages q := by
    intro q hq
    refine hold q (List.mem_append_right _ (List.mem_append_right _ hq)) ?_
    rintro rfl
    exact hpost hq
  have hcs' : ∀ c ∈ cs, ∀ q ∈ c.ids, bodyAt idx'.pages q = bodyAt idx.pages q := by
    intro c hc q hq
    have hmem := Tree.mem_ids_of_mem hc hq
    refine hold q (List.mem_append_right _ (List.mem_append_left _ (List.mem_cons_of_mem _ hmem))) ?_
    rintro rfl
    exact hcs hmem
  have hpid : pid ≠ idx.nextPageId :=
    Nat.ne_of_lt (hw.allocated pid (List.mem_append_right _ (List.mem_append_left _ List.mem_cons_self)))
  -- the halves have the old ids, and the new page
  have hids : (up.preIds ++ ((Tree.node pid (ks.take mid) (cs.take (mid + 1))).ids ++
      ((Tree.node idx.nextPageId (ks.drop (mid + 1)) (cs.drop (mid + 1))).ids ++ up.postIds))).Perm
      (idx.nextPageId :: (up.preIds ++ ((pid :: cs.flatMap Tree.ids) ++ up.postIds))) := by
    have hflat : cs.flatMap Tree.ids =
        (cs.take (mid + 1)).flatMap Tree.ids ++ (cs.drop (mid + 1)).flatMap Tree.ids := by
      rw [← List.flatMap_append, List.take_append_drop]
    rw [hflat, Tree.ids_node, Tree.ids_node]
    simp only [List.cons_append, List.append_assoc]
    refine .trans (.append_left _ (.cons _ List.perm_middle)) ?_
    exact .trans (.append_left _ (.swap _ _ _)) List.perm_middle
  have hstored : ∀ c ∈ cs, c.Stored idx'.pages := fun c hc => (hw.children c hc).congr (hcs' c hc)
  refine ⟨?_, ?_, ⟨?_, fun c hc => hstored c (List.mem_of_mem_take hc)⟩,
    ⟨?_, fun c hc => hstored c (List.mem_of_mem_drop hc)⟩, hw.ordered, hl.ordered ?_ pid,
    hr.ordered ?_ _, habove hmid, hbelow, ?_, ?_, fun p hp => ?_, ?_⟩
  · rw [hroot, hw.root, Tree.pid_node]
  · refine hw.context.congr fun q hq => ?_
    rcases hq with hq | hq
    · exact hpre' q hq
    · exact hpost' q hq
  · rw [hbody, if_neg hpid, if_pos rfl]
  · rw [hbody, if_pos rfl]
  · rw [List.length_take]
    exact Nat.le_trans (Nat.min_le_left _ _) hleft
  · rw [List.length_drop]
    omega
  · rw [Tree.leafIds_node, Tree.leafIds_node, ← List.append_assoc (List.flatMap _ _),
      ← List.flatMap_append, List.take_append_drop]
    refine hw.linked.congr fun q hq => ?_
    rcases List.mem_append.mp hq with hq | hq
    · exact hpre' q (up.preLeaves_subset hq)
    · rcases List.mem_append.mp hq with hq | hq
      · obtain ⟨c, hc, hq⟩ := List.mem_flatMap.mp hq
        exact hcs' c hc q (c.leafIds_subset_ids hq)
      · exact hpost' q (up.postLeaves_subset hq)
  · rw [hids.nodup_iff, List.nodup_cons]
    exact ⟨fun hm => Nat.lt_irrefl _ (hw.allocated _ hm), hw.nodup⟩
  · rw [hnext]
    rcases List.mem_cons.mp (hids.subset hp) with rfl | hp
    · exact Nat.lt_succ_self _
    · exact Nat.lt_succ_of_lt (hw.allocated p hp)
  · exact hw.spine.congr hparent

end Widened

-- ---------------------------------------------------------------------------
-- Splitting the parent
-- ---------------------------------------------------------------------------

section SplitParent

variable {idx : BTreeIndex} {n h : Nat} {up : Ctx n (h + 1)} {pid : Nat} {ks : List Int}
  {cs : List (Tree h)}

/-- The pages after a parent has been split at `mid`. -/
def splitPages (pages : Pages) (pid newPid : Nat) (ks : List Int) (cs : List Nat) (mid : Nat) : Pages :=
  setParentIds
    (setPage (setBody pages pid (.internal ⟨ks.take mid, cs.take (mid + 1)⟩)) newPid
      ⟨none, .internal ⟨ks.drop (mid + 1), cs.drop (mid + 1)⟩⟩)
    (cs.drop (mid + 1)) newPid

theorem splitParent_eq {pids : List Nat} {k : Int} (hk : ks[ks.length / 2]? = some k) :
    idx.splitParent pid ⟨ks, pids⟩ = some
      ({ idx with
        pages := splitPages idx.pages pid idx.nextPageId ks pids (ks.length / 2)
        nextPageId := idx.nextPageId + 1 }, k, idx.nextPageId) := by
  rw [BTreeIndex.splitParent]
  simp only [hk, Option.bind_eq_bind, Option.bind_some]
  rfl

theorem bodyAt_splitPages {pages : Pages} {newPid mid q : Nat} {pids : List Nat} :
    bodyAt (splitPages pages pid newPid ks pids mid) q =
      if q = newPid then some (.internal ⟨ks.drop (mid + 1), pids.drop (mid + 1)⟩)
      else if q = pid then some (.internal ⟨ks.take mid, pids.take (mid + 1)⟩)
      else bodyAt pages q := by
  rw [splitPages, bodyAt_setParentIds, bodyAt_setPage, bodyAt_setBody]

/-- The children of the right half get the new page as parent, and the new page none. -/
theorem Widened.parentAt_splitPages (hw : Widened idx up pid ks cs) {mid q : Nat} :
    parentAt (splitPages idx.pages pid idx.nextPageId ks (cs.map Tree.pid) mid) q =
      if q ∈ (cs.drop (mid + 1)).map Tree.pid then some idx.nextPageId
      else if q = idx.nextPageId then none else parentAt idx.pages q := by
  rw [splitPages, ← List.map_drop, parentAt_setParentIds, parentAt_setPage, parentAt_setBody]
  intro p hp
  obtain ⟨c, hc, rfl⟩ := List.mem_map.mp hp
  rw [bodyAt_setPage, bodyAt_setBody]
  split
  · rfl
  · split
    · rfl
    · exact (hw.children c (List.mem_of_mem_drop hc)).isSome

/-- Pages above, beside and below the children keep their `parent_id`. -/
theorem Widened.parentAt_of_not_child (hw : Widened idx up pid ks cs) {mid q : Nat}
    (hq : q < idx.nextPageId) (hchild : q ∉ cs.map Tree.pid) :
    parentAt (splitPages idx.pages pid idx.nextPageId ks (cs.map Tree.pid) mid) q =
      parentAt idx.pages q := by
  rw [hw.parentAt_splitPages, if_neg, if_neg (Nat.ne_of_lt hq)]
  intro hm
  rw [List.map_drop] at hm
  exact hchild (List.mem_of_mem_drop hm)

/-- A node below a child is no child. -/
theorem not_mem_pids_of_below {h : Nat} {cs : List (Tree h)} (hn : (cs.flatMap Tree.ids).Nodup)
    {c : Tree h} (hc : c ∈ cs) {q : Nat} (hq : q ∈ c.ids) (hne : q ≠ c.pid) :
    q ∉ cs.map Tree.pid := by
  intro hm
  obtain ⟨c', hc', rfl⟩ := List.mem_map.mp hm
  by_cases heq : c' = c
  · exact hne (congrArg Tree.pid heq)
  · have hsymm : Std.Symm (Function.onFun List.Disjoint (Tree.ids (h := h))) :=
      ⟨fun _ _ hd _ hb ha => hd ha hb⟩
    exact (List.nodup_flatMap.mp hn).2.forall hc' hc heq c'.pid_mem_ids hq

end SplitParent

-- ---------------------------------------------------------------------------
-- The cascade
-- ---------------------------------------------------------------------------

namespace Ctx

variable {n : Nat}

/-- The node around the hole. -/
def topPid : {h : Nat} → Ctx n h → Option Nat
  | _, .root => none
  | _, .frame pid _ _ _ _ _ => some pid

/-- No node that has no `parent_id` yet stays in the left half of a node that splits, when
a tree comes in behind the hole; `named`: its `parent_id` is right already. -/
def cascadeOk : {h : Nat} → Ctx n h → Bool → Bool
  | _, .root, _ => true
  | _, .frame _ lk lc rk _ up, named =>
    decide ((lk ++ rk).length < internalMaxKeys) ||
      ((named || decide (((lk ++ rk).length + 1) / 2 ≤ lc.length)) &&
        up.cascadeOk false)

end Ctx

section Parents

variable {idx : BTreeIndex} {n h : Nat} {pid : Nat} {lk rk : List Int} {lc rc : List (Tree h)}
  {up : Ctx n (h + 1)} {l r : Tree h} {k : Int} {named : Bool}

theorem Pending.newRoot_parents {l r : Tree n} (hp : Pending idx (.root : Ctx n n) l k r) :
    (Tree.node idx.nextPageId [k] [l, r]).Parents (idx.newRoot l.pid k r.pid).pages ↔
      l.Parents idx.pages ∧ r.Parents idx.pages := by
  have halloc := hp.allocated
  have hnodup := hp.nodup
  simp only [Ctx.preIds, Ctx.postIds, List.nil_append, List.append_nil] at halloc hnodup
  obtain ⟨hln, hrn, hcross⟩ := List.nodup_append.mp hnodup
  have hparent : ∀ q, parentAt (idx.newRoot l.pid k r.pid).pages q =
      if q ∈ [l.pid, r.pid] then some idx.nextPageId
      else if q = idx.nextPageId then none else parentAt idx.pages q :=
    fun q => parentAt_newRoot hp.left.isSome hp.right.isSome
  have hl : l.Parents (idx.newRoot l.pid k r.pid).pages ↔ l.Parents idx.pages := by
    refine Tree.parents_congr hln fun q hq hne => ?_
    rw [hparent, if_neg, if_neg (Nat.ne_of_lt (halloc q (List.mem_append_left _ hq)))]
    simp only [List.mem_cons, List.not_mem_nil, or_false, not_or]
    exact ⟨hne, hcross q hq r.pid r.pid_mem_ids⟩
  have hr : r.Parents (idx.newRoot l.pid k r.pid).pages ↔ r.Parents idx.pages := by
    refine Tree.parents_congr hrn fun q hq hne => ?_
    rw [hparent, if_neg, if_neg (Nat.ne_of_lt (halloc q (List.mem_append_right _ hq)))]
    simp only [List.mem_cons, List.not_mem_nil, or_false, not_or]
    exact ⟨fun heq => hcross l.pid l.pid_mem_ids q hq heq.symm, hne⟩
  have hlp := hparent l.pid
  have hrp := hparent r.pid
  rw [if_pos List.mem_cons_self] at hlp
  rw [if_pos (List.mem_cons_of_mem _ List.mem_cons_self)] at hrp
  constructor
  · intro h
    exact ⟨hl.mp (h l List.mem_cons_self).2, hr.mp (h r (List.mem_cons_of_mem _ List.mem_cons_self)).2⟩
  · rintro ⟨h1, h2⟩ c hc
    rcases List.mem_cons.mp hc with rfl | hc
    · exact ⟨hlp, hl.mpr h1⟩
    · rw [List.mem_singleton.mp hc]
      exact ⟨hrp, hr.mpr h2⟩

/-- Children outside the two trees are as they were. -/
theorem Pending.mem_children {c : Tree h} (hc : c ∈ lc ++ l :: r :: rc) :
    c = l ∨ c = r ∨ c ∈ lc ++ rc := by
  simp only [List.mem_append, List.mem_cons] at hc ⊢
  tauto

theorem Widened.nodup_children {ks : List Int} {cs : List (Tree h)} (hw : Widened idx up pid ks cs) :
    (cs.flatMap Tree.ids).Nodup :=
  (List.nodup_cons.mp (List.nodup_append.mp (List.nodup_append.mp hw.nodup).2.1).1).2

theorem Widened.child_lt {ks : List Int} {cs : List (Tree h)} (hw : Widened idx up pid ks cs)
    {q : Nat} (hq : q ∈ cs.flatMap Tree.ids) : q < idx.nextPageId :=
  hw.allocated q (List.mem_append_right _ (List.mem_append_left _ (List.mem_cons_of_mem _ hq)))

/-- Pages around the node are no children. -/
theorem Widened.around {ks : List Int} {cs : List (Tree h)} (hw : Widened idx up pid ks cs) {q : Nat}
    (hq : q = pid ∨ q ∈ up.preIds ∨ q ∈ up.postIds) : q ∉ cs.map Tree.pid ∧ q < idx.nextPageId := by
  have hnot : q ∉ cs.flatMap Tree.ids := by
    intro hm
    obtain ⟨hpre, hpost⟩ := disjoint_of_nodup hw.nodup q (List.mem_cons_of_mem pid hm)
    rcases hq with rfl | hq | hq
    · exact hw.pid_fresh.2.2 hm
    · exact hpre hq
    · exact hpost hq
  refine ⟨fun hm => ?_, hw.allocated q ?_⟩
  · obtain ⟨c, hc, rfl⟩ := List.mem_map.mp hm
    exact hnot (Tree.mem_ids_of_mem hc c.pid_mem_ids)
  · rcases hq with rfl | hq | hq
    · exact List.mem_append_right _ (List.mem_append_left _ List.mem_cons_self)
    · exact List.mem_append_left _ hq
    · exact List.mem_append_right _ (List.mem_append_right _ hq)

/-- **Room in the parent**: the new node gets its `parent_id`. -/
theorem Pending.room_parents (hp : Pending idx (.frame pid lk lc rk rc up) l k r) {pages' : Pages}
    (hsiblings : (Ctx.frame pid lk lc rk rc up).Parents idx.pages l.pid)
    (hparent : ∀ q, parentAt pages' q = if q = r.pid then some pid else parentAt idx.pages q) :
    (up.plug (.node pid (lk ++ k :: rk) (lc ++ l :: r :: rc))).Parents pages' ↔
      l.Parents idx.pages ∧ r.Parents idx.pages := by
  have hw := hp.widened
  have hrmem : r ∈ lc ++ l :: r :: rc :=
    List.mem_append_right _ (List.mem_cons_of_mem _ List.mem_cons_self)
  have hlmem : l ∈ lc ++ l :: r :: rc := List.mem_append_right _ List.mem_cons_self
  obtain ⟨hlpid, hrest, hup⟩ := hsiblings
  have hup' : up.Parents pages' pid := by
    refine hup.congr fun q hq => ?_
    rw [hparent, if_neg]
    rintro rfl
    exact (hw.around hq).1 (List.mem_map_of_mem hrmem)
  have hbelow : ∀ c ∈ lc ++ l :: r :: rc, (c.Parents pages' ↔ c.Parents idx.pages) := by
    intro c hc
    refine Tree.parents_congr ((List.nodup_flatMap.mp hw.nodup_children).1 c hc) fun q hq hne => ?_
    rw [hparent, if_neg]
    rintro rfl
    exact not_mem_pids_of_below hw.nodup_children hc hq hne (List.mem_map_of_mem hrmem)
  have htop : ∀ c ∈ lc ++ l :: r :: rc, parentAt pages' c.pid = some pid := by
    intro c hc
    rw [hparent]
    split
    · rfl
    · rename_i hne
      rcases Pending.mem_children hc with rfl | rfl | hc
      · exact hlpid
      · exact absurd rfl hne
      · exact (hrest c hc).1
  rw [up.parents_plug, Tree.pid_node]
  constructor
  · rintro ⟨-, hall⟩
    exact ⟨(hbelow l hlmem).mp (hall l hlmem).2, (hbelow r hrmem).mp (hall r hrmem).2⟩
  · rintro ⟨h1, h2⟩
    refine ⟨hup', fun c hc => ⟨htop c hc, (hbelow c hc).mpr ?_⟩⟩
    rcases Pending.mem_children hc with rfl | rfl | hc
    · exact h1
    · exact h2
    · exact (hrest c hc).2

/-- **A full parent**: the new node keeps what it has, unless it goes to the right half. -/
theorem Pending.split_parents (hp : Pending idx (.frame pid lk lc rk rc up) l k r)
    (hsiblings : (Ctx.frame pid lk lc rk rc up).Parents idx.pages l.pid)
    (hnamed : parentAt idx.pages r.pid = some pid ↔ named = true) {pages' : Pages} {mid : Nat}
    (hpages : pages' = splitPages idx.pages pid idx.nextPageId (lk ++ k :: rk)
      ((lc ++ l :: r :: rc).map Tree.pid) mid) :
    up.Parents pages' pid ∧
      ((Tree.node pid ((lk ++ k :: rk).take mid) ((lc ++ l :: r :: rc).take (mid + 1))).Parents pages' ∧
        (Tree.node idx.nextPageId ((lk ++ k :: rk).drop (mid + 1))
          ((lc ++ l :: r :: rc).drop (mid + 1))).Parents pages' ↔
        l.Parents idx.pages ∧ r.Parents idx.pages ∧ (named || decide (mid ≤ lc.length)) = true) := by
  have hw := hp.widened
  obtain ⟨hlpid, hrest, hup⟩ := hsiblings
  have hup' : up.Parents pages' pid := by
    refine hup.congr fun q hq => ?_
    rw [hpages]
    exact hw.parentAt_of_not_child (hw.around hq).2 (hw.around hq).1
  generalize hcs : lc ++ l :: r :: rc = cs at hw hpages
  have hmem : ∀ c ∈ cs, c = l ∨ c = r ∨ c ∈ lc ++ rc := by
    rw [← hcs]
    exact fun c hc => Pending.mem_children hc
  have hbelow : ∀ c ∈ cs, (c.Parents pages' ↔ c.Parents idx.pages) := by
    intro c hc
    refine Tree.parents_congr ((List.nodup_flatMap.mp hw.nodup_children).1 c hc) fun q hq hne => ?_
    rw [hpages]
    exact hw.parentAt_of_not_child (hw.child_lt (Tree.mem_ids_of_mem hc hq))
      (not_mem_pids_of_below hw.nodup_children hc hq hne)
  have hsplit : cs.take (mid + 1) ++ cs.drop (mid + 1) = cs := List.take_append_drop _ _
  have hpids : (cs.map Tree.pid).Nodup := by
    have hn := List.nodup_flatMap.mp hw.nodup_children
    refine List.pairwise_map.mpr (hn.2.imp fun hd heq => ?_)
    rename_i a b
    exact hd a.pid_mem_ids (heq ▸ b.pid_mem_ids)
  have hleft : ∀ c ∈ cs.take (mid + 1), parentAt pages' c.pid = parentAt idx.pages c.pid := by
    intro c hc
    have hclt := hw.child_lt (Tree.mem_ids_of_mem (List.mem_of_mem_take hc) c.pid_mem_ids)
    rw [hpages, hw.parentAt_splitPages, if_neg, if_neg (Nat.ne_of_lt hclt)]
    intro hm
    rw [← hsplit, List.map_append] at hpids
    exact (List.nodup_append.mp hpids).2.2 _ (List.mem_map_of_mem hc) _ hm rfl
  have hright : ∀ c ∈ cs.drop (mid + 1), parentAt pages' c.pid = some idx.nextPageId := by
    intro c hc
    rw [hpages, hw.parentAt_splitPages, if_pos (List.mem_map_of_mem hc)]
  have hlmem : l ∈ cs := by
    rw [← hcs]
    exact List.mem_append_right _ List.mem_cons_self
  have hrmem : r ∈ cs := by
    rw [← hcs]
    exact List.mem_append_right _ (List.mem_cons_of_mem _ List.mem_cons_self)
  refine ⟨hup', ?_⟩
  constructor
  · rintro ⟨h1, h2⟩
    have hall : ∀ c ∈ cs, c.Parents idx.pages := by
      intro c hc
      refine (hbelow c hc).mp ?_
      rw [← hsplit] at hc
      rcases List.mem_append.mp hc with hc | hc
      · exact (h1 c hc).2
      · exact (h2 c hc).2
    refine ⟨hall l hlmem, hall r hrmem, ?_⟩
    rw [Bool.or_eq_true, decide_eq_true_eq]
    by_cases hle : mid ≤ lc.length
    · exact .inr hle
    · refine .inl (hnamed.mp ?_)
      have hrtake : r ∈ cs.take (mid + 1) := by
        rw [← hcs, List.mem_take_iff_getElem]
        refine ⟨lc.length + 1, by simp; omega, ?_⟩
        rw [List.getElem_append_right (Nat.le_succ _)]
        simp
      rw [← hleft r hrtake]
      exact (h1 r hrtake).1
  · rintro ⟨h1, h2, hok⟩
    have hall : ∀ c ∈ cs, c.Parents pages' := by
      intro c hc
      refine (hbelow c hc).mpr ?_
      rcases hmem c hc with rfl | rfl | hc
      · exact h1
      · exact h2
      · exact (hrest c hc).2
    refine ⟨fun c hc => ⟨?_, hall c (List.mem_of_mem_take hc)⟩,
      fun c hc => ⟨hright c hc, hall c (List.mem_of_mem_drop hc)⟩⟩
    rw [hleft c hc]
    rw [Bool.or_eq_true, decide_eq_true_eq] at hok
    rcases hmem c (List.mem_of_mem_take hc) with rfl | rfl | hc'
    · exact hlpid
    · rcases hok with hok | hok
      · exact hnamed.mpr hok
      · -- the right tree is not among the first `mid + 1` children
        exfalso
        have hdrop : c ∈ cs.drop (mid + 1) := by
          rw [← hcs, show lc ++ l :: c :: rc = (lc ++ [l]) ++ c :: rc by simp, List.drop_append]
          refine List.mem_append_right _ ?_
          rw [List.length_append, List.length_singleton, Nat.sub_eq_zero_of_le (by omega)]
          exact List.mem_cons_self
        rw [← hsplit, List.map_append] at hpids
        exact (List.nodup_append.mp hpids).2.2 _ (List.mem_map_of_mem hc) _
          (List.mem_map_of_mem hdrop) rfl
    · exact (hrest c hc').1

end Parents

/-- What the whole cascade leads to. -/
structure Settled (idx idx' : BTreeIndex) {n h m : Nat} (c : Ctx n h) (l r : Tree h) (named : Bool)
    (t : Tree m) : Prop where
  represents : Represents idx' t
  entries : t.entries = c.preEntries ++ (l.entries ++ (r.entries ++ c.postEntries))
  /-- One page for each node that splits, and one for a new root. -/
  next : idx'.nextPageId ≤ idx.nextPageId + (c.depth + 1)
  parents : c.Parents idx.pages l.pid → (t.Parents idx'.pages ↔
    l.Parents idx.pages ∧ r.Parents idx.pages ∧ c.cascadeOk named = true)

/-- **`insert_into_parent`** puts the two trees in, whatever has to split on the way up. The
induction is on the context. -/
theorem Pending.insertIntoParent {n h : Nat} {c : Ctx n h} : ∀ {idx : BTreeIndex} {l r : Tree h}
    {k : Int} {fuel : Nat} {named : Bool}, Pending idx c l k r → c.depth < fuel →
    (∀ pid, c.topPid = some pid → (parentAt idx.pages r.pid = some pid ↔ named = true)) →
    ∃ (idx' : BTreeIndex) (m : Nat) (t : Tree m),
      BTreeIndex.insertIntoParent fuel idx l.pid k r.pid = some idx' ∧
        Settled idx idx' c l r named t := by
  induction c with
  | root =>
    intro idx l r k fuel named hp hfuel _
    obtain ⟨fuel, rfl⟩ : ∃ m, fuel = m + 1 := ⟨fuel - 1, by omega⟩
    refine ⟨_, _, _, ?_, hp.newRoot, ?_, Nat.le_refl _, fun _ => ?_⟩
    · have hroot : some l.pid = idx.rootPageId := hp.root.symm
      rw [BTreeIndex.insertIntoParent, if_pos hroot]
    · simp [Ctx.preEntries, Ctx.postEntries]
    · rw [hp.newRoot_parents]
      simp [Ctx.cascadeOk]
  | frame pid lk lc rk rc up ih =>
    intro idx l r k fuel named hp hfuel hnamed
    rw [Ctx.depth] at hfuel
    obtain ⟨fuel, rfl⟩ : ∃ m, fuel = m + 1 := ⟨fuel - 1, by omega⟩
    have hw := hp.widened
    have hcap := hp.ordered.2.1
    have hentries : up.preEntries ++ ((lc ++ l :: r :: rc).flatMap Tree.entries ++ up.postEntries) =
        (Ctx.frame pid lk lc rk rc up).preEntries ++
          (l.entries ++ (r.entries ++ (Ctx.frame pid lk lc rk rc up).postEntries)) := by
      simp [Ctx.preEntries, Ctx.postEntries]
    rw [hp.insertIntoParent_eq]
    by_cases hfull : (lk ++ rk).length ≥ internalMaxKeys
    · rw [if_pos hfull]
      have hlen : (lk ++ k :: rk).length = internalMaxKeys + 1 := by
        simp only [List.length_append, List.length_cons] at hfull hcap ⊢
        omega
      have hmax : internalMaxKeys = 340 := rfl
      obtain ⟨k', hk'⟩ : ∃ k', (lk ++ k :: rk)[(lk ++ k :: rk).length / 2]? = some k' :=
        ⟨_, List.getElem?_eq_getElem (by omega)⟩
      rw [splitParent_eq hk', Option.bind_some]
      generalize hpages : splitPages idx.pages pid idx.nextPageId (lk ++ k :: rk)
        ((lc ++ l :: r :: rc).map Tree.pid) ((lk ++ k :: rk).length / 2) = pages'
      have hpending := @Widened.split idx ⟨pages', idx.nextPageId + 1, idx.rootPageId⟩ _ _ _ _ _ _ hw
        _ _ hk' (by omega) (by omega) (by omega) rfl rfl
        (fun q => by
          show bodyAt pages' q = _
          rw [← hpages, bodyAt_splitPages, List.map_take, List.map_drop])
        (fun q hq => by
          have ha := hw.around (hq.imp_right .inl)
          show parentAt pages' q = _
          rw [← hpages]
          exact hw.parentAt_of_not_child ha.2 ha.1)
      have hnone : parentAt pages' idx.nextPageId = none := by
        rw [← hpages, hw.parentAt_splitPages, if_neg, if_pos rfl]
        intro hm
        obtain ⟨c, hc, hpid⟩ := List.mem_map.mp hm
        have := hw.child_lt (Tree.mem_ids_of_mem (List.mem_of_mem_drop hc) c.pid_mem_ids)
        omega
      obtain ⟨idx', m, t, hrun, hsettled⟩ := @ih _ _ _ _ fuel false hpending (by omega) (by
        intro pid' _
        rw [Tree.pid_node, hnone]
        simp)
      refine ⟨idx', m, t, hrun, hsettled.represents, ?_, ?_, fun hsiblings => ?_⟩
      · rw [hsettled.entries, ← hentries, Tree.entries_node, Tree.entries_node,
          ← List.append_assoc (List.flatMap _ _), ← List.flatMap_append, List.take_append_drop]
      · refine Nat.le_trans hsettled.next ?_
        show idx.nextPageId + 1 + (up.depth + 1) ≤ idx.nextPageId + (up.depth + 1 + 1)
        omega
      · obtain ⟨hup, hhalves⟩ := hp.split_parents hsiblings (hnamed pid rfl) hpages.symm
        rw [hsettled.parents hup, ← and_assoc, hhalves, Ctx.cascadeOk,
          decide_eq_false (Nat.not_lt.mpr hfull), Bool.false_or, Bool.and_eq_true]
        have hmid : (lk ++ k :: rk).length / 2 = ((lk ++ rk).length + 1) / 2 := by
          simp only [List.length_append, List.length_cons, Nat.add_assoc]
        rw [hmid]
        tauto
    · rw [if_neg hfull]
      have hrpid : r.pid ≠ pid := by
        rintro heq
        refine hw.pid_fresh.2.2 (heq ▸ Tree.mem_ids_of_mem (c := r) ?_ r.pid_mem_ids)
        exact List.mem_append_right _ (List.mem_cons_of_mem _ List.mem_cons_self)
      have hbig : (lk ++ k :: rk).length ≤ internalMaxKeys := by
        simp only [List.length_append, List.length_cons] at hfull ⊢
        omega
      refine ⟨_, _, up.plug (.node pid (lk ++ k :: rk) (lc ++ l :: r :: rc)), rfl,
        hw.room hbig rfl rfl fun q => ?_, ?_, Nat.le_add_right _ _, fun hsiblings => ?_⟩
      · rw [bodyAt_setParentId, bodyAt_setBody]
      · rw [up.entries_plug, Tree.entries_node, hentries]
      · rw [hp.room_parents hsiblings fun q => ?_, Ctx.cascadeOk, decide_eq_true (Nat.not_le.mp hfull)]
        · simp
        · rw [parentAt_setParentId, parentAt_setBody]
          rw [bodyAt_setBody, if_neg hrpid]
          exact hp.right.isSome

end PersistX.Btree
