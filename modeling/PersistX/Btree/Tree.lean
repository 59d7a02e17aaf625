import PersistX.Btree.Index
import PersistX.Lib.Separated
import Mathlib.Data.List.Nodup
import Mathlib.Data.List.Perm.Subperm

/-!
# PersistX — the tree that the pages store

`Tree h` is a B+ tree with `h` internal levels above its leaves, without the
pages: page ids, keys and entries. That all leaves are at one depth is part of
the type. `Stored` says that pages hold such a tree, `Ordered` that its keys
and capacities are right between two bounds, `Linked` that the leaves form one
chain, `Parents` that the `parent_id` fields below a node are right.

A `Ctx n h` is a tree of height `n` with a hole for trees of height `h`: the
nodes on the way from the hole to the root, each with what it has left and right
of the way. `plug` fills the hole, and each of the notions above says of a
plugged tree what it says of context and filling.
-/

namespace PersistX.Btree

open Separators

/-- A leaf of a tree. -/
structure TreeLeaf where
  pid : Nat
  entries : List Entry

/-- An internal node of a tree with subtrees from `T`. -/
structure TreeNode (T : Type) where
  pid : Nat
  keys : List Int
  children : List T

/-- A B+ tree with `h` levels of internal nodes. -/
def Tree : Nat → Type
  | 0 => TreeLeaf
  | h + 1 => TreeNode (Tree h)

/-- A key between two bounds: not below the lower one, below the upper one. -/
structure Within (lo hi : Option Int) (k : Int) : Prop where
  lo : ∀ l, lo = some l → l ≤ k
  hi : ∀ u, hi = some u → k < u

theorem within_none (k : Int) : Within none none k where
  lo _ h := absurd h (Option.some_ne_none _).symm
  hi _ h := absurd h (Option.some_ne_none _).symm

namespace Tree

@[match_pattern] def leaf (pid : Nat) (entries : List Entry) : Tree 0 := TreeLeaf.mk pid entries

@[match_pattern] def node {h : Nat} (pid : Nat) (keys : List Int) (children : List (Tree h)) :
    Tree (h + 1) :=
  TreeNode.mk pid keys children

/-- The page id of the top node. -/
def pid : {h : Nat} → Tree h → Nat
  | 0, .leaf p _ => p
  | _ + 1, .node p _ _ => p

/-- The page ids of all nodes. -/
def ids : {h : Nat} → Tree h → List Nat
  | 0, .leaf p _ => [p]
  | _ + 1, .node p _ cs => p :: cs.flatMap ids

/-- The page ids of the leaves, left to right. -/
def leafIds : {h : Nat} → Tree h → List Nat
  | 0, .leaf p _ => [p]
  | _ + 1, .node _ _ cs => cs.flatMap leafIds

/-- The entries of the leaves, left to right. -/
def entries : {h : Nat} → Tree h → List Entry
  | 0, .leaf _ es => es
  | _ + 1, .node _ _ cs => cs.flatMap entries

/-- The page ids of the internal nodes. -/
def innerIds : {h : Nat} → Tree h → List Nat
  | 0, .leaf _ _ => []
  | _ + 1, .node p _ cs => p :: cs.flatMap innerIds

/-- The keys in the internal nodes. -/
def separators : {h : Nat} → Tree h → List Int
  | 0, .leaf _ _ => []
  | _ + 1, .node _ ks cs => ks ++ cs.flatMap separators

/-- The pages hold the tree, up to the `parent_id` and `next_leaf_id` fields. -/
def Stored (pages : Pages) : {h : Nat} → Tree h → Prop
  | 0, .leaf p es => ∃ next, bodyAt pages p = some (.leaf ⟨next, es⟩)
  | _ + 1, .node p ks cs =>
    bodyAt pages p = some (.internal ⟨ks, cs.map pid⟩) ∧ ∀ c ∈ cs, c.Stored pages

/-- Keys strictly increasing and between the bounds, capacities respected, RIDs valid. -/
def Ordered : {h : Nat} → Option Int → Option Int → Tree h → Prop
  | 0, lo, hi, .leaf _ es =>
    Sorted es ∧ es.length ≤ leafMaxEntries ∧ ∀ e ∈ es, Within lo hi e.1 ∧ e.2.isValid = true
  | _ + 1, lo, hi, .node _ ks cs =>
    ks.Pairwise (· < ·) ∧ ks.length ≤ internalMaxKeys ∧ (∀ k ∈ ks, Within lo hi k) ∧
      Separated Ordered lo ks cs hi

/-- Every node below the top one has its parent's page id in `parent_id`. -/
def Parents (pages : Pages) : {h : Nat} → Tree h → Prop
  | 0, .leaf _ _ => True
  | _ + 1, .node p _ cs => ∀ c ∈ cs, parentAt pages c.pid = some p ∧ c.Parents pages

section

variable {h : Nat} {p : Nat} {es : List Entry} {ks : List Int} {cs : List (Tree h)}

@[simp] theorem pid_leaf : (leaf p es).pid = p := rfl

@[simp] theorem pid_node : (node p ks cs).pid = p := rfl

@[simp] theorem ids_leaf : (leaf p es).ids = [p] := rfl

@[simp] theorem ids_node : (node p ks cs).ids = p :: cs.flatMap ids := rfl

@[simp] theorem leafIds_leaf : (leaf p es).leafIds = [p] := rfl

@[simp] theorem leafIds_node : (node p ks cs).leafIds = cs.flatMap leafIds := rfl

@[simp] theorem entries_leaf : (leaf p es).entries = es := rfl

@[simp] theorem entries_node : (node p ks cs).entries = cs.flatMap entries := rfl

end

theorem pid_mem_ids : {h : Nat} → (t : Tree h) → t.pid ∈ t.ids
  | 0, .leaf p _ => List.mem_cons_self (a := p)
  | _ + 1, .node p _ _ => List.mem_cons_self (a := p)

theorem leafIds_subset_ids : {h : Nat} → (t : Tree h) → t.leafIds ⊆ t.ids
  | 0, .leaf p _ => List.Subset.refl [p]
  | _ + 1, .node p _ cs => by
    intro x hx
    obtain ⟨c, hc, hx⟩ := List.mem_flatMap.mp hx
    exact List.mem_cons_of_mem p (List.mem_flatMap.mpr ⟨c, hc, c.leafIds_subset_ids hx⟩)

theorem mem_ids_of_mem {h : Nat} {cs : List (Tree h)} {c : Tree h} (hc : c ∈ cs) {q : Nat}
    (hq : q ∈ c.ids) : q ∈ cs.flatMap ids := List.mem_flatMap.mpr ⟨c, hc, hq⟩

/-- Separated children keep increasing keys increasing, and between the outer bounds. -/
theorem separated_entries {T : Type} {P : Option Int → Option Int → T → Prop} {f : T → List Entry}
    (hP : ∀ lo hi c, P lo hi c → Sorted (f c) ∧ ∀ e ∈ f c, Within lo hi e.1) {hi : Option Int} :
    ∀ {ks : List Int} {cs : List T} {lo : Option Int}, ks.Pairwise (· < ·) →
      (∀ k ∈ ks, Within lo hi k) → Separated P lo ks cs hi →
        Sorted (cs.flatMap f) ∧ ∀ e ∈ cs.flatMap f, Within lo hi e.1 := by
  intro ks
  induction ks with
  | nil =>
    intro cs lo _ _ h
    match cs, h with
    | [c], h =>
      rw [List.flatMap_singleton]
      exact hP _ _ c h
  | cons k ks ih =>
    intro cs lo hks hwithin h
    match cs, h with
    | c :: cs, ⟨hc, h⟩ =>
      obtain ⟨hk, hks⟩ := List.pairwise_cons.mp hks
      have hkw := hwithin k List.mem_cons_self
      obtain ⟨hs₁, hw₁⟩ := hP _ _ c hc
      obtain ⟨hs₂, hw₂⟩ := ih hks (fun k' hk' => ⟨fun l hl => by
        rw [← Option.some.inj hl]
        exact Int.le_of_lt (hk k' hk'), (hwithin k' (List.mem_cons_of_mem _ hk')).hi⟩) h
      rw [List.flatMap_cons]
      refine ⟨List.pairwise_append.mpr ⟨hs₁, hs₂, fun a ha b hb => ?_⟩, fun e he => ?_⟩
      · exact Int.lt_of_lt_of_le ((hw₁ a ha).hi k rfl) ((hw₂ b hb).lo k rfl)
      · rcases List.mem_append.mp he with he | he
        · exact ⟨(hw₁ e he).lo, fun u hu => Int.lt_trans ((hw₁ e he).hi k rfl) (hkw.hi u hu)⟩
        · exact ⟨fun l hl => Int.le_trans (hkw.lo l hl) ((hw₂ e he).lo k rfl), (hw₂ e he).hi⟩

/-- The entries of an ordered tree are sorted and between its bounds. -/
theorem Ordered.sorted_entries :
    {h : Nat} → {t : Tree h} → {lo hi : Option Int} → t.Ordered lo hi →
      Sorted t.entries ∧ ∀ e ∈ t.entries, Within lo hi e.1
  | 0, .leaf _ _, _, _, ⟨hs, _, hw⟩ => ⟨hs, fun e he => (hw e he).1⟩
  | h + 1, .node _ _ _, _, _, ⟨hks, _, hw, hsep⟩ =>
    separated_entries (P := @Ordered h) (fun _ _ _ hc => hc.sorted_entries) hks hw hsep

/-- A tree has one leaf more than separators. -/
theorem Ordered.length_leafIds :
    {h : Nat} → {t : Tree h} → {lo hi : Option Int} → t.Ordered lo hi →
      t.leafIds.length = t.separators.length + 1
  | 0, .leaf _ _, _, _, _ => rfl
  | h + 1, .node p ks cs, _, _, ⟨_, _, _, hsep⟩ => by
    have hcs : ∀ cs' : List (Tree h), (∀ c ∈ cs', c ∈ cs) → (cs'.flatMap leafIds).length =
        (cs'.flatMap separators).length + cs'.length := by
      intro cs' hmem
      induction cs' with
      | nil => rfl
      | cons c cs' ih =>
        obtain ⟨lo', hi', hc⟩ := hsep.exists_of_mem (hmem c List.mem_cons_self)
        have h1 := Ordered.length_leafIds hc
        have h2 := ih fun x hx => hmem x (List.mem_cons_of_mem _ hx)
        simp only [List.flatMap_cons, List.length_append, List.length_cons]
        omega
    have h1 := hcs cs fun _ hc => hc
    have h2 := hsep.length
    show (cs.flatMap leafIds).length = (ks ++ cs.flatMap separators).length + 1
    rw [List.length_append]
    omega

/-- A tree's pages may change elsewhere. -/
theorem Stored.congr {pages pages' : Pages} :
    {h : Nat} → {t : Tree h} → t.Stored pages →
      (∀ q ∈ t.ids, bodyAt pages' q = bodyAt pages q) → t.Stored pages'
  | 0, .leaf p _, ⟨next, hs⟩, hq => ⟨next, (hq p (pid_mem_ids (leaf p _))).trans hs⟩
  | _ + 1, .node p _ _, hs, hq =>
    ⟨(hq p List.mem_cons_self).trans hs.1, fun c hc =>
      (hs.2 c hc).congr fun q hqc => hq q (List.mem_cons_of_mem p (mem_ids_of_mem hc hqc))⟩

theorem Stored.isSome {pages : Pages} :
    {h : Nat} → {t : Tree h} → t.Stored pages → (bodyAt pages t.pid).isSome = true
  | 0, .leaf _ _, ⟨_, hs⟩ => Option.isSome_of_mem hs
  | _ + 1, .node _ _ _, hs => Option.isSome_of_mem hs.1

theorem Parents.congr {pages pages' : Pages} :
    {h : Nat} → {t : Tree h} → t.Parents pages →
      (∀ q ∈ t.ids, parentAt pages' q = parentAt pages q) → t.Parents pages'
  | 0, .leaf _ _, _, _ => trivial
  | _ + 1, .node p _ _, hp, hq => fun c hc => by
    have hbelow : ∀ q ∈ c.ids, parentAt pages' q = parentAt pages q := fun q hqc =>
      hq q (List.mem_cons_of_mem p (mem_ids_of_mem hc hqc))
    exact ⟨(hbelow c.pid c.pid_mem_ids).trans (hp c hc).1, (hp c hc).2.congr hbelow⟩

/-- The `parent_id` fields below a node may change elsewhere. -/
theorem parents_congr {pages pages' : Pages} :
    {h : Nat} → {t : Tree h} → t.ids.Nodup →
      (∀ q ∈ t.ids, q ≠ t.pid → parentAt pages' q = parentAt pages q) →
        (t.Parents pages' ↔ t.Parents pages)
  | 0, .leaf _ _, _, _ => Iff.rfl
  | _ + 1, .node p ks cs, hn, hq => by
    obtain ⟨hp, hcs⟩ := List.nodup_cons.mp hn
    have hbelow : ∀ c ∈ cs, ∀ q ∈ c.ids, parentAt pages' q = parentAt pages q := by
      intro c hc q hqc
      have hmem := mem_ids_of_mem hc hqc
      refine hq q (List.mem_cons_of_mem p hmem) ?_
      rintro rfl
      exact hp hmem
    refine forall₂_congr fun c hc => ?_
    rw [hbelow c hc c.pid c.pid_mem_ids,
      parents_congr ((List.nodup_flatMap.mp hcs).1 c hc) fun q hqc _ => hbelow c hc q hqc]

end Tree

-- ---------------------------------------------------------------------------
-- The leaf chain
-- ---------------------------------------------------------------------------

/-- The `next_leaf_id` fields chain the pages in this order and end the chain. -/
def Linked (pages : Pages) : List Nat → Prop
  | [] => True
  | p :: ps => (∃ es, bodyAt pages p = some (.leaf ⟨ps.head?, es⟩)) ∧ Linked pages ps

theorem Linked.congr {pages pages' : Pages} {ps : List Nat} (h : Linked pages ps)
    (hb : ∀ p ∈ ps, bodyAt pages' p = bodyAt pages p) : Linked pages' ps := by
  induction ps with
  | nil => trivial
  | cons p ps ih =>
    obtain ⟨es, he⟩ := h.1
    exact ⟨⟨es, (hb p List.mem_cons_self).trans he⟩,
      ih h.2 fun q hq => hb q (List.mem_cons_of_mem _ hq)⟩

theorem Linked.right {pages : Pages} {a b : List Nat} (h : Linked pages (a ++ b)) :
    Linked pages b := by
  induction a with
  | nil => exact h
  | cons p a ih => exact ih h.2

/-- Put a new page `q` behind the page `p` of the chain. -/
theorem Linked.insert_behind {pages pages' : Pages} {a b : List Nat} {p q : Nat}
    {es es' : List Entry} (h : Linked pages (a ++ p :: b))
    (hp : bodyAt pages' p = some (.leaf ⟨some q, es⟩))
    (hq : bodyAt pages' q = some (.leaf ⟨b.head?, es'⟩))
    (ha : ∀ x ∈ a, bodyAt pages' x = bodyAt pages x)
    (hb : ∀ x ∈ b, bodyAt pages' x = bodyAt pages x) : Linked pages' (a ++ p :: q :: b) := by
  induction a with
  | nil => exact ⟨⟨es, hp⟩, ⟨es', hq⟩, h.2.congr hb⟩
  | cons x a ih =>
    obtain ⟨ex, hx⟩ := h.1
    refine ⟨⟨ex, ?_⟩, ih h.2 fun y hy => ha y (List.mem_cons_of_mem _ hy)⟩
    rw [ha x List.mem_cons_self, hx]
    cases a <;> rfl

/-- Change the entries of one page of the chain. -/
theorem Linked.set_entries {pages pages' : Pages} {a b : List Nat} {p : Nat} {es : List Entry}
    (h : Linked pages (a ++ p :: b)) (hp : bodyAt pages' p = some (.leaf ⟨b.head?, es⟩))
    (ha : ∀ x ∈ a, bodyAt pages' x = bodyAt pages x)
    (hb : ∀ x ∈ b, bodyAt pages' x = bodyAt pages x) : Linked pages' (a ++ p :: b) := by
  induction a with
  | nil => exact ⟨⟨es, hp⟩, h.2.congr hb⟩
  | cons x a ih =>
    obtain ⟨ex, hx⟩ := h.1
    exact ⟨⟨ex, (ha x List.mem_cons_self).trans hx⟩,
      ih h.2 fun y hy => ha y (List.mem_cons_of_mem _ hy)⟩

-- ---------------------------------------------------------------------------
-- Contexts
-- ---------------------------------------------------------------------------

/-- A tree of height `n` with a hole for trees of height `h`, from the hole up. -/
inductive Ctx (n : Nat) : Nat → Type where
  | root : Ctx n n
  | frame {h : Nat} (pid : Nat) (lk : List Int) (lc : List (Tree h)) (rk : List Int)
      (rc : List (Tree h)) (up : Ctx n (h + 1)) : Ctx n h

namespace Ctx

variable {n : Nat}

/-- Fill the hole. -/
def plug : {h : Nat} → Ctx n h → Tree h → Tree n
  | _, .root, t => t
  | _, .frame pid lk lc rk rc up, t => up.plug (.node pid (lk ++ rk) (lc ++ t :: rc))

/-- The page id of the root, if `hole` is the page id of what fills the hole. -/
def rootPid : {h : Nat} → Ctx n h → Nat → Nat
  | _, .root, hole => hole
  | _, .frame pid _ _ _ _ up, _ => up.rootPid pid

/-- The number of nodes above the hole. -/
def depth : {h : Nat} → Ctx n h → Nat
  | _, .root => 0
  | _, .frame _ _ _ _ _ up => up.depth + 1

/-- The page ids before the hole, in the order of `Tree.ids`. -/
def preIds : {h : Nat} → Ctx n h → List Nat
  | _, .root => []
  | _, .frame pid _ lc _ _ up => up.preIds ++ pid :: lc.flatMap Tree.ids

/-- The page ids behind the hole. -/
def postIds : {h : Nat} → Ctx n h → List Nat
  | _, .root => []
  | _, .frame _ _ _ _ rc up => rc.flatMap Tree.ids ++ up.postIds

/-- The leaves before the hole. -/
def preLeaves : {h : Nat} → Ctx n h → List Nat
  | _, .root => []
  | _, .frame _ _ lc _ _ up => up.preLeaves ++ lc.flatMap Tree.leafIds

/-- The leaves behind the hole. -/
def postLeaves : {h : Nat} → Ctx n h → List Nat
  | _, .root => []
  | _, .frame _ _ _ _ rc up => rc.flatMap Tree.leafIds ++ up.postLeaves

/-- The entries before the hole. -/
def preEntries : {h : Nat} → Ctx n h → List Entry
  | _, .root => []
  | _, .frame _ _ lc _ _ up => up.preEntries ++ lc.flatMap Tree.entries

/-- The entries behind the hole. -/
def postEntries : {h : Nat} → Ctx n h → List Entry
  | _, .root => []
  | _, .frame _ _ _ _ rc up => rc.flatMap Tree.entries ++ up.postEntries

/-- The lower bound of the hole. -/
def lo : {h : Nat} → Ctx n h → Option Int
  | _, .root => none
  | _, .frame _ lk _ _ _ up => lastBound up.lo lk

/-- The upper bound of the hole. -/
def hi : {h : Nat} → Ctx n h → Option Int
  | _, .root => none
  | _, .frame _ _ _ rk _ up => firstBound rk up.hi

/-- The pages hold the context, with page `hole` in the hole. -/
def Stored (pages : Pages) : {h : Nat} → Ctx n h → Nat → Prop
  | _, .root, _ => True
  | _, .frame pid lk lc rk rc up, hole =>
    bodyAt pages pid = some (.internal ⟨lk ++ rk, lc.map Tree.pid ++ hole :: rc.map Tree.pid⟩) ∧
      (∀ c ∈ lc ++ rc, c.Stored pages) ∧ up.Stored pages pid

/-- The nodes above the hole and what they have beside it are ordered. -/
def Ordered : {h : Nat} → Ctx n h → Prop
  | _, .root => True
  | _, .frame _ lk lc rk rc up =>
    (lk ++ rk).Pairwise (· < ·) ∧ (lk ++ rk).length ≤ internalMaxKeys ∧
      (∀ k ∈ lk ++ rk, Within up.lo up.hi k) ∧ SeparatedLeft Tree.Ordered up.lo lk lc ∧
      SeparatedRight Tree.Ordered rk rc up.hi ∧ up.Ordered

/-- Every `parent_id` outside the hole, and that of page `hole`, is right. -/
def Parents (pages : Pages) : {h : Nat} → Ctx n h → Nat → Prop
  | _, .root, _ => True
  | _, .frame pid _ lc _ rc up, hole =>
    parentAt pages hole = some pid ∧
      (∀ c ∈ lc ++ rc, parentAt pages c.pid = some pid ∧ c.Parents pages) ∧
      up.Parents pages pid

-- Plugging -------------------------------------------------------------------

theorem pid_plug {h : Nat} (c : Ctx n h) (t : Tree h) : (c.plug t).pid = c.rootPid t.pid := by
  induction c with
  | root => rfl
  | frame pid lk lc rk rc up ih => exact ih _

theorem ids_plug {h : Nat} (c : Ctx n h) (t : Tree h) :
    (c.plug t).ids = c.preIds ++ (t.ids ++ c.postIds) := by
  induction c with
  | root => simp [plug, preIds, postIds]
  | frame pid lk lc rk rc up ih => simp [plug, preIds, postIds, ih]

theorem leafIds_plug {h : Nat} (c : Ctx n h) (t : Tree h) :
    (c.plug t).leafIds = c.preLeaves ++ (t.leafIds ++ c.postLeaves) := by
  induction c with
  | root => simp [plug, preLeaves, postLeaves]
  | frame pid lk lc rk rc up ih => simp [plug, preLeaves, postLeaves, ih]

theorem entries_plug {h : Nat} (c : Ctx n h) (t : Tree h) :
    (c.plug t).entries = c.preEntries ++ (t.entries ++ c.postEntries) := by
  induction c with
  | root => simp [plug, preEntries, postEntries]
  | frame pid lk lc rk rc up ih => simp [plug, preEntries, postEntries, ih]

theorem stored_plug {pages : Pages} {h : Nat} (c : Ctx n h) (t : Tree h) :
    (c.plug t).Stored pages ↔ c.Stored pages t.pid ∧ t.Stored pages := by
  induction c with
  | root => simp [plug, Stored]
  | frame pid lk lc rk rc up ih =>
    rw [plug, ih, Tree.pid_node]
    simp only [Tree.Stored, Stored, List.map_append, List.map_cons, List.mem_append, List.mem_cons]
    constructor
    · rintro ⟨hup, hbody, hcs⟩
      exact ⟨⟨hbody, fun c hc => hcs c (hc.imp_right .inr), hup⟩, hcs t (.inr (.inl rfl))⟩
    · rintro ⟨⟨hbody, hcs, hup⟩, ht⟩
      refine ⟨hup, hbody, fun c hc => ?_⟩
      rcases hc with hc | rfl | hc
      · exact hcs c (.inl hc)
      · exact ht
      · exact hcs c (.inr hc)

theorem parents_plug {pages : Pages} {h : Nat} (c : Ctx n h) (t : Tree h) :
    (c.plug t).Parents pages ↔ c.Parents pages t.pid ∧ t.Parents pages := by
  induction c with
  | root => simp [plug, Parents]
  | frame pid lk lc rk rc up ih =>
    rw [plug, ih, Tree.pid_node]
    simp only [Tree.Parents, Parents, List.mem_append, List.mem_cons]
    constructor
    · rintro ⟨hup, hcs⟩
      exact ⟨⟨(hcs t (.inr (.inl rfl))).1, fun c hc => hcs c (hc.imp_right .inr), hup⟩,
        (hcs t (.inr (.inl rfl))).2⟩
    · rintro ⟨⟨hhole, hcs, hup⟩, ht⟩
      refine ⟨hup, fun c hc => ?_⟩
      rcases hc with hc | rfl | hc
      · exact hcs c (.inl hc)
      · exact ⟨hhole, ht⟩
      · exact hcs c (.inr hc)

/-- A tree between the bounds of the hole goes in. -/
theorem Ordered.plug {h : Nat} {c : Ctx n h} {t : Tree h} (hc : c.Ordered)
    (ht : t.Ordered c.lo c.hi) : (c.plug t).Ordered none none := by
  induction c with
  | root => exact ht
  | frame pid lk lc rk rc up ih =>
    obtain ⟨hsorted, hlen, hwithin, hleft, hright, hup⟩ := hc
    exact ih hup ⟨hsorted, hlen, hwithin,
      (separated_focus hleft.length).mpr ⟨hleft, ht, hright⟩⟩

theorem Stored.congr {pages pages' : Pages} {h : Nat} {c : Ctx n h} {hole : Nat}
    (hs : c.Stored pages hole)
    (hq : ∀ q, q ∈ c.preIds ∨ q ∈ c.postIds → bodyAt pages' q = bodyAt pages q) :
    c.Stored pages' hole := by
  induction c generalizing hole with
  | root => trivial
  | frame pid lk lc rk rc up ih =>
    obtain ⟨hbody, hcs, hup⟩ := hs
    refine ⟨?_, fun c hc => ?_, ih hup fun q hqu => hq q ?_⟩
    · rw [hq pid (.inl (List.mem_append_right _ List.mem_cons_self)), hbody]
    · refine (hcs c hc).congr fun q hqc => hq q ?_
      rcases List.mem_append.mp hc with hc | hc
      · exact .inl (List.mem_append_right _ (List.mem_cons_of_mem _ (Tree.mem_ids_of_mem hc hqc)))
      · exact .inr (List.mem_append_left _ (Tree.mem_ids_of_mem hc hqc))
    · exact hqu.imp (List.mem_append_left _) (List.mem_append_right _)

theorem Parents.congr {pages pages' : Pages} {h : Nat} {c : Ctx n h} {hole : Nat}
    (hp : c.Parents pages hole)
    (hq : ∀ q, q = hole ∨ q ∈ c.preIds ∨ q ∈ c.postIds → parentAt pages' q = parentAt pages q) :
    c.Parents pages' hole := by
  induction c generalizing hole with
  | root => trivial
  | frame pid lk lc rk rc up ih =>
    obtain ⟨hhole, hcs, hup⟩ := hp
    refine ⟨(hq hole (.inl rfl)).trans hhole, fun c hc => ?_, ih hup fun q hqu => hq q (.inr ?_)⟩
    · have hbelow : ∀ q ∈ c.ids, parentAt pages' q = parentAt pages q := by
        refine fun q hqc => hq q (.inr ?_)
        rcases List.mem_append.mp hc with hc | hc
        · exact .inl (List.mem_append_right _ (List.mem_cons_of_mem _ (Tree.mem_ids_of_mem hc hqc)))
        · exact .inr (List.mem_append_left _ (Tree.mem_ids_of_mem hc hqc))
      exact ⟨(hbelow c.pid c.pid_mem_ids).trans (hcs c hc).1, (hcs c hc).2.congr hbelow⟩
    · rcases hqu with rfl | hqu | hqu
      · exact .inl (List.mem_append_right _ List.mem_cons_self)
      · exact .inl (List.mem_append_left _ hqu)
      · exact .inr (List.mem_append_right _ hqu)

theorem preLeaves_subset {h : Nat} (c : Ctx n h) : c.preLeaves ⊆ c.preIds := by
  induction c with
  | root => exact List.nil_subset _
  | frame pid lk lc rk rc up ih =>
    intro q hq
    rcases List.mem_append.mp hq with hq | hq
    · exact List.mem_append_left _ (ih hq)
    · obtain ⟨c, hc, hq⟩ := List.mem_flatMap.mp hq
      exact List.mem_append_right _ (List.mem_cons_of_mem _
        (Tree.mem_ids_of_mem hc (c.leafIds_subset_ids hq)))

theorem postLeaves_subset {h : Nat} (c : Ctx n h) : c.postLeaves ⊆ c.postIds := by
  induction c with
  | root => exact List.nil_subset _
  | frame pid lk lc rk rc up ih =>
    intro q hq
    rcases List.mem_append.mp hq with hq | hq
    · obtain ⟨c, hc, hq⟩ := List.mem_flatMap.mp hq
      exact List.mem_append_left _ (Tree.mem_ids_of_mem hc (c.leafIds_subset_ids hq))
    · exact List.mem_append_right _ (ih hq)

theorem depth_add {h : Nat} (c : Ctx n h) : c.depth + h = n := by
  induction c with
  | root => exact Nat.zero_add n
  | frame pid lk lc rk rc up ih =>
    rw [depth, Nat.add_right_comm]
    exact ih

theorem depth_le_length {h : Nat} (c : Ctx n h) : c.depth ≤ c.preIds.length := by
  induction c with
  | root => exact Nat.zero_le _
  | frame pid lk lc rk rc up ih =>
    rw [depth, preIds, List.length_append, List.length_cons]
    omega

end Ctx

-- ---------------------------------------------------------------------------
-- Well-formed trees
-- ---------------------------------------------------------------------------

/-- The index is the tree `t`, `parent_id` fields apart. -/
structure Represents (idx : BTreeIndex) {n : Nat} (t : Tree n) : Prop where
  root : idx.rootPageId = some t.pid
  stored : t.Stored idx.pages
  ordered : t.Ordered none none
  linked : Linked idx.pages t.leafIds
  nodup : t.ids.Nodup
  allocated : ∀ p ∈ t.ids, p < idx.nextPageId

/-- Distinct allocated ids. -/
theorem length_le_of_nodup {l : List Nat} {m : Nat} (hn : l.Nodup) (hm : ∀ p ∈ l, p < m) :
    l.length ≤ m := by
  have hsub : l ⊆ List.range m := fun p hp => List.mem_range.mpr (hm p hp)
  have := (hn.subperm hsub).length_le
  rwa [List.length_range] at this

/-- A tree is not higher than it has pages. -/
theorem Represents.height_lt {idx : BTreeIndex} {h : Nat} {t : Tree h} (ht : Represents idx t) :
    h < idx.nextPageId := by
  have hlen := length_le_of_nodup ht.nodup ht.allocated
  have hh : ∀ {h : Nat} {t : Tree h} {lo hi : Option Int}, t.Ordered lo hi → h < t.ids.length := by
    intro h
    induction h with
    | zero =>
      intro t lo hi ho
      match t with
      | .leaf p es => exact Nat.one_pos
    | succ h ih =>
      intro t lo hi ho
      match t, ho with
      | .node p ks [], ⟨_, _, _, hsep⟩ => exact absurd hsep.length (by simp)
      | .node p ks (c :: cs), ⟨_, _, _, hsep⟩ =>
        obtain ⟨lo', hi', hc⟩ := hsep.exists_of_mem List.mem_cons_self
        have := ih hc
        rw [Tree.ids_node, List.flatMap_cons, List.length_cons, List.length_append]
        omega
  exact Nat.lt_of_lt_of_le (hh ht.ordered) hlen

/-- Two leaves below a root. -/
def twoLeaves : BTreeIndex where
  pages := setPage (setPage (setPage (fun _ => none)
    0 ⟨some 2, .leaf ⟨some 1, [(10, ⟨5, 0⟩)]⟩⟩)
    1 ⟨some 2, .leaf ⟨none, [(20, ⟨5, 1⟩), (30, ⟨5, 2⟩)]⟩⟩)
    2 ⟨none, .internal ⟨[20], [0, 1]⟩⟩
  nextPageId := 3
  rootPageId := some 2

def twoLeavesTree : Tree 1 :=
  .node 2 [20] [.leaf 0 [(10, ⟨5, 0⟩)], .leaf 1 [(20, ⟨5, 1⟩), (30, ⟨5, 2⟩)]]

theorem twoLeaves_represents : Represents twoLeaves twoLeavesTree where
  root := rfl
  stored := by
    refine ⟨rfl, fun c hc => ?_⟩
    rcases List.mem_cons.mp hc with rfl | hc
    · exact ⟨some 1, rfl⟩
    · rw [List.mem_singleton.mp hc]
      exact ⟨none, rfl⟩
  ordered := by
    refine ⟨by decide, by decide, fun k _ => within_none k, ⟨?_, by decide, fun e he => ?_⟩,
      ⟨?_, by decide, fun e he => ?_⟩⟩
    · rw [Sorted]
      decide
    · rw [List.mem_singleton.mp he]
      exact ⟨⟨fun l hl => (by cases hl), fun u hu => by cases hu; decide⟩, by decide⟩
    · rw [Sorted]
      decide
    · have hlow : (20 : Int) ≤ e.1 ∧ e.2.isValid = true := by
        revert e
        decide
      exact ⟨⟨fun l hl => (by cases hl; exact hlow.1), fun u hu => by cases hu⟩, hlow.2⟩
  linked := ⟨⟨_, rfl⟩, ⟨_, rfl⟩, trivial⟩
  nodup := by decide
  allocated := by decide

theorem twoLeaves_parents : twoLeavesTree.Parents twoLeaves.pages := by
  intro c hc
  rcases List.mem_cons.mp hc with rfl | hc
  · exact ⟨rfl, trivial⟩
  · rw [List.mem_singleton.mp hc]
    exact ⟨rfl, trivial⟩

end PersistX.Btree
