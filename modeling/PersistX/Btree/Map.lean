import PersistX.Btree.Tree

/-!
# PersistX — the B+ tree as an ordered map: search, remove, scan

`contents` is the finite map that sorted entries stand for. `find_leaf` splits the
tree at a key: a context, and in its hole the only leaf that may hold the key
(`Represents.find`). Search and remove work on that leaf, and the scan starts there
and follows the chain.

Main results: `search_spec`, `remove_spec`, `rangeScan_spec`.
-/

namespace PersistX.Btree

open Separators

-- ---------------------------------------------------------------------------
-- Entries as a map
-- ---------------------------------------------------------------------------

/-- The map that a list of entries stands for. -/
def contents (es : List Entry) (key : Int) : Option Rid :=
  (es.find? fun e => decide (e.1 = key)).map Prod.snd

section

variable {es a b : List Entry} {key : Int} {rid : Rid}

theorem Sorted.eq_of_mem (hs : Sorted es) {r : Rid} (h : (key, rid) ∈ es) (h' : (key, r) ∈ es) :
    rid = r := by
  obtain ⟨i, hi⟩ := List.mem_iff_getElem?.mp h
  obtain ⟨j, hj⟩ := List.mem_iff_getElem?.mp h'
  rcases Nat.lt_trichotomy i j with hlt | rfl | hlt
  · exact absurd (hs.getElem_lt hlt hi hj) (Int.lt_irrefl key)
  · rw [hi] at hj
    exact congrArg Prod.snd (Option.some.inj hj)
  · exact absurd (hs.getElem_lt hlt hj hi) (Int.lt_irrefl key)

theorem mem_of_find? {e : Entry} (h : (es.find? fun e => decide (e.1 = key)) = some e) :
    (key, e.2) ∈ es := by
  have hk := List.find?_some h
  rw [← of_decide_eq_true hk]
  exact List.mem_of_find?_eq_some h

theorem contents_eq_some (hs : Sorted es) : contents es key = some rid ↔ (key, rid) ∈ es := by
  rw [contents, Option.map_eq_some_iff]
  constructor
  · rintro ⟨e, he, rfl⟩
    exact mem_of_find? he
  · intro hm
    have hsome : (es.find? fun e => decide (e.1 = key)).isSome = true :=
      List.find?_isSome.mpr ⟨(key, rid), hm, decide_eq_true rfl⟩
    obtain ⟨e, he⟩ := Option.isSome_iff_exists.mp hsome
    exact ⟨e, he, hs.eq_of_mem (mem_of_find? he) hm⟩

theorem contents_eq_none : contents es key = none ↔ ∀ r, (key, r) ∉ es := by
  rw [contents, Option.map_eq_none_iff, List.find?_eq_none]
  constructor
  · intro h r hr
    exact h _ hr (decide_eq_true rfl)
  · intro h e he hk
    have hk : e.1 = key := of_decide_eq_true hk
    refine h e.2 ?_
    rw [← hk]
    exact he

/-- An entry comes in. -/
theorem contents_insert (hs : Sorted (a ++ b)) (hs' : Sorted (a ++ (key, rid) :: b)) :
    contents (a ++ (key, rid) :: b) = Function.update (contents (a ++ b)) key (some rid) := by
  funext k
  rw [Function.update_apply]
  split
  · rename_i hk
    rw [hk]
    exact (contents_eq_some hs').mpr (List.mem_append_right _ List.mem_cons_self)
  · rename_i hk
    refine Option.ext fun r => ?_
    rw [contents_eq_some hs', contents_eq_some hs]
    simp [hk]

/-- An entry goes. -/
theorem contents_remove (hs : Sorted (a ++ b)) (hs' : Sorted (a ++ (key, rid) :: b)) :
    contents (a ++ b) = Function.update (contents (a ++ (key, rid) :: b)) key none := by
  funext k
  rw [Function.update_apply]
  split
  · rename_i hk
    rw [contents_eq_none, hk]
    intro r hr
    obtain ⟨-, hright, hcross⟩ := List.pairwise_append.mp hs'
    rcases List.mem_append.mp hr with hr | hr
    · exact absurd (hcross _ hr _ List.mem_cons_self) (Int.lt_irrefl key)
    · exact absurd ((List.pairwise_cons.mp hright).1 _ hr) (Int.lt_irrefl key)
  · rename_i hk
    refine Option.ext fun r => ?_
    rw [contents_eq_some hs', contents_eq_some hs]
    simp [hk]

end

-- ---------------------------------------------------------------------------
-- Down to the leaf
-- ---------------------------------------------------------------------------

theorem lastBound_le {lk : List Int} {lo : Option Int} {key : Int} (hlo : ∀ l, lo = some l → l ≤ key)
    (hlk : ∀ k ∈ lk, k ≤ key) : ∀ l, lastBound lo lk = some l → l ≤ key := by
  induction lk generalizing lo with
  | nil => exact hlo
  | cons k lk ih =>
    refine ih (fun l hl => ?_) fun x hx => hlk x (List.mem_cons_of_mem _ hx)
    rw [← Option.some.inj hl]
    exact hlk k List.mem_cons_self

theorem lt_firstBound {rk : List Int} {hi : Option Int} {key : Int} (hhi : ∀ u, hi = some u → key < u)
    (hrk : ∀ k ∈ rk, key < k) : ∀ u, firstBound rk hi = some u → key < u := by
  match rk, hrk with
  | [], _ => exact hhi
  | k :: rk, hrk =>
    intro u hu
    rw [← Option.some.inj hu]
    exact hrk k List.mem_cons_self

/-- `find_leaf` lands on a leaf between whose bounds the key lies. -/
structure Lands {n : Nat} (c : Ctx n 0) (pid : Nat) (es : List Entry) (key : Int) : Prop where
  context : c.Ordered
  leaf : (Tree.leaf pid es).Ordered c.lo c.hi
  within : Within c.lo c.hi key

/-- The walk down, from a subtree in its context: the induction is on the height. -/
theorem findLeafLoop_lands {idx : BTreeIndex} {n : Nat} (key : Int) :
    ∀ {h : Nat} (c : Ctx n h) (s : Tree h) (fuel : Nat), s.Stored idx.pages → c.Ordered →
      s.Ordered c.lo c.hi → Within c.lo c.hi key → h < fuel →
      ∃ (c' : Ctx n 0) (pid : Nat) (es : List Entry), c.plug s = c'.plug (.leaf pid es) ∧
        idx.findLeafLoop key fuel s.pid = some pid ∧ Lands c' pid es key := by
  intro h
  induction h with
  | zero =>
    intro c s fuel hs hc ho hw hfuel
    obtain ⟨fuel, rfl⟩ : ∃ m, fuel = m + 1 := ⟨fuel - 1, by omega⟩
    match s, hs, ho with
    | .leaf pid es, ⟨next, hbody⟩, ho =>
      refine ⟨c, pid, es, rfl, ?_, hc, ho, hw⟩
      rw [Tree.pid_leaf, BTreeIndex.findLeafLoop, hbody]
  | succ h ih =>
    intro c s fuel hs hc ho hw hfuel
    obtain ⟨fuel, rfl⟩ : ∃ m, fuel = m + 1 := ⟨fuel - 1, by omega⟩
    match s, hs, ho with
    | .node pid ks cs, ⟨hbody, hcs⟩, ⟨hks, hlen, hkw, hsep⟩ =>
      obtain ⟨lk, rk, hk, hidx, hlk, hrk⟩ :=
        Internal.childIndex_cut (n := ⟨ks, cs.map Tree.pid⟩) hks key
      obtain rfl : ks = lk ++ rk := hk
      -- the child there
      have hclen : lk.length < cs.length := by
        rw [hsep.length, List.length_append]
        omega
      obtain ⟨lc, child, rc, rfl, hlc⟩ : ∃ lc child rc, cs = lc ++ child :: rc ∧ lc.length = lk.length :=
        ⟨cs.take lk.length, cs[lk.length], cs.drop (lk.length + 1),
          by rw [List.getElem_cons_drop, List.take_append_drop],
          List.length_take_of_le (Nat.le_of_lt hclen)⟩
      obtain ⟨hleft, hchild, hright⟩ := (separated_focus hlc).mp hsep
      obtain ⟨c', p, es, hplug, hfind, hlands⟩ := ih (.frame pid lk lc rk rc c) child fuel
        (hcs child (List.mem_append_right _ List.mem_cons_self))
        ⟨hks, hlen, hkw, hleft, hright, hc⟩ hchild
        ⟨lastBound_le hw.lo hlk, lt_firstBound hw.hi hrk⟩ (by omega)
      refine ⟨c', p, es, hplug, ?_, hlands⟩
      have hget : (lc ++ child :: rc).map Tree.pid =
          lc.map Tree.pid ++ child.pid :: rc.map Tree.pid := by
        rw [List.map_append, List.map_cons]
      rw [Tree.pid_node, BTreeIndex.findLeafLoop, hbody]
      simp only [Internal.lookupChild, hidx]
      rw [hget, List.getElem?_append_right (by rw [List.length_map, hlc])]
      simp only [List.length_map, hlc, Nat.sub_self, List.getElem?_cons_zero, Option.bind_some]
      exact hfind

-- ---------------------------------------------------------------------------
-- The leaf that may hold a key
-- ---------------------------------------------------------------------------

section

variable {idx : BTreeIndex} {n : Nat} {c : Ctx n 0} {pid : Nat} {es : List Entry} {key : Int}

/-- Keys before the leaf are smaller, keys behind it are larger. -/
theorem Lands.around (h : Lands c pid es key) :
    (∀ e ∈ c.preEntries, e.1 < key) ∧ ∀ e ∈ c.postEntries, key < e.1 := by
  have hleaf : (Tree.leaf pid [(key, ⟨0, 0⟩)]).Ordered c.lo c.hi := by
    refine ⟨List.pairwise_singleton _ _, ?_, fun e he => ?_⟩
    · rw [leafMaxEntries_eq, List.length_singleton]
      decide
    · rw [List.mem_singleton.mp he]
      exact ⟨h.within, rfl⟩
  have hs := (h.context.plug hleaf).sorted_entries.1
  rw [c.entries_plug] at hs
  obtain ⟨-, hright, hcross⟩ := List.pairwise_append.mp hs
  refine ⟨fun e he => hcross e he _ (List.mem_append_left _ List.mem_cons_self), fun e he => ?_⟩
  exact (List.pairwise_append.mp hright).2.2 _ List.mem_cons_self e he

/-- A leaf that keeps its keys in order may take the place of the one found. -/
theorem Lands.sorted (h : Lands c pid es key) {es' : List Entry}
    (ho : (Tree.leaf pid es').Ordered c.lo c.hi) :
    Sorted (c.preEntries ++ (es' ++ c.postEntries)) := by
  have hs := (h.context.plug ho).sorted_entries.1
  rwa [c.entries_plug] at hs

/-- The key is in the tree if it is in the leaf. -/
theorem Lands.mem_iff (h : Lands c pid es key) (rid : Rid) :
    (key, rid) ∈ c.preEntries ++ (es ++ c.postEntries) ↔ (key, rid) ∈ es := by
  obtain ⟨hpre, hpost⟩ := h.around
  rw [List.mem_append, List.mem_append]
  constructor
  · rintro (hm | hm | hm)
    · exact absurd (hpre _ hm) (Int.lt_irrefl key)
    · exact hm
    · exact absurd (hpost _ hm) (Int.lt_irrefl key)
  · exact fun hm => .inr (.inl hm)

theorem Linked.at {pages : Pages} {a b : List Nat} {p : Nat} (h : Linked pages (a ++ p :: b)) :
    ∃ es, bodyAt pages p = some (.leaf ⟨b.head?, es⟩) := h.right.1

/-- The leaf's page. -/
theorem Represents.bodyAt_leaf (ht : Represents idx (c.plug (.leaf pid es))) :
    bodyAt idx.pages pid = some (.leaf ⟨c.postLeaves.head?, es⟩) := by
  have hlinked := ht.linked
  rw [c.leafIds_plug] at hlinked
  obtain ⟨es', hes'⟩ := hlinked.at
  obtain ⟨next, hnext⟩ := ((c.stored_plug _).mp ht.stored).2
  rw [hnext] at hes' ⊢
  cases hes'
  rfl

theorem Represents.leafAt (ht : Represents idx (c.plug (.leaf pid es))) :
    idx.leafAt pid = some ⟨c.postLeaves.head?, es⟩ := by
  rw [BTreeIndex.leafAt, ht.bodyAt_leaf]

/-- **Where a key belongs.** -/
theorem Represents.find {t : Tree n} (ht : Represents idx t) (key : Int) :
    ∃ (c : Ctx n 0) (pid : Nat) (es : List Entry), t = c.plug (.leaf pid es) ∧
      idx.findLeaf key t.pid = some pid ∧ Lands c pid es key :=
  findLeafLoop_lands key .root t idx.nextPageId ht.stored trivial ht.ordered (within_none key)
    ht.height_lt

-- ---------------------------------------------------------------------------
-- Search and remove
-- ---------------------------------------------------------------------------

/-- **`search`** returns what the map has, or an invalid RID. -/
theorem search_spec {t : Tree n} (ht : Represents idx t) (key : Int) :
    idx.search key = some ((contents t.entries key).getD Rid.invalid) := by
  obtain ⟨c, pid, es, rfl, hfind, hl⟩ := ht.find key
  have hsorted := hl.leaf.sorted_entries.1
  have hall := hl.sorted hl.leaf
  rw [BTreeIndex.search, ht.root]
  simp only [hfind, ht.leafAt, Option.bind_eq_bind, Option.bind_some, c.entries_plug]
  congr 1
  rw [Tree.entries_leaf]
  cases hc : contents (c.preEntries ++ (es ++ c.postEntries)) key with
  | some rid =>
    rw [contents_eq_some hall, hl.mem_iff] at hc
    exact Leaf.lookup_of_mem hsorted hc
  | none =>
    rw [contents_eq_none] at hc
    exact Leaf.lookup_of_not_mem hsorted fun rid hm => hc rid ((hl.mem_iff rid).mpr hm)

theorem nodup_hole {a b : List Nat} {p : Nat} (h : (a ++ ([p] ++ b)).Nodup) : p ∉ a ∧ p ∉ b := by
  obtain ⟨-, hb, hcross⟩ := List.nodup_append.mp h
  refine ⟨fun hp => hcross p hp p List.mem_cons_self rfl, ?_⟩
  exact (List.nodup_cons.mp hb).1

/-- The entries of one leaf change. -/
theorem Represents.setLeaf (ht : Represents idx (c.plug (.leaf pid es))) (hc : c.Ordered)
    {es' : List Entry} (ho : (Tree.leaf pid es').Ordered c.lo c.hi) :
    Represents { idx with pages := setBody idx.pages pid (.leaf ⟨c.postLeaves.head?, es'⟩) }
      (c.plug (.leaf pid es')) := by
  have hnodup := ht.nodup
  rw [c.ids_plug] at hnodup
  obtain ⟨hpre, hpost⟩ := nodup_hole hnodup
  have hother : ∀ q, q ≠ pid → bodyAt (setBody idx.pages pid
      (.leaf ⟨c.postLeaves.head?, es'⟩)) q = bodyAt idx.pages q := by
    intro q hq
    rw [bodyAt_setBody, if_neg hq]
  have hself : bodyAt (setBody idx.pages pid (.leaf ⟨c.postLeaves.head?, es'⟩)) pid =
      some (.leaf ⟨c.postLeaves.head?, es'⟩) := by
    rw [bodyAt_setBody, if_pos rfl]
  have hids : (c.plug (.leaf pid es')).ids = (c.plug (.leaf pid es)).ids := by
    rw [c.ids_plug, c.ids_plug]
    rfl
  refine ⟨?_, (c.stored_plug _).mpr ⟨?_, _, hself⟩, hc.plug ho, ?_, ?_, ?_⟩
  · rw [c.pid_plug]
    exact ht.root.trans (congrArg some (c.pid_plug _))
  · refine ((c.stored_plug _).mp ht.stored).1.congr fun q hq => hother q ?_
    rintro rfl
    rcases hq with hq | hq
    · exact hpre hq
    · exact hpost hq
  · have hlinked := ht.linked
    rw [c.leafIds_plug] at hlinked ⊢
    refine hlinked.set_entries hself (fun q hq => hother q ?_) fun q hq => hother q ?_
    · rintro rfl
      exact hpre (c.preLeaves_subset hq)
    · rintro rfl
      exact hpost (c.postLeaves_subset hq)
  · rw [hids]
    exact ht.nodup
  · rw [hids]
    exact ht.allocated

/-- **`remove`** takes the key out and says whether it was there. -/
theorem remove_spec {t : Tree n} (ht : Represents idx t) (key : Int) :
    ∃ (idx' : BTreeIndex) (t' : Tree n),
      idx.remove key = some (idx', (contents t.entries key).isSome) ∧ Represents idx' t' ∧
      contents t'.entries = Function.update (contents t.entries) key none ∧
      idx'.nextPageId = idx.nextPageId := by
  obtain ⟨c, pid, es, rfl, hfind, hl⟩ := ht.find key
  have hall := hl.sorted hl.leaf
  have hentries : (c.plug (.leaf pid es)).entries = c.preEntries ++ (es ++ c.postEntries) :=
    c.entries_plug _
  have hremove : idx.remove key = some ((Leaf.remove ⟨c.postLeaves.head?, es⟩ key).elim (idx, false)
      fun leaf' => ({ idx with pages := setBody idx.pages pid (.leaf leaf') }, true)) := by
    rw [BTreeIndex.remove, ht.root]
    simp only [hfind, ht.leafAt, Option.bind_eq_bind, Option.bind_some]
    cases Leaf.remove ⟨c.postLeaves.head?, es⟩ key <;> rfl
  rw [hremove, hentries]
  cases hc : contents (c.preEntries ++ (es ++ c.postEntries)) key with
  | none =>
    rw [contents_eq_none] at hc
    rw [Leaf.remove_of_not_mem hl.leaf.sorted_entries.1 fun rid hm => hc rid ((hl.mem_iff rid).mpr hm)]
    refine ⟨idx, _, rfl, ht, ?_, rfl⟩
    rw [hentries, Function.update_eq_self_iff.mpr]
    exact (contents_eq_none.mpr hc).symm
  | some rid =>
    rw [contents_eq_some hall, hl.mem_iff] at hc
    obtain ⟨a, b, hab, hrem⟩ :=
      Leaf.remove_of_mem (l := ⟨c.postLeaves.head?, es⟩) hl.leaf.sorted_entries.1 hc
    obtain rfl : es = a ++ (key, rid) :: b := hab
    have hsub : (a ++ b).Sublist (a ++ (key, rid) :: b) :=
      (List.Sublist.refl a).append (List.sublist_cons_self _ b)
    have ho : (Tree.leaf pid (a ++ b)).Ordered c.lo c.hi := by
      obtain ⟨hs, hlen, hw⟩ := hl.leaf
      exact ⟨hs.sublist hsub, Nat.le_trans hsub.length_le hlen, fun e he => hw e (hsub.subset he)⟩
    rw [hrem]
    refine ⟨_, _, rfl, ht.setLeaf hl.context ho, ?_, rfl⟩
    have hs' := hl.sorted ho
    rw [c.entries_plug]
    simp only [Tree.entries_leaf, List.append_assoc, List.cons_append] at hs' hall ⊢
    rw [← List.append_assoc] at hs' hall ⊢
    rw [← List.append_assoc c.preEntries a (_ :: _)]
    exact contents_remove hs' hall

-- ---------------------------------------------------------------------------
-- Range scans
-- ---------------------------------------------------------------------------

/-- The entries on a leaf's page. -/
def entriesAt (pages : Pages) (pid : Nat) : List Entry :=
  match bodyAt pages pid with
  | some (.leaf l) => l.entries
  | _ => []

theorem Tree.Stored.entries_eq {pages : Pages} : {h : Nat} → {t : Tree h} → t.Stored pages →
    t.entries = t.leafIds.flatMap (entriesAt pages)
  | 0, .leaf p es, ⟨next, hs⟩ => by
    rw [Tree.entries_leaf, Tree.leafIds_leaf, List.flatMap_singleton, entriesAt, hs]
  | _ + 1, .node p ks cs, hs => by
    rw [Tree.entries_node, Tree.leafIds_node, List.flatMap_assoc]
    exact List.flatMap_congr fun c hc => (hs.2 c hc).entries_eq

theorem Ctx.Stored.postEntries_eq {pages : Pages} {h : Nat} {c : Ctx n h} {hole : Nat}
    (hs : c.Stored pages hole) : c.postEntries = c.postLeaves.flatMap (entriesAt pages) := by
  induction c generalizing hole with
  | root => rfl
  | frame pid lk lc rk rc up ih =>
    obtain ⟨-, hcs, hup⟩ := hs
    rw [postEntries, postLeaves, List.flatMap_append, ih hup, List.flatMap_assoc]
    congr 1
    exact List.flatMap_congr fun c hc => (hcs c (List.mem_append_right _ hc)).entries_eq

theorem scanEntries_spec (endKey : Int) : ∀ {es : List Entry}, Sorted es →
    BTreeIndex.scanEntries endKey es =
      ((es.filter fun e => decide (e.1 ≤ endKey)).map Prod.snd, es.any fun e => decide (endKey < e.1)) := by
  intro es
  induction es with
  | nil => exact fun _ => rfl
  | cons e es ih =>
    intro hs
    obtain ⟨he, hes⟩ := List.pairwise_cons.mp hs
    obtain ⟨k, rid⟩ := e
    rw [BTreeIndex.scanEntries, ih hes]
    by_cases hk : k > endKey
    · have hnone : es.filter (fun e => decide (e.1 ≤ endKey)) = [] := by
        rw [List.filter_eq_nil_iff]
        intro x hx
        have := he x hx
        simp only [decide_eq_true_eq]
        omega
      simp [hk, hnone]
    · have hle : k ≤ endKey := Int.not_lt.mp hk
      simp [hk, hle]

/-- The scan from a leaf on: the entries between the two keys. -/
theorem scanLoop_spec (beginKey endKey : Int) : ∀ (ps : List Nat) (fuel : Nat),
    Linked idx.pages ps → Sorted (ps.flatMap (entriesAt idx.pages)) → ps.length ≤ fuel →
    idx.scanLoop beginKey endKey fuel ps.head? =
      some (((ps.flatMap (entriesAt idx.pages)).filter fun e =>
        decide (beginKey ≤ e.1 ∧ e.1 ≤ endKey)).map Prod.snd) := by
  intro ps
  induction ps with
  | nil =>
    intro fuel _ _ _
    cases fuel <;> rfl
  | cons p ps ih =>
    intro fuel hlinked hs hfuel
    obtain ⟨fuel, rfl⟩ : ∃ m, fuel = m + 1 := ⟨fuel - 1, by simp at hfuel; omega⟩
    obtain ⟨⟨es, hbody⟩, hrest⟩ := hlinked
    have hes : entriesAt idx.pages p = es := by rw [entriesAt, hbody]
    rw [List.flatMap_cons, hes] at hs ⊢
    obtain ⟨hs₁, hs₂, hcross⟩ := List.pairwise_append.mp hs
    obtain ⟨x, y, rfl, hidx, hx, hy⟩ := Leaf.keyIndex_cut (l := ⟨ps.head?, es⟩) hs₁ beginKey
    have hleaf : idx.leafAt p = some ⟨ps.head?, x ++ y⟩ := by rw [BTreeIndex.leafAt, hbody]
    have hsy : Sorted y := (List.pairwise_append.mp hs₁).2.1
    -- on this leaf: nothing before the cut, and behind it the keys up to the end
    have hfilter : (x ++ y).filter (fun e => decide (beginKey ≤ e.1 ∧ e.1 ≤ endKey)) =
        y.filter fun e => decide (e.1 ≤ endKey) := by
      have hx' : x.filter (fun e => decide (beginKey ≤ e.1 ∧ e.1 ≤ endKey)) = [] := by
        rw [List.filter_eq_nil_iff]
        intro e he
        have := hx e he
        simp only [decide_eq_true_eq]
        omega
      rw [List.filter_append, hx', List.nil_append]
      exact List.filter_congr fun e he => by simp [hy e he]
    rw [List.head?_cons, BTreeIndex.scanLoop, hleaf]
    simp only [Option.bind_eq_bind, Option.bind_some, hidx, List.drop_left, scanEntries_spec endKey hsy,
      List.filter_append, hfilter, List.map_append]
    split
    · rename_i hdone
      -- a larger key was seen, so no later leaf has anything to give
      obtain ⟨e, he, hlt⟩ := List.any_eq_true.mp hdone
      have hnone : (ps.flatMap (entriesAt idx.pages)).filter
          (fun e => decide (beginKey ≤ e.1 ∧ e.1 ≤ endKey)) = [] := by
        rw [List.filter_eq_nil_iff]
        intro e' he'
        have h1 := hcross e (List.mem_append_right _ he) e' he'
        have h2 := of_decide_eq_true hlt
        simp only [decide_eq_true_eq]
        omega
      rw [hnone, List.map_nil, List.append_nil]
      rfl
    · rw [ih fuel hrest hs₂ (Nat.le_of_succ_le_succ hfuel)]
      rfl

theorem Tree.length_leafIds_le : {h : Nat} → (t : Tree h) → t.leafIds.length ≤ t.ids.length
  | 0, .leaf _ _ => Nat.le_refl 1
  | h + 1, .node p ks cs => by
    rw [Tree.leafIds_node, Tree.ids_node, List.length_cons]
    refine Nat.le_succ_of_le ?_
    induction cs with
    | nil => exact Nat.le_refl 0
    | cons c cs ih =>
      rw [List.flatMap_cons, List.flatMap_cons, List.length_append, List.length_append]
      exact Nat.add_le_add c.length_leafIds_le ih

/-- **`range_scan`** returns the RIDs of the keys in the range, in key order. -/
theorem rangeScan_spec {t : Tree n} (ht : Represents idx t) (beginKey endKey : Int) :
    idx.rangeScan beginKey endKey = some ((t.entries.filter fun e =>
      decide (beginKey ≤ e.1 ∧ e.1 ≤ endKey)).map Prod.snd) := by
  obtain ⟨c, pid, es, rfl, hfind, hl⟩ := ht.find beginKey
  have hlinked := ht.linked
  have hfuel := Nat.le_trans (Tree.length_leafIds_le _) (length_le_of_nodup ht.nodup ht.allocated)
  rw [c.leafIds_plug] at hlinked hfuel
  have hstored := (c.stored_plug _).mp ht.stored
  have hentries : es ++ c.postEntries = (pid :: c.postLeaves).flatMap (entriesAt idx.pages) := by
    rw [List.flatMap_cons, hstored.1.postEntries_eq, entriesAt, ht.bodyAt_leaf]
  have hs := (List.pairwise_append.mp (hl.sorted hl.leaf)).2.1
  rw [hentries] at hs
  have hscan := scanLoop_spec beginKey endKey (pid :: c.postLeaves) idx.nextPageId hlinked.right hs (by
    rw [List.length_append] at hfuel
    exact Nat.le_trans (Nat.le_add_left _ _) hfuel)
  have hpre : c.preEntries.filter (fun e => decide (beginKey ≤ e.1 ∧ e.1 ≤ endKey)) = [] := by
    rw [List.filter_eq_nil_iff]
    intro e he
    have := hl.around.1 e he
    simp only [decide_eq_true_eq]
    omega
  rw [BTreeIndex.rangeScan, ht.root]
  simp only [hfind, Option.bind_eq_bind, Option.bind_some]
  rw [c.entries_plug, List.filter_append, hpre, List.nil_append, Tree.entries_leaf, hentries]
  exact hscan

end

end PersistX.Btree
