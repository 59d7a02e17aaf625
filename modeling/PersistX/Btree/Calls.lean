import PersistX.Btree.SmallPool
import PersistX.Txn.Manager

/-!
# PersistX — the tree behind the index

The transaction manager and the shell see the index as a map from keys to RIDs
(`IndexMap`). `Backs` says that a tree stands for such a map and can take further
calls: it is well-formed and its `parent_id` fields are right.

Main result: `Backs.callAll` — a series of inserts and removes comes to its end on
the tree and does to the map what it does to an `IndexMap`.
-/

namespace PersistX.Btree

variable {idx idx' : BTreeIndex} {index : IndexMap} {key : Int} {rid : Rid} {pages pages' : Pages}

-- ---------------------------------------------------------------------------
-- Parent pointers under remove
-- ---------------------------------------------------------------------------

theorem SameShape.refl (pages : Pages) : SameShape pages pages := fun _ => rfl

/-- The shape of a page that a tree has a node on. -/
theorem shape_of_bodyAt {p : Nat} {body : Body} (h : bodyAt pages p = some body) :
    (pages p).map Node.shape = some (parentAt pages p, body.internal?) := by
  rw [bodyAt] at h
  obtain ⟨node, hn, rfl⟩ := Option.map_eq_some_iff.mp h
  rw [parentAt, hn]
  rfl

/-- The `parent_id` fields do not depend on what the leaves hold. -/
theorem Tree.Parents.of_sameShape (hs : SameShape pages pages') : {h : Nat} → {t t' : Tree h} →
    t.Stored pages → t'.Stored pages' → t.pid = t'.pid → t.Parents pages → t'.Parents pages'
  | 0, .leaf _ _, .leaf _ _, _, _, _, _ => trivial
  | h + 1, .node p ks cs, .node p' ks' cs', ⟨hbody, hcs⟩, ⟨hbody', hcs'⟩, hpid, hpar => by
    obtain rfl : p = p' := hpid
    have hshape := hs p
    rw [shape_of_bodyAt hbody, shape_of_bodyAt hbody'] at hshape
    have hinternal := congrArg Prod.snd (Option.some.inj hshape)
    obtain ⟨-, hchildren⟩ := Internal.mk.inj (Option.some.inj hinternal)
    intro c' hc'
    obtain ⟨i, hi, rfl⟩ := List.mem_iff_getElem.mp hc'
    have hlen : cs.length = cs'.length := by
      have := congrArg List.length hchildren
      rwa [List.length_map, List.length_map] at this
    have hi' : i < cs.length := hlen ▸ hi
    have hsame : cs[i].pid = cs'[i].pid := by
      have h₁ : (cs.map pid)[i]? = some cs[i].pid := by
        rw [List.getElem?_map, List.getElem?_eq_getElem hi']
        rfl
      rw [hchildren, List.getElem?_map, List.getElem?_eq_getElem hi] at h₁
      exact (Option.some.inj h₁).symm
    obtain ⟨hparent, hbelow⟩ := hpar cs[i] (List.getElem_mem hi')
    refine ⟨?_, hbelow.of_sameShape hs (hcs _ (List.getElem_mem hi')) (hcs' _ hc') hsame⟩
    rw [← hsame, ← hs.parentAt]
    exact hparent

/-- `remove` leaves the nodes above the leaves alone. -/
theorem remove_sameShape {b : Bool} (h : idx.remove key = some (idx', b)) :
    SameShape idx.pages idx'.pages ∧ idx'.rootPageId = idx.rootPageId ∧ idx'.nextPageId = idx.nextPageId := by
  rw [BTreeIndex.remove] at h
  cases hroot : idx.rootPageId with
  | none =>
    rw [hroot] at h
    obtain ⟨rfl, -⟩ := Prod.mk.inj (Option.some.inj h)
    exact ⟨.refl _, hroot, rfl⟩
  | some root =>
    simp only [hroot, Option.bind_eq_bind, Option.bind_eq_some_iff] at h
    obtain ⟨pid, -, leaf, hleaf, h⟩ := h
    split at h
    · rename_i leaf' _
      obtain ⟨rfl, -⟩ := Prod.mk.inj (Option.some.inj h)
      refine ⟨fun q => ?_, rfl, rfl⟩
      show _ = (setBody idx.pages pid (.leaf leaf') q).map Node.shape
      rw [setBody, setPage, Function.update_apply]
      split
      · rename_i hq
        rw [hq, pages_of_leafAt hleaf]
        rfl
      · rfl
    · obtain ⟨rfl, -⟩ := Prod.mk.inj (Option.some.inj h)
      exact ⟨.refl _, hroot, rfl⟩

-- ---------------------------------------------------------------------------
-- A tree that stands for a map
-- ---------------------------------------------------------------------------

/-- The tree holds the entries of the map, and its `parent_id` fields are right. -/
def Backs (idx : BTreeIndex) (index : IndexMap) : Prop :=
  ∃ (n : Nat) (t : Tree n), Represents idx t ∧ t.Parents idx.pages ∧ contents t.entries = index

/-- Other users of the buffer pool take pages. -/
def BTreeIndex.withNext (idx : BTreeIndex) (n : Nat) : BTreeIndex := { idx with nextPageId := n }

theorem Backs.withNext (h : Backs idx index) {n : Nat} (hn : idx.nextPageId ≤ n) : Backs (idx.withNext n) index := by
  obtain ⟨k, t, ht, hpar, hc⟩ := h
  exact ⟨k, t, ⟨ht.root, ht.stored, ht.ordered, ht.linked, ht.nodup,
    fun p hp => Nat.lt_of_lt_of_le (ht.allocated p hp) hn⟩, hpar, hc⟩

/-- **`create`.** -/
theorem Backs.create (idx : BTreeIndex) : Backs idx.create fun _ => none := by
  have hbody : bodyAt idx.create.pages idx.nextPageId = some (.leaf ⟨none, []⟩) := by
    rw [BTreeIndex.create, bodyAt_setPage, if_pos rfl]
  refine ⟨0, .leaf idx.nextPageId [], ⟨rfl, ⟨none, hbody⟩, ⟨List.Pairwise.nil, Nat.zero_le _,
    fun e he => (by cases he)⟩, ⟨⟨_, hbody⟩, trivial⟩, List.nodup_singleton _, fun p hp => ?_⟩, trivial, rfl⟩
  rw [List.mem_singleton.mp hp]
  exact Nat.lt_succ_self idx.nextPageId

/-- **`search`.** -/
theorem Backs.search (h : Backs idx index) (key : Int) :
    idx.search key = some ((index key).getD Rid.invalid) := by
  obtain ⟨n, t, ht, -, rfl⟩ := h
  exact search_spec ht key

/-- **`range_scan`**: the RIDs of the keys in the range, in the order of the keys. -/
theorem Backs.rangeScan (h : Backs idx index) (beginKey endKey : Int) :
    ∃ es : List Entry, idx.rangeScan beginKey endKey = some (es.map Prod.snd) ∧
      es.Pairwise (fun a b => a.1 < b.1) ∧
        ∀ k r, (k, r) ∈ es ↔ beginKey ≤ k ∧ k ≤ endKey ∧ index k = some r := by
  obtain ⟨n, t, ht, -, rfl⟩ := h
  have hsorted := ht.ordered.sorted_entries.1
  refine ⟨_, rangeScan_spec ht beginKey endKey, hsorted.sublist List.filter_sublist, fun k r => ?_⟩
  rw [List.mem_filter, decide_eq_true_iff, contents_eq_some hsorted, and_comm, and_assoc]

/-- The RIDs in a tree are valid. -/
theorem Tree.Ordered.isValid_of_mem {lo hi : Option Int} : {h : Nat} → {t : Tree h} → t.Ordered lo hi →
    ∀ e ∈ t.entries, e.2.isValid = true
  | 0, .leaf _ _, ⟨_, _, hw⟩, e, he => (hw e he).2
  | h + 1, .node _ _ cs, ⟨_, _, _, hsep⟩, e, he => by
    obtain ⟨c, hc, he⟩ := List.mem_flatMap.mp he
    obtain ⟨_, _, hordered⟩ := hsep.exists_of_mem hc
    exact hordered.isValid_of_mem e he

theorem Backs.isValid (h : Backs idx index) {r : Rid} (hk : index key = some r) : r.isValid = true := by
  obtain ⟨n, t, ht, -, rfl⟩ := h
  rw [contents_eq_some ht.ordered.sorted_entries.1] at hk
  exact ht.ordered.isValid_of_mem _ hk

/-- **`insert`** does what it does to the map. -/
theorem Backs.insert (h : Backs idx index) (hr : rid.isValid = true) (hok : idx.insertOk key = true) :
    ∃ idx', idx.insert key rid = some (idx', (index key).isNone) ∧ Backs idx' (index.insert key rid) := by
  have hvalid : ∀ r, index key = some r → r.isValid = true := fun r => h.isValid
  obtain ⟨n, t, ht, hpar, rfl⟩ := h
  rcases insert_spec ht hpar key hr with ⟨hsome, hins, -⟩ | ⟨hnone, idx', m, t', hins, hi⟩
  · refine ⟨idx, ?_, n, t, ht, hpar, ?_⟩
    · rw [hins, Option.isNone_eq_false_iff.mpr hsome]
    · obtain ⟨r, hk⟩ := Option.isSome_iff_exists.mp hsome
      rw [IndexMap.insert_of_valid hk (hvalid r hk)]
  · refine ⟨idx', ?_, m, t', hi.represents, hi.parents.mpr hok, ?_⟩
    · rw [hins, hnone]
      rfl
    · rw [hi.contents, IndexMap.insert_of_none hnone]
      funext k
      rw [Function.update_apply]

/-- **`remove`** does what it does to the map. -/
theorem Backs.remove (h : Backs idx index) (key : Int) :
    ∃ idx', idx.remove key = some (idx', (index key).isSome) ∧ Backs idx' (index.remove key) := by
  obtain ⟨n, t, ht, hpar, rfl⟩ := h
  obtain ⟨idx', t', hrem, ht', hc, -⟩ := remove_spec ht key
  obtain ⟨hshape, hroot, -⟩ := remove_sameShape hrem
  have hpid : t.pid = t'.pid := by
    have := ht'.root
    rw [hroot, ht.root] at this
    exact Option.some.inj this
  refine ⟨idx', hrem, n, t', ht', hpar.of_sameShape hshape ht.stored ht'.stored hpid, ?_⟩
  rw [hc]
  funext k
  rw [Function.update_apply, IndexMap.remove]

-- ---------------------------------------------------------------------------
-- A series of calls
-- ---------------------------------------------------------------------------

/-- What a call does to the map. -/
def IndexCall.apply (index : IndexMap) : IndexCall → IndexMap
  | .insert key rid => index.insert key rid
  | .remove key => index.remove key
  | _ => index

/-- The calls one after the other. -/
def callAll (idx : BTreeIndex) : List IndexCall → Option BTreeIndex
  | [] => some idx
  | call :: calls => (call.run idx).bind fun r => callAll r.1 calls

/-- No split on the way loses a `parent_id`. -/
def IndexCall.ok (idx : BTreeIndex) : IndexCall → Bool
  | .insert key _ => idx.insertOk key
  | _ => true

def callsOk (idx : BTreeIndex) : List IndexCall → Bool
  | [] => true
  | call :: calls => call.ok idx && (call.run idx).all fun r => callsOk r.1 calls

/-- The RID that the call puts in is one of a record. -/
def IndexCall.valid : IndexCall → Bool
  | .insert _ rid => rid.isValid
  | _ => true

/-- A call that only looks. -/
def IndexCall.looks : IndexCall → Bool
  | .insert _ _ | .remove _ => false
  | _ => true

theorem Backs.look (h : Backs idx index) (call : IndexCall) (hl : call.looks = true) (ha : call.apply index = index)
    {P : BTreeIndex → Prop} (hP : ∀ {idx' r}, call.run idx = some (idx', r) → P idx') :
    ∃ idx' r, call.run idx = some (idx', r) ∧ Backs idx' (call.apply index) ∧ P idx' := by
  obtain ⟨n, t, ht, hpar, hc⟩ := h
  obtain ⟨idx', r, hrun, -⟩ := ht.run hpar call
  have hsame : idx' = idx := by
    cases call with
    | insert key rid => cases hl
    | remove key => cases hl
    | _ =>
      rw [IndexCall.run, Option.map_eq_some_iff] at hrun
      obtain ⟨a, -, ha⟩ := hrun
      exact (Prod.mk.inj ha).1.symm
  rw [ha]
  exact ⟨idx', r, hrun, hsame ▸ ⟨n, t, ht, hpar, hc⟩, hP hrun⟩

/-- **One call.** -/
theorem Backs.call (h : Backs idx index) {call : IndexCall} {calls : List IndexCall} (hv : call.valid = true)
    (hok : callsOk idx (call :: calls) = true) :
    ∃ idx' r, call.run idx = some (idx', r) ∧ Backs idx' (call.apply index) ∧ callsOk idx' calls = true := by
  rw [callsOk, Bool.and_eq_true] at hok
  obtain ⟨hok, hrest⟩ := hok
  have hgo : ∀ {idx' r}, call.run idx = some (idx', r) → callsOk idx' calls = true := by
    intro idx' r hrun
    rw [hrun] at hrest
    exact hrest
  cases call with
  | insert key rid =>
    obtain ⟨idx', hins, hb⟩ := h.insert hv hok
    have hrun : (IndexCall.insert key rid).run idx = some (idx', .done (index key).isNone) := by
      rw [IndexCall.run, hins]
      rfl
    exact ⟨idx', _, hrun, hb, hgo hrun⟩
  | remove key =>
    obtain ⟨idx', hrem, hb⟩ := h.remove key
    have hrun : (IndexCall.remove key).run idx = some (idx', .done (index key).isSome) := by
      rw [IndexCall.run, hrem]
      rfl
    exact ⟨idx', _, hrun, hb, hgo hrun⟩
  | search key => exact h.look (.search key) rfl rfl hgo
  | rangeScan beginKey endKey => exact h.look (.rangeScan beginKey endKey) rfl rfl hgo
  | getStats => exact h.look .getStats rfl rfl hgo
  | getTreeLayout => exact h.look .getTreeLayout rfl rfl hgo

/-- **A series of calls** comes to its end, and does what it does to the map. -/
theorem Backs.callAll {calls : List IndexCall} (h : Backs idx index) (hv : ∀ c ∈ calls, c.valid = true)
    (hok : callsOk idx calls = true) :
    ∃ idx', callAll idx calls = some idx' ∧ Backs idx' (calls.foldl IndexCall.apply index) := by
  induction calls generalizing idx index with
  | nil => exact ⟨idx, rfl, h⟩
  | cons call calls ih =>
    obtain ⟨idx₁, r, hrun, hb, hok'⟩ := h.call (hv call List.mem_cons_self) hok
    obtain ⟨idx', hall, hb'⟩ := ih hb (fun c hc => hv c (List.mem_cons_of_mem _ hc)) hok'
    exact ⟨idx', by rw [Btree.callAll, hrun]; exact hall, hb'⟩

/-- The other calls take no page. -/
theorem IndexCall.run_next {call : IndexCall} {r : IndexResult} (hins : ∀ key rid, call ≠ .insert key rid)
    (h : call.run idx = some (idx', r)) : idx'.nextPageId = idx.nextPageId := by
  cases call with
  | insert key rid => exact absurd rfl (hins key rid)
  | remove key =>
    obtain ⟨⟨i, b⟩, hrem, hi⟩ := Option.map_eq_some_iff.mp h
    obtain ⟨rfl, -⟩ := Prod.mk.inj hi
    exact (remove_sameShape hrem).2.2
  | _ =>
    rw [IndexCall.run, Option.map_eq_some_iff] at h
    obtain ⟨a, -, ha⟩ := h
    rw [← (Prod.mk.inj ha).1]

theorem callAll_next {calls : List IndexCall} (hins : ∀ key rid, .insert key rid ∉ calls)
    (h : callAll idx calls = some idx') : idx'.nextPageId = idx.nextPageId := by
  induction calls generalizing idx with
  | nil => rw [Option.some.inj h]
  | cons call calls ih =>
    obtain ⟨⟨i, r⟩, hrun, hall⟩ := Option.bind_eq_some_iff.mp h
    have hfirst : ∀ key rid, call ≠ .insert key rid := fun key rid hc => hins key rid (hc ▸ List.mem_cons_self)
    rw [ih (fun key rid hc => hins key rid (List.mem_cons_of_mem _ hc)) hall, IndexCall.run_next hfirst hrun]

end PersistX.Btree
