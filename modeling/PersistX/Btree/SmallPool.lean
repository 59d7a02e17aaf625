import PersistX.Btree.Insert
import PersistX.Btree.NodeBytes
import PersistX.Btree.OverMap

/-!
# PersistX — the B+ tree over a small pool

The B+ tree on a buffer pool of at least two frames, as against the same code on
a plain map of pages. `Pooled` says that two frames are enough whatever the
pages hold, `OverMap` what the code does on the map; this module adds that on a
well-formed tree every call comes to an end there.

Main result: `index_over_small_pool`.
-/

namespace PersistX.Btree

open PageOps Pool Pool.Program Transition

-- ---------------------------------------------------------------------------
-- An insert ends whatever the RID
-- ---------------------------------------------------------------------------

/-- What `insert_into_parent` reads of a node. -/
def Node.shape (n : Node) : Option Nat × Option Internal := (n.parentId, n.body.internal?)

/-- Pages that differ in the entries of leaves only. -/
def SameShape (pages pages' : Pages) : Prop := ∀ p, (pages p).map Node.shape = (pages' p).map Node.shape

section SameShape

variable {pages pages' : Pages} {idx idx' : BTreeIndex}

theorem SameShape.parentAt (h : SameShape pages pages') (p : Nat) : parentAt pages p = parentAt pages' p := by
  have hp : ∀ ps : Pages, Btree.parentAt ps p = ((ps p).map Node.shape).bind Prod.fst := by
    intro ps
    rw [Btree.parentAt]
    cases ps p <;> rfl
  rw [hp, hp, h p]

theorem SameShape.internalAt (h : SameShape idx.pages idx'.pages) (p : Nat) :
    idx.internalAt p = idx'.internalAt p := by
  have hp : ∀ i : BTreeIndex, i.internalAt p = ((i.pages p).map Node.shape).bind Prod.snd := by
    intro i
    rw [BTreeIndex.internalAt, bodyAt]
    cases i.pages p with
    | none => rfl
    | some node =>
      obtain ⟨parent, body⟩ := node
      cases body <;> rfl
  rw [hp, hp, h p]

theorem SameShape.setPage (h : SameShape pages pages') {n m : Node} (hs : n.shape = m.shape) (p : Nat) :
    SameShape (setPage pages p n) (setPage pages' p m) := by
  intro q
  rw [Btree.setPage, Btree.setPage, Function.update_apply, Function.update_apply]
  split
  · exact congrArg some hs
  · exact h q

theorem SameShape.setParentId (h : SameShape pages pages') (p parent : Nat) :
    SameShape (setParentId pages p parent) (setParentId pages' p parent) := by
  have hp := h p
  unfold Btree.setParentId
  cases hn : pages p with
  | none =>
    rw [hn] at hp
    cases hm : pages' p with
    | none => exact h
    | some m =>
      rw [hm] at hp
      cases hp
  | some n =>
    rw [hn] at hp
    cases hm : pages' p with
    | none =>
      rw [hm] at hp
      cases hp
    | some m =>
      rw [hm] at hp
      have hs : n.body.internal? = m.body.internal? := congrArg Prod.snd (Option.some.inj hp)
      have hshape : ({ n with parentId := some parent } : Node).shape =
          ({ m with parentId := some parent } : Node).shape := Prod.ext rfl hs
      exact h.setPage hshape p

theorem SameShape.setParentIds (parent : Nat) : ∀ {pids : List Nat} {pages pages' : Pages},
    SameShape pages pages' → SameShape (setParentIds pages pids parent) (setParentIds pages' pids parent)
  | [], _, _, h => h
  | pid :: pids, _, _, h => @SameShape.setParentIds parent pids _ _ (h.setParentId pid parent)

theorem SameShape.setBody (h : SameShape pages pages') (p : Nat) {b b' : Body}
    (hb : b.internal? = b'.internal?) : SameShape (setBody pages p b) (setBody pages' p b') := by
  refine h.setPage ?_ p
  rw [Node.shape, Node.shape, h.parentAt p]
  exact Prod.ext rfl hb

/-- Indexes that differ in the entries of leaves only. -/
structure BTreeIndex.Alike (idx idx' : BTreeIndex) : Prop where
  shape : SameShape idx.pages idx'.pages
  next : idx.nextPageId = idx'.nextPageId
  root : idx.rootPageId = idx'.rootPageId

theorem BTreeIndex.Alike.splitParent (h : idx.Alike idx') {pid newPid : Nat} {big : Internal} {i : BTreeIndex}
    {key : Int} (hs : idx.splitParent pid big = some (i, key, newPid)) :
    ∃ i', idx'.splitParent pid big = some (i', key, newPid) ∧ i.Alike i' := by
  unfold BTreeIndex.splitParent at hs ⊢
  obtain ⟨k, hk, hs⟩ := Option.bind_eq_some_iff.mp hs
  cases hs
  simp only [hk, ← h.next, Option.bind_eq_bind, Option.bind_some]
  refine ⟨_, rfl, ?_, rfl, h.root⟩
  exact SameShape.setParentIds _ ((h.shape.setBody pid rfl).setPage rfl _)

theorem BTreeIndex.Alike.insertIntoParent : ∀ {fuel left right : Nat} {key : Int} {idx idx' i : BTreeIndex},
    idx.Alike idx' → BTreeIndex.insertIntoParent fuel idx left key right = some i →
    ∃ i', BTreeIndex.insertIntoParent fuel idx' left key right = some i' ∧ i.Alike i'
  | 0, _, _, _, _, _, _, _, hs => by cases hs
  | fuel + 1, left, right, key, idx, idx', i, h, hs => by
    unfold BTreeIndex.insertIntoParent at hs ⊢
    rw [h.root] at hs
    split at hs
    · rename_i htop
      cases hs
      rw [if_pos htop]
      refine ⟨_, rfl, ?_, ?_, ?_⟩
      · simp only [BTreeIndex.newRoot, ← h.next]
        exact SameShape.setParentIds _ (h.shape.setPage rfl _)
      · exact congrArg (· + 1) h.next
      · exact congrArg some h.next
    · rename_i htop
      rw [if_neg htop]
      obtain ⟨parentPid, hparentPid, hs⟩ := Option.bind_eq_some_iff.mp hs
      obtain ⟨parent, hparent, hs⟩ := Option.bind_eq_some_iff.mp hs
      rw [h.shape.parentAt] at hparentPid
      rw [h.shape.internalAt] at hparent
      simp only [hparentPid, hparent, Option.bind_eq_bind, Option.bind_some]
      split at hs
      · rename_i hmem
        rw [if_pos hmem]
        split at hs
        · cases hs
          exact ⟨_, rfl, (h.shape.setBody parentPid rfl).setParentId right parentPid, h.next, rfl⟩
        · rename_i hins
          obtain ⟨⟨i₁, pushUp, newPid⟩, hsplit, hs⟩ := Option.bind_eq_some_iff.mp hs
          obtain ⟨i₂, hsplit', ha⟩ := h.splitParent hsplit
          rw [hsplit']
          exact ha.insertIntoParent hs
      · cases hs

/-- What an insert does to the tree does not depend on the RID. -/
theorem insert_alike {key : Int} {rid : Rid} {i : BTreeIndex} {b : Bool} (rid' : Rid)
    (h : idx.insert key rid = some (i, b)) : ∃ i', idx.insert key rid' = some (i', b) ∧ i.Alike i' := by
  have hleaf : ∀ {l l' : Leaf}, l.insert key rid = some l' → ∃ l'', l.insert key rid' = some l'' := by
    intro l l' hl
    unfold Leaf.insert at hl ⊢
    split at hl
    · cases hl
    · rename_i hroom
      exact ⟨_, if_neg hroom⟩
  have hsame : ∀ {pages : Pages} {next : Nat} {root : Option Nat} (p : Nat) (l l' : Leaf),
      BTreeIndex.Alike ⟨setBody pages p (.leaf l), next, root⟩ ⟨setBody pages p (.leaf l'), next, root⟩ :=
    fun p l l' => ⟨SameShape.setBody (fun _ => rfl) p rfl, rfl, rfl⟩
  unfold BTreeIndex.insert at h ⊢
  cases hroot : idx.rootPageId with
  | none =>
    simp only [hroot] at h
    cases h
    exact ⟨idx, rfl, fun _ => rfl, rfl, rfl⟩
  | some root =>
    simp only [hroot] at h ⊢
    obtain ⟨pid, hfind, h⟩ := Option.bind_eq_some_iff.mp h
    obtain ⟨leaf, hleafAt, h⟩ := Option.bind_eq_some_iff.mp h
    simp only [hfind, hleafAt, Option.bind_eq_bind, Option.bind_some]
    split at h
    · rename_i hdup
      cases h
      rw [if_pos hdup]
      exact ⟨idx, rfl, fun _ => rfl, rfl, rfl⟩
    · rename_i hdup
      rw [if_neg hdup]
      cases hins : leaf.insert key rid with
      | some leaf' =>
        obtain ⟨leaf'', hins'⟩ := hleaf hins
        simp only [hins] at h
        cases h
        simp only [hins']
        exact ⟨_, rfl, hsame pid leaf' leaf''⟩
      | none =>
        have hfull : leaf.insert key rid' = none := by
          unfold Leaf.insert at hins ⊢
          split at hins
          · rename_i hroom
            exact if_pos hroom
          · cases hins
        simp only [hins, hfull] at h ⊢
        obtain ⟨i₁, hsplit, h⟩ := Option.bind_eq_some_iff.mp h
        cases h
        unfold BTreeIndex.insertSplit at hsplit ⊢
        obtain ⟨⟨i₂, pushUp, newPid⟩, hcut, hsplit⟩ := Option.bind_eq_some_iff.mp hsplit
        obtain ⟨half, hhalf, hsplit⟩ := Option.bind_eq_some_iff.mp hsplit
        obtain ⟨half', hin, hsplit⟩ := Option.bind_eq_some_iff.mp hsplit
        obtain ⟨half'', hin'⟩ := hleaf hin
        obtain ⟨i₃, hi₃, halike⟩ :=
          (hsame (if key ≥ pushUp then newPid else pid) half' half'').insertIntoParent hsplit
        refine ⟨i₃, ?_, halike⟩
        simp only [hcut, hhalf, hin', Option.bind_eq_bind, Option.bind_some, hi₃]
        rfl

end SameShape

-- ---------------------------------------------------------------------------
-- The calls on a well-formed tree
-- ---------------------------------------------------------------------------

/-- What a call does to an index. -/
def IndexCall.run (idx : BTreeIndex) : IndexCall → Option (BTreeIndex × IndexResult)
  | .search key => (idx.search key).map fun r => (idx, .rid r)
  | .insert key rid => (idx.insert key rid).map fun r => (r.1, .done r.2)
  | .remove key => (idx.remove key).map fun r => (r.1, .done r.2)
  | .rangeScan beginKey endKey => (idx.rangeScan beginKey endKey).map fun rs => (idx, .rids rs)
  | .getStats => idx.getStats.map fun s => (idx, .stats s)
  | .getTreeLayout => idx.getTreeLayout.map fun l => (idx, .layout l)

/-- A key and a RID in the width of their fields. -/
def IndexCall.Fits : IndexCall → Prop
  | .insert key rid => KeyFits key ∧ RidFits rid
  | _ => True

/-- The pages that a call allocates at most, on a tree of this height. -/
def IndexCall.pages (h : Nat) : IndexCall → Nat
  | .insert _ _ => h + 2
  | _ => 0

section Calls

variable {idx : BTreeIndex} {h : Nat} {t : Tree h}

/-- On a well-formed tree every call comes to an end. -/
theorem Represents.run (ht : Represents idx t) (hpar : t.Parents idx.pages) (call : IndexCall) :
    ∃ idx' r, call.run idx = some (idx', r) ∧ idx'.nextPageId ≤ idx.nextPageId + call.pages h := by
  cases call with
  | search key =>
    rw [IndexCall.run, search_spec ht key]
    exact ⟨_, _, rfl, Nat.le_refl _⟩
  | insert key rid =>
    have hvalid : (⟨0, 0⟩ : Rid).isValid = true := by decide
    have hrun : ∃ i b, idx.insert key ⟨0, 0⟩ = some (i, b) ∧ i.nextPageId ≤ idx.nextPageId + (h + 2) := by
      rcases insert_spec ht hpar key hvalid with ⟨-, hins, -⟩ | ⟨-, i, _, _, hins, hi⟩
      · exact ⟨idx, false, hins, Nat.le_add_right _ _⟩
      · exact ⟨i, true, hins, hi.next⟩
    obtain ⟨i, b, hins, hnext⟩ := hrun
    obtain ⟨i', hins', halike⟩ := insert_alike rid hins
    rw [IndexCall.run, hins']
    exact ⟨_, _, rfl, halike.next ▸ hnext⟩
  | remove key =>
    obtain ⟨idx', -, hrun, -, -, hnext⟩ := remove_spec ht key
    rw [IndexCall.run, hrun]
    exact ⟨_, _, rfl, Nat.le_of_eq hnext⟩
  | rangeScan beginKey endKey =>
    rw [IndexCall.run, rangeScan_spec ht beginKey endKey]
    exact ⟨_, _, rfl, Nat.le_refl _⟩
  | getStats =>
    obtain ⟨stats, hrun, -⟩ := ht.stats
    rw [IndexCall.run, hrun]
    exact ⟨_, _, rfl, Nat.le_refl _⟩
  | getTreeLayout =>
    obtain ⟨layout, hrun, -⟩ := ht.layout
    rw [IndexCall.run, hrun]
    exact ⟨_, _, rfl, Nat.le_refl _⟩

variable {P : Type} [NodePage P] {env : List (Nat × Nat)}

/-- The program of a call does on the map what the call does to the index. -/
theorem IndexCall.does {call : IndexCall} {root : Nat} {idx' : BTreeIndex} {r : IndexResult}
    (hfits : call.Fits) (hids : idx'.nextPageId ≤ invalidPageId) (hroot : idx.rootPageId = some root)
    (hrootPage : (bodyAt idx.pages root).isSome = true)
    (hc : Closed idx.pages) (h : call.run idx = some (idx', r)) :
    Does idx.pages idx.nextPageId env (call.program (P := P) root idx.nextPageId) fun pages' next' a =>
      pages' = idx'.pages ∧ next' = idx'.nextPageId ∧ a.1 = r ∧ idx'.rootPageId = some a.2 := by
  have hqueue : ∀ p ∈ [root], (bodyAt idx.pages p).isSome = true := by
    intro p hp
    rw [List.mem_singleton.mp hp]
    exact hrootPage
  cases call with
  | search key =>
    obtain ⟨rid, hs, hr⟩ := Option.map_eq_some_iff.mp h
    cases hr
    rw [BTreeIndex.search, hroot] at hs
    obtain ⟨pid, hfind, hs⟩ := Option.bind_eq_some_iff.mp hs
    obtain ⟨leaf, hleaf, hs⟩ := Option.bind_eq_some_iff.mp hs
    cases hs
    refine (search_does hfind hleaf).bind fun pages' next' a hR => ?_
    obtain ⟨hp, hn, ha⟩ := hR
    rw [hp, hn, ha]
    exact Does.pure ⟨rfl, rfl, rfl, hroot⟩
  | insert key rid =>
    obtain ⟨⟨i, b⟩, hs, hr⟩ := Option.map_eq_some_iff.mp h
    cases hr
    refine (insert_does hfits.1 hfits.2 hids hroot hc hs).bind fun pages' next' a hR => ?_
    obtain ⟨hp, hn, ha, hroot'⟩ := hR
    exact Does.pure ⟨hp, hn, congrArg IndexResult.done ha, hroot'⟩
  | remove key =>
    obtain ⟨⟨i, b⟩, hs, hr⟩ := Option.map_eq_some_iff.mp h
    cases hr
    rw [BTreeIndex.remove, hroot] at hs
    obtain ⟨pid, hfind, hs⟩ := Option.bind_eq_some_iff.mp hs
    obtain ⟨leaf, hleaf, hs⟩ := Option.bind_eq_some_iff.mp hs
    refine (remove_does hfind hleaf).bind fun pages' next' a hR => ?_
    obtain ⟨ha, hn⟩ := hR
    rw [hn]
    cases hrem : leaf.remove key with
    | some leaf' =>
      simp only [hrem] at hs ha
      cases hs
      cases ha
      exact Does.pure ⟨rfl, rfl, rfl, rfl⟩
    | none =>
      simp only [hrem] at hs ha
      cases hs
      cases ha
      exact Does.pure ⟨rfl, rfl, rfl, hroot⟩
  | rangeScan beginKey endKey =>
    obtain ⟨rids, hs, hr⟩ := Option.map_eq_some_iff.mp h
    cases hr
    rw [BTreeIndex.rangeScan, hroot] at hs
    obtain ⟨pid, hfind, hs⟩ := Option.bind_eq_some_iff.mp hs
    refine Does.bind (R := fun pages' next' a => pages' = idx.pages ∧ next' = idx.nextPageId ∧ a = rids) ?_
      fun pages' next' a hR => ?_
    · refine (findLeaf_does beginKey hfind).bind fun pages' next' a hR => ?_
      obtain ⟨hp, hn, ha⟩ := hR
      rw [hp, hn, ha]
      exact scanLoop_does beginKey endKey hs
    · obtain ⟨hp, hn, ha⟩ := hR
      rw [hp, hn, ha]
      exact Does.pure ⟨rfl, rfl, rfl, hroot⟩
  | getStats =>
    obtain ⟨stats, hs, hr⟩ := Option.map_eq_some_iff.mp h
    cases hr
    rw [BTreeIndex.getStats, hroot] at hs
    refine (statsLoop_does hc hqueue hs).bind fun pages' next' a hR => ?_
    obtain ⟨hp, hn, ha⟩ := hR
    rw [hp, hn, ha]
    exact Does.pure ⟨rfl, rfl, rfl, hroot⟩
  | getTreeLayout =>
    obtain ⟨layout, hs, hr⟩ := Option.map_eq_some_iff.mp h
    cases hr
    rw [BTreeIndex.getTreeLayout, hroot] at hs
    refine (layoutLoop_does hc hqueue hs).bind fun pages' next' a hR => ?_
    obtain ⟨hp, hn, ha⟩ := hR
    rw [hp, hn, ha]
    exact Does.pure ⟨rfl, rfl, rfl, hroot⟩

-- Only the pages of the tree ---------------------------------------------------

/-- The index without the pages that are not in the tree. -/
def BTreeIndex.only (idx : BTreeIndex) (ids : List Nat) : BTreeIndex :=
  { idx with pages := fun p => if p ∈ ids then idx.pages p else none }

theorem bodyAt_only {ids : List Nat} {p : Nat} (hp : p ∈ ids) :
    bodyAt (idx.only ids).pages p = bodyAt idx.pages p := by
  simp only [bodyAt, BTreeIndex.only, if_pos hp]

theorem parentAt_only {ids : List Nat} {p : Nat} (hp : p ∈ ids) :
    parentAt (idx.only ids).pages p = parentAt idx.pages p := by
  simp only [parentAt, BTreeIndex.only, if_pos hp]

/-- The other pages of the index do not matter. -/
theorem Represents.congr (ht : Represents idx t) {idx' : BTreeIndex} (hroot : idx'.rootPageId = idx.rootPageId)
    (hnext : idx'.nextPageId = idx.nextPageId)
    (hbody : ∀ q ∈ t.ids, bodyAt idx'.pages q = bodyAt idx.pages q) : Represents idx' t where
  root := hroot.trans ht.root
  stored := ht.stored.congr hbody
  ordered := ht.ordered
  linked := ht.linked.congr fun q hq => hbody q (t.leafIds_subset_ids hq)
  nodup := ht.nodup
  allocated := by
    rw [hnext]
    exact ht.allocated

theorem Represents.only (ht : Represents idx t) : Represents (idx.only t.ids) t :=
  ht.congr rfl rfl fun _ hq => bodyAt_only hq

/-- The children of a tree's pages are pages of the tree. -/
theorem Tree.Stored.children {pages : Pages} : {h : Nat} → {t : Tree h} → t.Stored pages →
    ∀ {p : Nat} {body : Body}, p ∈ t.ids → Btree.bodyAt pages p = some body →
      ∀ c ∈ body.children, c ∈ t.ids ∧ (Btree.bodyAt pages c).isSome = true
  | 0, .leaf q es, ⟨next, hs⟩, p, body, hp, hb, c, hc => by
    have hpq : p = q := List.mem_singleton.mp hp
    rw [hpq, hs] at hb
    cases hb
    exact absurd hc List.not_mem_nil
  | h + 1, .node q ks cs, hs, p, body, hp, hb, c, hc => by
    rcases List.mem_cons.mp hp with rfl | hp
    · rw [hs.1] at hb
      cases hb
      obtain ⟨x, hx, rfl⟩ := List.mem_map.mp hc
      exact ⟨List.mem_cons_of_mem _ (mem_ids_of_mem hx x.pid_mem_ids), (hs.2 x hx).isSome⟩
    · obtain ⟨x, hx, hpx⟩ := List.mem_flatMap.mp hp
      obtain ⟨hmem, hsome⟩ := Tree.Stored.children (hs.2 x hx) hpx hb c hc
      exact ⟨List.mem_cons_of_mem _ (mem_ids_of_mem hx hmem), hsome⟩

theorem Represents.closed (ht : Represents idx t) : Closed (idx.only t.ids).pages := by
  intro p body hb c hc
  have hp : p ∈ t.ids := by
    by_contra hnot
    simp [bodyAt, BTreeIndex.only, hnot] at hb
  exact (ht.only.stored.children hp hb c hc).2

end Calls

-- ---------------------------------------------------------------------------
-- The pool before the call
-- ---------------------------------------------------------------------------

section Reached

variable {P : Type}

/-- The pin count of a page. -/
def pinCount (bm : BufferManager P) (p : Nat) : Nat :=
  (bm.pageTable (some p)).elim 0 fun f => (bm.frames f).pinCount

/-- `delete_page` in a session: what was not written to the file is lost. -/
def deletePage (s : Session P) (p : Nat) : Session P :=
  { s with
    bm := (s.bm.deletePage (some p)).1
    mem := if (s.bm.deletePage (some p)).2 = true then Function.update s.mem p (s.bm.disk (some p)) else s.mem }

/-- The sessions that calls on allocated page ids lead to. -/
inductive Reached [PageOps P] : Session P → Prop
  | start (poolSize : Nat) (disk : PageId → P) (nextPageId : Nat) (log : Option LogManager) :
    Reached (Session.start poolSize disk nextPageId log)
  | call {s s' : Session P} (e : ClientEvent P) : Reached s → s.Allowed e → s.step e = some s' → Reached s'
  | deletePage {s : Session P} (p : Nat) : Reached s → p < s.bm.nextPageId → Reached (Btree.deletePage s p)

theorem inv_deletePage {s : Session P} (h : s.Inv) (p : Nat) : (deletePage s p).Inv := by
  have hc := h.consistent.deletePage (some p)
  unfold deletePage
  unfold BufferManager.deletePage at hc ⊢
  cases hp : s.bm.pageTable (some p) with
  | none =>
    have hmem : Function.update s.mem p (s.bm.disk (some p)) = s.mem := by
      rw [h.disk hp]
      exact Function.update_eq_self p s.mem
    simp only [if_true, hmem]
    exact h
  | some f =>
    simp only [hp] at hc ⊢
    by_cases hpin : (s.bm.frames f).pinCount > 0
    · simp only [if_pos hpin]
      exact h
    · simp only [if_neg hpin] at hc ⊢
      obtain ⟨hlt, hnfree, hid⟩ := h.consistent.table _ f hp
      have hpins := h.notPinned hlt hnfree (Nat.eq_zero_of_not_pos hpin)
      have hne : ∀ m g, m ≠ p → s.bm.pageTable (some m) = some g → g ≠ f := by
        rintro m g hmp hm rfl
        exact hmp (Option.some.inj ((h.consistent.table _ g hm).2.2.symm.trans hid))
      refine ⟨hc, fun q g hq => ?_, fun pin hmem => ?_, fun g hg hgf => ?_, fun g hg => ?_, h.fresh,
        fun m g hm => ?_, fun m => ?_⟩
      · simp only [Function.update_apply] at hq
        split at hq
        · cases hq
        · exact h.allocated q g hq
      · have hpage : some pin.page ≠ some p := by
          intro heq
          have hframe := h.pinned pin hmem
          rw [heq, hp] at hframe
          exact hpins pin hmem (Option.some.inj hframe).symm
        simp only [Function.update_of_ne hpage]
        exact h.pinned pin hmem
      · simp only [List.mem_append, List.mem_singleton, not_or] at hgf
        simp only [BufferManager.setFrame, Function.update_of_ne hgf.2]
        exact h.pinCount g hg hgf.1
      · by_cases hgf : g = f
        · simp only [hgf, BufferManager.setFrame, Function.update_self]
        · simp only [BufferManager.setFrame, Function.update_of_ne hgf]
          rcases List.mem_append.mp hg with hg | hg
          · exact h.free g hg
          · exact absurd (List.mem_singleton.mp hg) hgf
      · simp only [Function.update_apply, Option.some.injEq] at hm
        split at hm
        · cases hm
        · rename_i hmp
          simp only [BufferManager.setFrame, Function.update_of_ne (hne m g hmp hm), if_true,
            Function.update_of_ne hmp]
          exact h.resident m g hm
      · by_cases hmp : m = p
        · left
          simp only [hmp, if_true, Function.update_self]
          rfl
        · simp only [if_true, Function.update_of_ne hmp]
          rcases h.clean m with hd | ⟨g, hg, hpend⟩
          · exact .inl hd
          · refine .inr ⟨g, ?_, ?_⟩
            · rw [Function.update_of_ne (fun heq => hmp (Option.some.inj heq))]
              exact hg
            · unfold Session.Pending at hpend ⊢
              simp only [BufferManager.setFrame, Function.update_of_ne (hne m g hmp hg)]
              exact hpend

variable {s : Session P}

theorem Reached.inv [PageOps P] (h : Reached s) : s.Inv := by
  induction h with
  | start poolSize disk nextPageId log => exact Session.inv_start poolSize disk nextPageId log
  | call e _ hok hstep ih => exact Session.inv_step _ e _ ih hok hstep
  | deletePage p _ _ ih => exact inv_deletePage ih p

theorem pinCount_eq_zero (h : s.Inv) (hpins : s.pins = []) (p : Nat) : pinCount s.bm p = 0 := by
  unfold pinCount
  cases hp : s.bm.pageTable (some p) with
  | none => rfl
  | some f =>
    obtain ⟨hlt, hnfree, -⟩ := h.consistent.table _ f hp
    show (s.bm.frames f).pinCount = 0
    rw [h.pinCount f hlt hnfree, hpins]
    rfl

theorem pins_eq_nil (h : s.Inv) (hnone : ∀ p, pinCount s.bm p = 0) : s.pins = [] := by
  refine List.eq_nil_iff_forall_not_mem.mpr fun pin hpin => ?_
  obtain ⟨hres, hcount, -⟩ := h.pin hpin
  have hzero := hnone pin.page
  unfold pinCount at hzero
  rw [hres] at hzero
  have : (s.bm.frames pin.frame).pinCount = 0 := hzero
  omega

variable [PageOps P]

theorem Reached.steps {s' : Session P} (h : Reached s) (hs : Steps Session.step Session.Allowed s s') :
    Reached s' := by
  induction hs with
  | refl => exact h
  | snoc _ hok hstep ih => exact .call _ ih hok hstep

/-- Calls that do not write a page. -/
def Quiet (s : Session P) (e : ClientEvent P) : Prop := s.Allowed e ∧ ∀ pin x, e ≠ .write pin x

theorem fetchPage_nextPageId (bm : BufferManager P) (p : PageId) :
    (bm.fetchPage p).1.nextPageId = bm.nextPageId := by
  unfold BufferManager.fetchPage
  split
  · rfl
  · split
    · rfl
    · rename_i bm' f ht
      exact (BufferManager.takeFrame_nextPageId ht : bm'.nextPageId = bm.nextPageId)

theorem flushPage_nextPageId (bm : BufferManager P) (p : PageId) :
    (bm.flushPage p).1.nextPageId = bm.nextPageId := by
  unfold BufferManager.flushPage
  split <;> rfl

omit [PageOps P] in
theorem unpinPage_nextPageId (bm : BufferManager P) (p : PageId) (d : Bool) :
    (bm.unpinPage p d).1.nextPageId = bm.nextPageId := by
  unfold BufferManager.unpinPage
  split
  · rfl
  · dsimp only
    split
    · rfl
    · split <;> rfl

/-- Such a call leaves every allocated page as it is. -/
theorem mem_of_quiet_step {s s' : Session P} {e : ClientEvent P} (hq : Quiet s e)
    (hstep : s.step e = some s') :
    s.bm.nextPageId ≤ s'.bm.nextPageId ∧ ∀ p < s.bm.nextPageId, s'.mem p = s.mem p := by
  cases e with
  | fetchPage n =>
    have hnext := fetchPage_nextPageId s.bm (some n)
    simp only [Session.step] at hstep
    split at hstep
    all_goals
      rename_i hf
      cases hstep
      rw [hf] at hnext
      exact ⟨Nat.le_of_eq hnext.symm, fun _ _ => rfl⟩
  | newPage =>
    cases ht : s.bm.takeFrame with
    | none =>
      simp only [Session.step, BufferManager.newPage_of_takeFrame_none ht] at hstep
      cases hstep
      exact ⟨Nat.le_refl _, fun _ _ => rfl⟩
    | some r =>
      obtain ⟨bm, f⟩ := r
      have hids : s.bm.IdsLeft := hq.1
      simp only [Session.step, BufferManager.newPage_of_idsLeft hids ht] at hstep
      cases hstep
      refine ⟨Nat.le_succ _, fun p hp => ?_⟩
      exact Function.update_of_ne (Nat.ne_of_lt hp) _ _
  | write pin x => exact absurd rfl (hq.2 pin x)
  | unpinPage pin d =>
    cases hstep
    exact ⟨Nat.le_of_eq (unpinPage_nextPageId _ _ _).symm, fun _ _ => rfl⟩
  | flushPage n =>
    cases hstep
    exact ⟨Nat.le_of_eq (flushPage_nextPageId _ _).symm, fun _ _ => rfl⟩
  | flushAllPages =>
    cases hstep
    exact ⟨Nat.le_of_eq (BufferManager.sameShape_flushAllPages s.bm).nextPageId.symm, fun _ _ => rfl⟩

theorem mem_of_quiet {s s' : Session P} (h : Steps Session.step Quiet s s') :
    s.bm.nextPageId ≤ s'.bm.nextPageId ∧ ∀ p < s.bm.nextPageId, s'.mem p = s.mem p := by
  induction h with
  | refl => exact ⟨Nat.le_refl _, fun _ _ => rfl⟩
  | snoc _ hq hstep ih =>
    obtain ⟨hle, hmem⟩ := mem_of_quiet_step hq hstep
    exact ⟨Nat.le_trans ih.1 hle, fun p hp => (hmem p (Nat.lt_of_lt_of_le hp ih.1)).trans (ih.2 p hp)⟩

end Reached

-- ---------------------------------------------------------------------------
-- The index over the pool
-- ---------------------------------------------------------------------------

section SmallPool

variable {P : Type} [NodePage P] {s : Session P} {root h : Nat} {t : Tree h}

/-- The index with this root that is stored through the pool. -/
def storedIndex (s : Session P) (root : Nat) : BTreeIndex where
  pages p := NodePage.node (s.mem p)
  nextPageId := s.bm.nextPageId
  rootPageId := some root

/-- There are ids for all pages that a call may allocate. -/
def IdsLeftFor (bm : BufferManager P) (call : IndexCall) (h : Nat) : Prop :=
  bm.nextPageId + call.pages h ≤ invalidPageId

/-- On the map of pages, a call on a well-formed tree comes to an end with the result that
`BTreeIndex` gives. -/
theorem call_on_map (ht : Represents (storedIndex s root) t) (hpar : t.Parents (storedIndex s root).pages)
    {call : IndexCall} (hfits : call.Fits) (hids : IdsLeftFor s.bm call h) :
    ∃ idx' r root' ms', call.run ((storedIndex s root).only t.ids) = some (idx', r) ∧
      idx'.rootPageId = some root' ∧
      (call.program root s.bm.nextPageId).runMap ⟨s.mem, s.bm.nextPageId, []⟩ = some ((r, root'), ms') ∧
      Stands idx'.pages idx'.nextPageId [] ms' ∧ ms'.nextPageId ≤ invalidPageId := by
  have hparents : t.Parents ((storedIndex s root).only t.ids).pages := hpar.congr fun _ hq => parentAt_only hq
  obtain ⟨idx', r, hrun, hgrown⟩ := ht.only.run hparents call
  have hids' : idx'.nextPageId ≤ invalidPageId := Nat.le_trans hgrown hids
  have hroot : root = t.pid := Option.some.inj ht.root
  have hrootPage : (bodyAt ((storedIndex s root).only t.ids).pages root).isSome = true := by
    rw [hroot]
    exact ht.only.stored.isSome
  have hstands : Stands ((storedIndex s root).only t.ids).pages s.bm.nextPageId []
      (⟨s.mem, s.bm.nextPageId, []⟩ : MapState P) := by
    refine ⟨rfl, fun p node hp => ?_, fun p node hp => ?_, fun e he => absurd he List.not_mem_nil⟩
    all_goals
      simp only [BTreeIndex.only, Option.ite_none_right_eq_some] at hp
    · exact ht.allocated p hp.1
    · exact hp.2
  obtain ⟨a, ms', pages', next', hmap, hs', hpages, hnext, hr, hroot'⟩ :=
    IndexCall.does hfits hids' rfl hrootPage ht.closed hrun _ hstands
  rw [hpages, hnext] at hs'
  exact ⟨idx', r, a.2, ms', hrun, hroot', by rw [← hr]; exact hmap, hs', hs'.allocated ▸ hids'⟩

/-- **The B+ tree over a small pool.** On every pool of at least two frames with no page
pinned, every call on a well-formed tree does what the same code does on a map of pages
that never evicts: no `fetch_page` or `new_page` is refused, the result is the same, all
pins are given back, and what is read back from any page later is the same. A key is an
`int64_t`, a RID has the width of its fields, and the page counter stays below
`INVALID_PAGE_ID`. -/
theorem index_over_small_pool (hreach : Reached s) (hsize : 2 ≤ s.bm.poolSize)
    (hpins : ∀ p, pinCount s.bm p = 0) (ht : Represents (storedIndex s root) t)
    (hpar : t.Parents (storedIndex s root).pages) (call : IndexCall) (hfits : call.Fits)
    (hids : IdsLeftFor s.bm call h) :
    ∃ result ms' ps' s',
      (call.program root s.bm.nextPageId).runMap ⟨s.mem, s.bm.nextPageId, []⟩ = some (result, ms') ∧
      (call.program root s.bm.nextPageId).runPool ⟨s.bm, [], false⟩ = some (result, ps') ∧
      ps'.refused = false ∧ (∀ p, pinCount ps'.bm p = pinCount s.bm p) ∧ Reached s' ∧ s'.bm = ps'.bm ∧
      ∀ s'', Steps Session.step Quiet s' s'' → ∀ p < ms'.nextPageId, ∀ f,
        (s''.bm.fetchPage (some p)).2 = some f →
          ((s''.bm.fetchPage (some p)).1.frames f).page = ms'.mem p := by
  obtain ⟨idx', r, root', ms', -, -, hmap, -, hids'⟩ := call_on_map ht hpar hfits hids
  have hinv := hreach.inv
  have hnil := pins_eq_nil hinv hpins
  have hagree : Agree 0 [] ⟨s.bm, [], false⟩ ⟨s.mem, s.bm.nextPageId, []⟩ s := by
    refine ⟨hinv, rfl, rfl, rfl, rfl, rfl, ?_, fun g hg => absurd hg List.not_mem_nil, fun p hp => ?_⟩
    · rw [hnil]
      exact List.Perm.refl []
    · obtain ⟨pin, hpin, -⟩ := hinv.fresh p hp
      rw [hnil] at hpin
      exact absurd hpin List.not_mem_nil
  have htidy := IndexCall.balanced (P := P) root s.bm.nextPageId call 0 [] (Nat.le_refl 2)
  obtain ⟨ps', s', n', held', hpool, hrefused, hsteps, hagree', hheld⟩ :=
    tidy_runs htidy hagree hsize (by decide) hids' hmap
  have hpins' : s'.pins = [] := by
    have hperm := hagree'.pins
    rw [hheld] at hperm
    exact hperm.eq_nil
  refine ⟨(r, root'), ms', ps', s', hmap, hpool, hrefused, fun p => ?_, hreach.steps hsteps, hagree'.bm,
    fun s'' hquiet p hp f hf => ?_⟩
  · rw [hpins p, ← hagree'.bm, pinCount_eq_zero hagree'.inv hpins' p]
  · have hinv'' : s''.Inv := hquiet.invariant (fun a e b ha hok hab => Session.inv_step a e b ha hok.1 hab)
      hagree'.inv
    rw [← hagree'.next] at hp
    rw [hinv''.fetchPage_page hf, (mem_of_quiet hquiet).2 p hp, hagree'.mem]

end SmallPool

/-- Two leaves below a root in the file, under a pool of two frames. -/
def twoLeavesSession : Session Image :=
  Session.start 2 (fun p => (p.bind twoLeaves.pages).elim zero (NodePage.setNode zero)) 3 none

theorem twoLeaves_fits {q : Nat} (hq : q ∈ twoLeavesTree.ids) :
    ∃ node, twoLeaves.pages q = some node ∧ node.Fits := by
  have hids : q = 2 ∨ q = 0 ∨ q = 1 := by simpa [twoLeavesTree, Tree.ids] using hq
  rcases hids with rfl | rfl | rfl
  · exact ⟨_, rfl, idFits_none, ⟨rfl, by decide, by decide⟩, by decide⟩
  · exact ⟨_, rfl, idFits_some (by decide), ⟨by decide, idFits_some (by decide), by decide⟩⟩
  · exact ⟨_, rfl, idFits_some (by decide), ⟨by decide, idFits_none, by decide⟩⟩

theorem node_twoLeavesSession {q : Nat} (hq : q ∈ twoLeavesTree.ids) :
    (storedIndex twoLeavesSession 2).pages q = twoLeaves.pages q := by
  obtain ⟨node, hnode, hfits⟩ := twoLeaves_fits hq
  have hmem : twoLeavesSession.mem q = NodePage.setNode zero node := by
    show ((some q).bind twoLeaves.pages).elim zero (NodePage.setNode zero) = _
    rw [Option.bind_some, hnode]
    rfl
  show NodePage.node (twoLeavesSession.mem q) = _
  rw [hmem, hnode]
  exact NodePage.node_setNode _ hfits

theorem insert_over_two_frames : ∃ result ms' ps',
    ((IndexCall.insert 25 ⟨6, 0⟩).program 2 3).runMap ⟨twoLeavesSession.mem, 3, []⟩ = some (result, ms') ∧
    ((IndexCall.insert 25 ⟨6, 0⟩).program 2 3).runPool ⟨twoLeavesSession.bm, [], false⟩
      = some (result, ps') ∧ ps'.refused = false := by
  have hreach : Reached twoLeavesSession := .start 2 _ 3 none
  have ht : Represents (storedIndex twoLeavesSession 2) twoLeavesTree :=
    twoLeaves_represents.congr rfl rfl fun q hq => by rw [bodyAt, bodyAt, node_twoLeavesSession hq]
  have hpar : twoLeavesTree.Parents (storedIndex twoLeavesSession 2).pages :=
    twoLeaves_parents.congr fun q hq => by rw [parentAt, parentAt, node_twoLeavesSession hq]
  obtain ⟨result, ms', ps', s', hmap, hpool, hrefused, -⟩ := index_over_small_pool hreach (Nat.le_refl 2)
    (fun _ => rfl) ht hpar (.insert 25 ⟨6, 0⟩) ⟨⟨by decide, by decide⟩, by decide, by decide⟩
    (show 3 + (1 + 2) ≤ invalidPageId by decide)
  exact ⟨result, ms', ps', hmap, hpool, hrefused⟩

end PersistX.Btree
