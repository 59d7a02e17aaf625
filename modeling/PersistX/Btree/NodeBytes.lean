import PersistX.Btree.InternalBytes
import PersistX.Btree.Pooled
import PersistX.Disk.UnderPool
import Mathlib.Data.List.GetD

/-!
# PersistX — B+ tree nodes on the bytes of a page

The index model reads and writes nodes, the code the bytes of a page. `nodeOf` is
the node that the bytes spell: byte 4 says which kind, `parent_id` is at 7 in
both, and the rest is `leafOf` or `internalOf`.

Besides what `Btree/LeafBytes.lean` and `Btree/InternalBytes.lean` have, the code
writes to pages in `split_leaf`, in the new root of `insert_into_parent` and where
it sets `parent_id`; they are modelled here.

Main results:

* `page_follows_node` — whatever the code does to a page in place, the node on it becomes the
  one that `BTreeIndex` writes.
* `nodeOf_writeNode` — a node within capacity, written with the setters of
  `btree_page.cpp`, is read back.
-/

namespace PersistX.Btree

open Bytes Pool

-- ---------------------------------------------------------------------------
-- What a page spells
-- ---------------------------------------------------------------------------

/-- The node that the bytes of a page spell, if it is within capacity. -/
def nodeOf (b : Buffer) : Option Node :=
  if load b 4 1 = 1 then
    if LeafPage.numKeys b ≤ leafMaxEntries then some ⟨pageIdOf (load b 7 4), .leaf (LeafPage.leafOf b)⟩
    else none
  else
    if InternalPage.numKeys b ≤ internalMaxKeys then
      some ⟨pageIdOf (load b 7 4), .internal (InternalPage.internalOf b)⟩
    else none

variable {b b' : Buffer} {p : Option Nat} {l : Leaf} {n : Internal} {node : Node}

theorem nodeOf_leaf (htype : load b 4 1 = 1) (hn : LeafPage.numKeys b ≤ leafMaxEntries) :
    nodeOf b = some ⟨pageIdOf (load b 7 4), .leaf (LeafPage.leafOf b)⟩ := by
  rw [nodeOf, if_pos htype, if_pos hn]

theorem nodeOf_internal (htype : load b 4 1 ≠ 1) (hn : InternalPage.numKeys b ≤ internalMaxKeys) :
    nodeOf b = some ⟨pageIdOf (load b 7 4), .internal (InternalPage.internalOf b)⟩ := by
  rw [nodeOf, if_neg htype, if_pos hn]

/-- A page that spells a node is a leaf or an internal page. -/
theorem nodeOf_cases (h : nodeOf b = some node) :
    (load b 4 1 = 1 ∧ LeafPage.numKeys b ≤ leafMaxEntries ∧
      node = ⟨pageIdOf (load b 7 4), .leaf (LeafPage.leafOf b)⟩) ∨
    load b 4 1 ≠ 1 ∧ InternalPage.numKeys b ≤ internalMaxKeys ∧
      node = ⟨pageIdOf (load b 7 4), .internal (InternalPage.internalOf b)⟩ := by
  unfold nodeOf at h
  split at h
  · rename_i htype
    split at h
    · rename_i hn
      exact .inl ⟨htype, hn, (Option.some.inj h).symm⟩
    · cases h
  · rename_i htype
    split at h
    · rename_i hn
      exact .inr ⟨htype, hn, (Option.some.inj h).symm⟩
    · cases h

/-- What a page that spells a leaf holds. -/
theorem leaf_of_nodeOf (h : nodeOf b = some ⟨p, .leaf l⟩) :
    load b 4 1 = 1 ∧ LeafPage.numKeys b ≤ leafMaxEntries ∧ p = pageIdOf (load b 7 4) ∧
      l = LeafPage.leafOf b := by
  rcases nodeOf_cases h with ⟨htype, hn, heq⟩ | ⟨-, -, heq⟩
  · cases heq
    exact ⟨htype, hn, rfl, rfl⟩
  · cases heq

/-- What a page that spells an internal node holds. -/
theorem internal_of_nodeOf (h : nodeOf b = some ⟨p, .internal n⟩) :
    load b 4 1 ≠ 1 ∧ InternalPage.numKeys b ≤ internalMaxKeys ∧ p = pageIdOf (load b 7 4) ∧
      n = InternalPage.internalOf b := by
  rcases nodeOf_cases h with ⟨-, -, heq⟩ | ⟨htype, hn, heq⟩
  · cases heq
  · cases heq
    exact ⟨htype, hn, rfl, rfl⟩

-- Every number is in the width of its field. -----------------------------------

theorem idFits_pageIdOf {v : Nat} (h : v < 2 ^ 32) : IdFits (pageIdOf v) := by
  intro q hq
  unfold pageIdOf at hq
  split at hq
  · cases hq
  · rename_i hne
    obtain rfl := Option.some.inj hq
    unfold invalidPageId at hne ⊢
    omega

theorem keyFits_toInt (key : Int64) : KeyFits key.toInt := ⟨key.le_toInt, key.toInt_lt⟩

theorem LeafPage.leafOf_fits (hn : LeafPage.numKeys b ≤ leafMaxEntries) : (LeafPage.leafOf b).Fits where
  size := by rwa [LeafPage.leafOf_length]
  next := idFits_pageIdOf (load_lt b 11 4)
  entries e he := by
    obtain ⟨i, -, rfl⟩ := List.mem_map.mp he
    rw [LeafPage.entryAt_key, LeafPage.entryAt_rid]
    exact ⟨keyFits_toInt _, load_lt b _ 4, load_lt b _ 2⟩

theorem InternalPage.internalOf_fits (hn : InternalPage.numKeys b ≤ internalMaxKeys) :
    (InternalPage.internalOf b).Fits where
  children := by rw [InternalPage.length_children, InternalPage.length_keys]
  keys k hk := by
    obtain ⟨i, -, rfl⟩ := List.mem_map.mp hk
    exact keyFits_toInt _
  ids c hc := by
    obtain ⟨i, -, rfl⟩ := List.mem_map.mp hc
    exact InternalPage.childAt_lt b i
  size := by rwa [InternalPage.length_keys]

/-- A node on a page fits. -/
theorem fits_of_nodeOf (h : nodeOf b = some node) : node.Fits := by
  rcases nodeOf_cases h with ⟨-, hn, rfl⟩ | ⟨-, hn, rfl⟩
  · exact ⟨idFits_pageIdOf (load_lt b 7 4), LeafPage.leafOf_fits hn⟩
  · exact ⟨idFits_pageIdOf (load_lt b 7 4), InternalPage.internalOf_fits hn⟩

-- ---------------------------------------------------------------------------
-- Operations on one page
-- ---------------------------------------------------------------------------

/-- The header of a page of either kind has the same kind and the same parent. -/
theorem loads_of_slices {m : Nat} (hm : 0 + 4 ≤ m) (hbefore : slice b' 0 5 = slice b 0 5)
    (hbehind : slice b' 7 m = slice b 7 m) : load b' 4 1 = load b 4 1 ∧ load b' 7 4 = load b 7 4 := by
  have htype : load b' 4 1 = load b 4 1 := by
    rw [@load_eq_of_slice b' 0 5 4 1 (by decide), @load_eq_of_slice b 0 5 4 1 (by decide), hbefore]
  have hparent : load b' 7 4 = load b 7 4 := by
    rw [@load_eq_of_slice b' 7 m 0 4 hm, @load_eq_of_slice b 7 m 0 4 hm, hbehind]
  exact ⟨htype, hparent⟩

namespace LeafPage

variable {key : Int64} {rid : Rid}

/-- A leaf that was changed in place. -/
theorem SameHeader.nodeOf_eq (h : SameHeader b b') (hb : nodeOf b = some ⟨p, .leaf l⟩)
    (hfits : (LeafPage.leafOf b').Fits) : nodeOf b' = some ⟨p, .leaf (LeafPage.leafOf b')⟩ := by
  obtain ⟨htype, -, hp, -⟩ := leaf_of_nodeOf hb
  obtain ⟨htype', hparent⟩ := loads_of_slices (by decide) h.1 h.2
  have hn : numKeys b' ≤ leafMaxEntries := by
    rw [← leafOf_length]
    exact hfits.size
  rw [nodeOf_leaf (htype'.trans htype) hn, hparent, hp]

theorem insert_node (h : nodeOf b = some ⟨p, .leaf l⟩) (hs : Sorted l.entries) (key : Int64)
    (hrid : RidFits rid) :
    ∃ b', insert b key rid = some (b', (l.insert key.toInt rid).isSome) ∧
      nodeOf b' = some ⟨p, .leaf ((l.insert key.toInt rid).getD l)⟩ := by
  obtain ⟨-, hn, -, rfl⟩ := leaf_of_nodeOf h
  by_cases hroom : numKeys b < leafMaxEntries
  · obtain ⟨b', hb', hheader, hins⟩ := @insert_of_room b key rid hroom hs hrid.1 hrid.2
    rw [hins]
    have hfits : (leafOf b').Fits := (leafOf_fits hn).insert (keyFits_toInt key) hrid hins
    exact ⟨b', hb', hheader.nodeOf_eq h hfits⟩
  · have hfull : leafMaxEntries ≤ (leafOf b).entries.length := by
      rw [leafOf_length]
      omega
    rw [Leaf.insert_of_full hfull]
    exact ⟨b, insert_of_full (Nat.not_lt.mp hroom), h⟩

theorem remove_node (h : nodeOf b = some ⟨p, .leaf l⟩) (key : Int64) :
    ∃ b', remove b key = some (b', (l.remove key.toInt).isSome) ∧
      nodeOf b' = some ⟨p, .leaf ((l.remove key.toInt).getD l)⟩ := by
  obtain ⟨-, hn, -, rfl⟩ := leaf_of_nodeOf h
  by_cases hat : (leafOf b).keyIndex key.toInt < numKeys b ∧
      (entryAt b ((leafOf b).keyIndex key.toInt)).1 = key.toInt
  · obtain ⟨hpos, hkey⟩ := hat
    obtain ⟨b', hb', hheader, hentries⟩ := remove_of_key hn rfl hpos hkey
    have hrem : (leafOf b).remove key.toInt = some (leafOf b') := by
      rw [Leaf.remove]
      simp only [leafOf_getElem? hpos, hkey, if_true, ← hentries]
      exact congrArg some (hheader.leafOf rfl).symm
    rw [hrem]
    exact ⟨b', hb', hheader.nodeOf_eq h ((leafOf_fits hn).remove hrem)⟩
  · have hrem : (leafOf b).remove key.toInt = none := by
      rw [Leaf.remove]
      by_cases hpos : (leafOf b).keyIndex key.toInt < numKeys b
      · simp only [leafOf_getElem? hpos, if_neg (fun hkey => hat ⟨hpos, hkey⟩)]
      · rw [List.getElem?_eq_none (by rw [leafOf_length]; omega)]
    rw [hrem]
    exact ⟨b, remove_of_no_key hn rfl fun hpos hkey => hat ⟨hpos, hkey⟩, h⟩

end LeafPage

namespace InternalPage

variable {left right : Nat} {key : Int64}

/-- An internal page that was changed in place. -/
theorem SameHeader.nodeOf_eq (h : SameHeader b b') (hb : nodeOf b = some ⟨p, .internal n⟩)
    (hfits : (internalOf b').Fits) : nodeOf b' = some ⟨p, .internal (internalOf b')⟩ := by
  obtain ⟨htype, -, hp, -⟩ := internal_of_nodeOf hb
  obtain ⟨htype', hparent⟩ := loads_of_slices (by decide) h.1 h.2
  have hn : numKeys b' ≤ internalMaxKeys := by
    rw [← length_keys]
    exact hfits.size
  rw [nodeOf_internal (by rwa [htype']) hn, hparent, hp]

/-- Where a child stands for the first time. -/
theorem idxOf_child (hmem : left ∈ (internalOf b).children) :
    (internalOf b).children.idxOf left ≤ numKeys b ∧
      childAt b ((internalOf b).children.idxOf left) = left ∧
      ∀ k < (internalOf b).children.idxOf left, childAt b k ≠ left := by
  have hlt := List.idxOf_lt_length_of_mem hmem
  have hle : (internalOf b).children.idxOf left ≤ numKeys b := by
    rw [length_children] at hlt
    omega
  refine ⟨hle, ?_, fun k hk heq => ?_⟩
  · have hget := List.getElem?_eq_getElem hlt
    rw [List.getElem_idxOf, children_getElem? hle] at hget
    exact Option.some.inj hget
  · have hget := @children_getElem? b k (by omega)
    rw [heq] at hget
    obtain ⟨hklt, hget⟩ := List.getElem?_eq_some_iff.mp hget
    have hnot := List.not_of_lt_findIdx hk
    rw [hget, beq_self_eq_true] at hnot
    exact absurd hnot (by decide)

theorem insertAfter_node (h : nodeOf b = some ⟨p, .internal n⟩) (hmem : left ∈ n.children) (key : Int64)
    (hright : right < 2 ^ 32) :
    ∃ b', insertAfter b left key right = some (b', (n.insertAfter left key.toInt right).isSome) ∧
      nodeOf b' = some ⟨p, .internal ((n.insertAfter left key.toInt right).getD n)⟩ := by
  obtain ⟨-, hn, -, rfl⟩ := internal_of_nodeOf h
  by_cases hroom : numKeys b < internalMaxKeys
  · obtain ⟨hle, hat, hbefore⟩ := idxOf_child hmem
    obtain ⟨b', hb', hheader, hnode⟩ := @insertAfter_of_room b _ key hroom left right hle hat hbefore hright
    have hins : (internalOf b).insertAfter left key.toInt right = some (internalOf b') := by
      rw [Internal.insertAfter, if_neg (by rw [length_keys]; omega), hnode]
      rfl
    rw [hins]
    have hfits := (internalOf_fits hn).insertAfter (keyFits_toInt key) hright hins
    exact ⟨b', hb', hheader.nodeOf_eq h hfits⟩
  · have hins : (internalOf b).insertAfter left key.toInt right = none := by
      rw [Internal.insertAfter, if_pos (by rw [length_keys]; omega)]
    rw [hins]
    exact ⟨b, insertAfter_of_full (Nat.not_lt.mp hroom), h⟩

end InternalPage

/-- The `memcpy` of a `parent_id` into a page of either kind. -/
def setParentBytes (b : Buffer) (parent : Nat) : Option Buffer := writePage b 7 4 parent

theorem setParentBytes_node (h : nodeOf b = some node) {parent : Nat} (hparent : parent < invalidPageId) :
    ∃ b', setParentBytes b parent = some b' ∧ nodeOf b' = some { node with parentId := some parent } := by
  refine ⟨store b 7 4 parent, writeIn_of_le (by decide : 7 + 4 ≤ pageSize) b parent, ?_⟩
  have hid : pageIdOf (load (store b 7 4 parent) 7 4) = some parent := by
    have hlt : parent < 256 ^ 4 := Nat.lt_trans hparent (by decide)
    rw [load_store, Nat.mod_eq_of_lt hlt]
    exact if_neg (Nat.ne_of_lt hparent)
  have htype : load (store b 7 4 parent) 4 1 = load b 4 1 := load_store_disjoint (.inl (by decide))
  have hcount : load (store b 7 4 parent) 5 2 = load b 5 2 := load_store_disjoint (.inl (by decide))
  rcases nodeOf_cases h with ⟨hleaf, hn, rfl⟩ | ⟨hleaf, hn, rfl⟩
  · have hn' : LeafPage.numKeys (store b 7 4 parent) ≤ leafMaxEntries := by
      rwa [LeafPage.numKeys, hcount]
    have hbody : LeafPage.leafOf (store b 7 4 parent) = LeafPage.leafOf b := by
      have hentry : LeafPage.entryAt (store b 7 4 parent) = LeafPage.entryAt b := funext fun i =>
        congrArg LeafPage.entryOfBytes (slice_blit_disjoint
          (.inr (by rw [length_leBytes]; simp only [LeafPage.entryRows]; omega)))
      rw [LeafPage.leafOf, LeafPage.leafOf, LeafPage.numKeys, hcount, hentry,
        load_store_disjoint (.inr (by decide))]
      rfl
    rw [nodeOf_leaf (htype.trans hleaf) hn', hid, hbody]
  · have hn' : InternalPage.numKeys (store b 7 4 parent) ≤ internalMaxKeys := by
      rwa [InternalPage.numKeys, hcount]
    have hbody : InternalPage.internalOf (store b 7 4 parent) = InternalPage.internalOf b := by
      have hkey : InternalPage.keyAt (store b 7 4 parent) = InternalPage.keyAt b := funext fun i =>
        congrArg keyOfBytes (load_store_disjoint (.inr (by omega)))
      have hchild : InternalPage.childAt (store b 7 4 parent) = InternalPage.childAt b := funext fun i =>
        load_store_disjoint (.inr (by omega))
      rw [InternalPage.internalOf, InternalPage.internalOf, InternalPage.numKeys, hcount, hkey, hchild]
      rfl
    rw [nodeOf_internal (by rwa [htype]) hn', hid, hbody]

-- ---------------------------------------------------------------------------
-- split_leaf
-- ---------------------------------------------------------------------------

namespace LeafPage

/-- `init`. -/
def init (pid : Nat) : Option Buffer := do
  let b ← writePage (fun _ => 0) 0 4 pid
  let b ← writePage b 4 1 1
  let b ← setNumKeys b 0
  let b ← writePage b 7 4 invalidPageId
  writePage b 11 4 invalidPageId

/-- `get_parent_id`. -/
def getParentId (b : Buffer) : Option Nat := readPage b 7 4

/-- `set_parent_id`. -/
def setParentId (b : Buffer) (pid : Nat) : Option Buffer := writePage b 7 4 pid

/-- `get_next_leaf_id`. -/
def getNextLeafId (b : Buffer) : Option Nat := readPage b 11 4

/-- `set_next_leaf_id`. -/
def setNextLeafId (b : Buffer) (pid : Nat) : Option Buffer := writePage b 11 4 pid

/-- An element of the snapshot. -/
def getEntryAt (b : Buffer) (index : Nat) : Option (Int64 × Rid) := do
  let key ← getKeyAt b index
  let rid ← getRidAt b index
  return (key, rid)

/-- The loop that writes `m` entries to a page. -/
def writeEntries (entry : Nat → Int64 × Rid) (m : Nat) (b : Buffer) : Option Buffer :=
  (List.range m).foldlM (fun b i => do
    let b ← setKeyAt b i (entry i).1
    setRidAt b i (entry i).2) b

/-- `split_leaf`, without the pool: the pages of the left and the right half, and the key that
goes up. -/
def splitLeaf (b : Buffer) (newPid : Nat) : Option (Buffer × Int64 × Buffer) := do
  let n ← getNumKeys b
  let mid := n / 2
  let entries ← (List.range n).mapM (getEntryAt b)
  let r ← init newPid
  let next ← getNextLeafId b
  let r ← setNextLeafId r next
  let l ← setNextLeafId b newPid
  let parent ← getParentId l
  let r ← setParentId r parent
  let r ← writeEntries (fun i => entries.getD (mid + i) (0, Rid.invalid)) (n - mid) r
  let r ← setNumKeys r (n - mid)
  let l ← setNumKeys l mid
  let pushUp ← entries[mid]?
  return (l, pushUp.1, r)

/-- An entry as the page has it. -/
def storedAt (b : Buffer) (i : Nat) : Int64 × Rid :=
  (keyOfBytes (load b (15 + i * 14) 8), ⟨load b (15 + i * 14 + 8) 4, load b (15 + i * 14 + 12) 2⟩)

theorem entryAt_eq_storedAt (b : Buffer) (i : Nat) :
    entryAt b i = ((storedAt b i).1.toInt, (storedAt b i).2) := by
  rw [storedAt, ← entryAt_key, ← entryAt_rid]

theorem getEntryAt_eq {i : Nat} (hi : i < leafMaxEntries) (b : Buffer) :
    getEntryAt b i = some (storedAt b i) := by
  rw [getEntryAt, getKeyAt_eq hi, getRidAt_eq hi]
  rfl

theorem init_eq (pid : Nat) : init pid = some (store (store (store (store (store (fun _ => 0) 0 4 pid)
    4 1 1) 5 2 0) 7 4 invalidPageId) 11 4 invalidPageId) := by
  simp only [init, writePage, writeIn_of_le (by decide : 0 + 4 ≤ pageSize), Option.bind_eq_bind,
    Option.bind_some, writeIn_of_le (by decide : 4 + 1 ≤ pageSize), setNumKeys_eq,
    writeIn_of_le (by decide : 7 + 4 ≤ pageSize), writeIn_of_le (by decide : 11 + 4 ≤ pageSize)]

theorem leafOf_getElem {i : Nat} (hi : i < (leafOf b).entries.length) :
    (leafOf b).entries[i] = entryAt b i := by
  have hget := leafOf_getElem? (b := b) (i := i) (by rwa [leafOf_length] at hi)
  rw [List.getElem?_eq_getElem hi] at hget
  exact Option.some.inj hget

/-- The header is not among the entries. -/
theorem load_of_kept {lo hi off n : Nat} (h : entryRows.Kept b b' lo hi) (hoff : off + n ≤ 15) :
    load b' off n = load b off n :=
  load_congr fun a _ ha => h a (.inl (by simp only [entryRows]; omega))

/-- The loop fills the first `m` rows and leaves the rest of the page. -/
theorem writeEntries_spec {entry : Nat → Int64 × Rid} {m : Nat} (hm : m ≤ leafMaxEntries) (b : Buffer) :
    ∃ b', writeEntries entry m b = some b' ∧ entryRows.Kept b b' 0 m ∧
      ∀ i < m, entryRows.row b' i = bytesOfEntry (entry i).1 (entry i).2 := by
  induction m with
  | zero => exact ⟨b, rfl, .refl, fun i hi => absurd hi (Nat.not_lt_zero i)⟩
  | succ m ih =>
    obtain ⟨b₁, hb₁, hkept, hrows⟩ := ih (Nat.le_of_succ_le hm)
    obtain ⟨b₂, b₃, hb₂, hb₃, hrep⟩ := setEntry_spec hm b₁ (entry m).1 (entry m).2
    refine ⟨b₃, ?_, hkept.trans hrep.kept (Nat.le_refl _) (Nat.le_succ m) (Nat.zero_le m)
      (Nat.le_refl _), fun i hi => ?_⟩
    · rw [writeEntries] at hb₁
      rw [writeEntries, List.range_succ, List.foldlM_append, hb₁]
      simp only [Option.bind_eq_bind, Option.bind_some, List.foldlM_cons, List.foldlM_nil, hb₂, hb₃]
      rfl
    · rcases Nat.lt_or_eq_of_le (Nat.le_of_lt_succ hi) with hlt | rfl
      · rw [hrep.row_of_ne (Nat.ne_of_lt hlt), hrows i hlt]
      · exact hrep.row

/-- A page spells a leaf by its header and its rows. -/
theorem nodeOf_of_rows {next : Option Nat} {entries : List Entry} (hcap : entries.length ≤ leafMaxEntries)
    (htype : load b 4 1 = 1) (hcount : numKeys b = entries.length) (hparent : pageIdOf (load b 7 4) = p)
    (hnext : pageIdOf (load b 11 4) = next)
    (hrows : ∀ (i : Nat) (h : i < entries.length), entryAt b i = entries[i]) :
    nodeOf b = some ⟨p, .leaf ⟨next, entries⟩⟩ := by
  have hentries : (List.range (numKeys b)).map (entryAt b) = entries := by
    rw [hcount]
    refine List.ext_getElem (by simp) fun i _ h2 => ?_
    rw [List.getElem_map, List.getElem_range, hrows i h2]
  have hleaf : leafOf b = ⟨next, entries⟩ := by
    rw [← hnext, ← hentries]
    rfl
  rw [nodeOf_leaf htype (hcount.trans_le hcap), hparent, hleaf]

/-- The left half, in place: only the link and the number of entries are written. -/
theorem leftHalf_node (h : nodeOf b = some ⟨p, .leaf l⟩) {mid newPid : Nat} (hmid : mid ≤ numKeys b)
    (hid : newPid < invalidPageId) :
    nodeOf (store (store b 11 4 newPid) 5 2 mid) = some ⟨p, .leaf ⟨some newPid, l.entries.take mid⟩⟩ := by
  obtain ⟨htype, hn, rfl, rfl⟩ := leaf_of_nodeOf h
  have hcap := leafMaxEntries_eq
  have hlt : newPid < 256 ^ 4 := Nat.lt_trans hid (by decide)
  have hcount : numKeys (store (store b 11 4 newPid) 5 2 mid) = mid := numKeys_store (by omega) _
  have htype' : load (store (store b 11 4 newPid) 5 2 mid) 4 1 = 1 := by
    rw [load_store_disjoint (.inl (by decide)), load_store_disjoint (.inl (by decide)), htype]
  have hparent : load (store (store b 11 4 newPid) 5 2 mid) 7 4 = load b 7 4 := by
    rw [load_store_disjoint (.inr (by decide)), load_store_disjoint (.inl (by decide))]
  have hnext : load (store (store b 11 4 newPid) 5 2 mid) 11 4 = newPid := by
    rw [load_store_disjoint (.inr (by decide)), load_store, Nat.mod_eq_of_lt hlt]
  have hlen : ((leafOf b).entries.take mid).length = mid := by
    rw [List.length_take, leafOf_length]
    omega
  refine nodeOf_of_rows (by omega) htype' (hcount.trans hlen.symm) (congrArg pageIdOf hparent) ?_
    fun i hi => ?_
  · rw [hnext]
    exact if_neg (Nat.ne_of_lt hid)
  · rw [List.getElem_take, leafOf_getElem, entryAt, entryAt, row_setNumKeys]
    congr 1
    exact slice_blit_disjoint (.inr (by rw [length_leBytes]; simp only [entryRows]; omega))

/-- The right half, on a new page: the header is copied, and the entries from the snapshot. -/
theorem rightHalf_node (h : nodeOf b = some ⟨p, .leaf l⟩) {mid newPid : Nat} {fresh r : Buffer}
    (hfresh : init newPid = some fresh)
    (hkept : entryRows.Kept (store (store fresh 11 4 (load b 11 4)) 7 4 (load b 7 4)) r 0 (numKeys b - mid))
    (hrows : ∀ i < numKeys b - mid,
      entryRows.row r i = bytesOfEntry (storedAt b (mid + i)).1 (storedAt b (mid + i)).2) :
    nodeOf (store r 5 2 (numKeys b - mid)) = some ⟨p, .leaf ⟨l.nextLeafId, l.entries.drop mid⟩⟩ := by
  obtain ⟨htype, hn, rfl, rfl⟩ := leaf_of_nodeOf h
  have hcap := leafMaxEntries_eq
  have hcount : numKeys (store r 5 2 (numKeys b - mid)) = numKeys b - mid := numKeys_store (by omega) _
  have hparentLt : load b 7 4 < 256 ^ 4 := load_lt b 7 4
  have hnextLt : load b 11 4 < 256 ^ 4 := load_lt b 11 4
  have htype' : load (store r 5 2 (numKeys b - mid)) 4 1 = 1 := by
    rw [load_store_disjoint (.inl (by decide)), load_of_kept hkept (by decide),
      load_store_disjoint (.inl (by decide)), load_store_disjoint (.inl (by decide)),
      ← Option.some.inj ((init_eq newPid).symm.trans hfresh), load_store_disjoint (.inl (by decide)),
      load_store_disjoint (.inl (by decide)), load_store_disjoint (.inl (by decide)), load_store]
    rfl
  have hparent : load (store r 5 2 (numKeys b - mid)) 7 4 = load b 7 4 := by
    rw [load_store_disjoint (.inr (by decide)), load_of_kept hkept (by decide), load_store,
      Nat.mod_eq_of_lt hparentLt]
  have hnext : load (store r 5 2 (numKeys b - mid)) 11 4 = load b 11 4 := by
    rw [load_store_disjoint (.inr (by decide)), load_of_kept hkept (by decide),
      load_store_disjoint (.inr (by decide)), load_store, Nat.mod_eq_of_lt hnextLt]
  have hlen : ((leafOf b).entries.drop mid).length = numKeys b - mid := by
    rw [List.length_drop, leafOf_length]
  refine nodeOf_of_rows (by omega) htype' (hcount.trans hlen.symm) (congrArg pageIdOf hparent)
    (congrArg pageIdOf hnext) fun i hi => ?_
  rw [hlen] at hi
  rw [List.getElem_drop, leafOf_getElem, entryAt, row_setNumKeys, hrows i hi,
    entryOfBytes_bytesOfEntry (load_lt b _ 4) (load_lt b _ 2), entryAt_eq_storedAt]

/-- **The split of a leaf.** The halves hold the entries before the middle and from it on, linked
to each other. -/
theorem splitLeaf_node (h : nodeOf b = some ⟨p, .leaf l⟩) (hne : l.entries ≠ []) {newPid : Nat}
    (hid : newPid < invalidPageId) :
    ∃ left key right, splitLeaf b newPid = some (left, key, right) ∧
      (l.entries[l.entries.length / 2]?).map Prod.fst = some key.toInt ∧
      nodeOf left = some ⟨p, .leaf ⟨some newPid, l.entries.take (l.entries.length / 2)⟩⟩ ∧
      nodeOf right = some ⟨p, .leaf ⟨l.nextLeafId, l.entries.drop (l.entries.length / 2)⟩⟩ := by
  obtain ⟨-, hn, -, rfl⟩ := leaf_of_nodeOf h
  have hpos : 0 < numKeys b := by
    rw [← leafOf_length]
    exact List.length_pos_iff.mpr hne
  rw [leafOf_length]
  generalize hmid : numKeys b / 2 = mid
  have hmidLt : mid < numKeys b := by omega
  -- the snapshot
  obtain ⟨entries, hentries⟩ : ∃ es, es = (List.range (numKeys b)).map (storedAt b) := ⟨_, rfl⟩
  have hsnapshot : (List.range (numKeys b)).mapM (getEntryAt b) = some entries := by
    rw [hentries]
    exact InternalPage.mapM_eq_some fun i hi =>
      getEntryAt_eq (Nat.lt_of_lt_of_le (List.mem_range.mp hi) hn) b
  have hgetD : ∀ i < numKeys b, entries.getD i (0, Rid.invalid) = storedAt b i := by
    intro i hi
    simp [hentries, hi]
  have hmidEntry : entries[mid]? = some (storedAt b mid) := by simp [hentries, hmidLt]
  -- the new page
  obtain ⟨fresh, hfresh⟩ : ∃ fresh, init newPid = some fresh := ⟨_, init_eq newPid⟩
  obtain ⟨r, hr, hkept, hrows⟩ := @writeEntries_spec (fun i => entries.getD (mid + i) (0, Rid.invalid))
    (numKeys b - mid) (by omega) (store (store fresh 11 4 (load b 11 4)) 7 4 (load b 7 4))
  have hrows' : ∀ i < numKeys b - mid,
      entryRows.row r i = bytesOfEntry (storedAt b (mid + i)).1 (storedAt b (mid + i)).2 := by
    intro i hi
    rw [hrows i hi, hgetD (mid + i) (by omega)]
  have hparentRead : load (store b 11 4 newPid) 7 4 = load b 7 4 := load_store_disjoint (.inl (by decide))
  refine ⟨_, (storedAt b mid).1, _, ?_, ?_, leftHalf_node h (Nat.le_of_lt hmidLt) hid,
    rightHalf_node h hfresh hkept hrows'⟩
  · rw [splitLeaf, getNumKeys_eq]
    simp only [Option.bind_eq_bind, Option.bind_some, hsnapshot, hfresh, getNextLeafId, setNextLeafId,
      getParentId, setParentId, readPage, writePage, readIn_of_le (by decide : 11 + 4 ≤ pageSize),
      writeIn_of_le (by decide : 11 + 4 ≤ pageSize), readIn_of_le (by decide : 7 + 4 ≤ pageSize),
      writeIn_of_le (by decide : 7 + 4 ≤ pageSize), hparentRead, hmid, hr, setNumKeys_eq, hmidEntry]
    rfl
  · rw [leafOf_getElem? hmidLt, Option.map_some, entryAt_key]
    rfl

end LeafPage

-- ---------------------------------------------------------------------------
-- The split of insert_into_parent, and a new root
-- ---------------------------------------------------------------------------

namespace InternalPage

variable {left right newPid : Nat} {key : Int64}

/-- The page of the new root in `insert_into_parent`. -/
def newRoot (pid left : Nat) (key : Int64) (right : Nat) : Option Buffer := do
  let b ← init pid
  let b ← setNumKeys b 1
  let b ← setChildAt b 0 left
  let b ← setKeyAt b 0 key
  setChildAt b 1 right

theorem splitParent_node (h : nodeOf b = some ⟨p, .internal n⟩) (hd : n.children.Nodup)
    (hmem : left ∈ n.children) (key : Int64) (hright : right < 2 ^ 32) (newPid : Nat) :
    ∃ l k r, splitParent b left key right newPid = some (l, k, r) ∧
      (n.insertBehind left key.toInt right).keys[(n.keys.length + 1) / 2]? = some k.toInt ∧
      nodeOf l = some ⟨p, .internal ⟨(n.insertBehind left key.toInt right).keys.take ((n.keys.length + 1) / 2),
        (n.insertBehind left key.toInt right).children.take ((n.keys.length + 1) / 2 + 1)⟩⟩ ∧
      nodeOf r = some ⟨none,
        .internal ⟨(n.insertBehind left key.toInt right).keys.drop ((n.keys.length + 1) / 2 + 1),
          (n.insertBehind left key.toInt right).children.drop ((n.keys.length + 1) / 2 + 1)⟩⟩ := by
  obtain ⟨-, hn, -, rfl⟩ := internal_of_nodeOf h
  obtain ⟨hle, hat, -⟩ := idxOf_child hmem
  obtain ⟨l, k, r, hsplit, hk, hl, hr, hheader, htype, hparent⟩ :=
    @splitParent_spec b _ key hn hd hle right hright newPid
  have hbig : ((internalOf b).insertBehind left key.toInt right).Coded :=
    (internalOf_fits hn).toCoded.insertBehind (keyFits_toInt key) hright
  have hcap := internalMaxKeys_eq
  have hlen : ((internalOf b).insertBehind left key.toInt right).keys.length = numKeys b + 1 := by
    rw [Internal.length_keys_insertBehind, length_keys]
  rw [hat] at hsplit
  rw [length_keys]
  refine ⟨l, k, r, hsplit, hk, ?_, ?_⟩
  · have hfits : (internalOf l).Fits := by
      rw [hl]
      exact hbig.take (by omega) (by omega)
    rw [hheader.nodeOf_eq h hfits, hl]
    rfl
  · have hfits : (internalOf r).Fits := by
      rw [hr]
      exact hbig.drop (by omega) (by omega)
    have hnr : numKeys r ≤ internalMaxKeys := by
      rw [← length_keys]
      exact hfits.size
    rw [nodeOf_internal (by omega) hnr, hparent, hr]
    rfl

theorem newRoot_node (hleft : left < 2 ^ 32) (hright : right < 2 ^ 32) (key : Int64) (pid : Nat) :
    ∃ b, newRoot pid left key right = some b ∧
      nodeOf b = some ⟨none, .internal ⟨[key.toInt], [left, right]⟩⟩ := by
  obtain ⟨fresh, hfresh⟩ : ∃ fresh, init pid = some fresh := ⟨_, init_eq pid⟩
  obtain ⟨b, hb⟩ : ∃ b, b = store (store (store (store fresh 5 2 1) (11 + 0 * 12) 4 left) (15 + 0 * 12) 8
      (bytesOfKey key)) (11 + 1 * 12) 4 right := ⟨_, rfl⟩
  have hheader : ∀ off m, 7 ≤ off ∨ off + m ≤ 5 → off + m ≤ 11 → load b off m = load fresh off m := by
    intro off m hoff hle
    rw [hb, load_store_disjoint (by omega), load_store_disjoint (by omega), load_store_disjoint (by omega),
      load_store_disjoint (by omega)]
  have htype : load b 4 1 = 0 := by
    rw [hheader 4 1 (by omega) (by omega), ← Option.some.inj ((init_eq pid).symm.trans hfresh),
      load_store_disjoint (by omega), load_store_disjoint (by omega), load_store]
    rfl
  have hparent : load b 7 4 = invalidPageId := by
    rw [hheader 7 4 (by omega) (by omega), ← Option.some.inj ((init_eq pid).symm.trans hfresh), load_store]
    rfl
  have hcount : numKeys b = 1 := by
    rw [hb, numKeys, load_store_disjoint (by omega), load_store_disjoint (by omega),
      load_store_disjoint (by omega)]
    exact numKeys_store (by decide) fresh
  have hkey : keyAt b 0 = key := by
    rw [hb, keyAt_storeChild, keyAt_storeKey, if_pos rfl]
  have hchild₀ : childAt b 0 = left := by
    rw [hb, childAt_storeChild _ _ _ hright, if_neg (by decide), childAt_storeKey,
      childAt_storeChild _ _ _ hleft, if_pos rfl]
  have hchild₁ : childAt b 1 = right := by
    rw [hb, childAt_storeChild _ _ _ hright, if_pos rfl]
  have hnode : internalOf b = ⟨[key.toInt], [left, right]⟩ := by
    rw [internalOf, hcount]
    simp only [List.range_succ, List.range_zero, List.nil_append, List.map_cons, List.map_nil, List.cons_append,
      hkey, hchild₀, hchild₁]
  refine ⟨b, ?_, ?_⟩
  · rw [newRoot, hfresh, hb]
    simp only [Option.bind_eq_bind, Option.bind_some, setNumKeys_eq, setChildAt_eq (Nat.zero_le _),
      setKeyAt_eq (by decide : 0 < internalMaxKeys), setChildAt_eq (by decide : 1 ≤ internalMaxKeys)]
  · have hcap : numKeys b ≤ internalMaxKeys := hcount ▸ (by decide : 1 ≤ internalMaxKeys)
    rw [nodeOf_internal (by omega) hcap, hparent, hnode]
    rfl

end InternalPage

-- ---------------------------------------------------------------------------
-- Everything that is done to a page
-- ---------------------------------------------------------------------------

/-- The bytes of a page do what the node on it does, with every access inside the page. -/
structure Follows (b : Buffer) (node : Node) : Prop where
  lookup : ∀ l, node.body = .leaf l → ∀ key, LeafPage.lookup b key = some (l.lookup key.toInt)
  insert : ∀ l, node.body = .leaf l → Sorted l.entries → ∀ key rid, RidFits rid →
    ∃ b', LeafPage.insert b key rid = some (b', (l.insert key.toInt rid).isSome) ∧
      nodeOf b' = some { node with body := .leaf ((l.insert key.toInt rid).getD l) }
  remove : ∀ l, node.body = .leaf l → ∀ key,
    ∃ b', LeafPage.remove b key = some (b', (l.remove key.toInt).isSome) ∧
      nodeOf b' = some { node with body := .leaf ((l.remove key.toInt).getD l) }
  splitLeaf : ∀ l, node.body = .leaf l → l.entries ≠ [] → ∀ newPid < invalidPageId,
    ∃ left key right, LeafPage.splitLeaf b newPid = some (left, key, right) ∧
      (l.entries[l.entries.length / 2]?).map Prod.fst = some key.toInt ∧
      nodeOf left = some { node with body := .leaf ⟨some newPid, l.entries.take (l.entries.length / 2)⟩ } ∧
      nodeOf right = some { node with body := .leaf ⟨l.nextLeafId, l.entries.drop (l.entries.length / 2)⟩ }
  lookupChild : ∀ n, node.body = .internal n → ∀ key,
    InternalPage.lookupChild b key = n.lookupChild key.toInt
  insertAfter : ∀ n, node.body = .internal n → ∀ left ∈ n.children, ∀ key, ∀ right < 2 ^ 32,
    ∃ b', InternalPage.insertAfter b left key right = some (b', (n.insertAfter left key.toInt right).isSome) ∧
      nodeOf b' = some { node with body := .internal ((n.insertAfter left key.toInt right).getD n) }
  splitParent : ∀ n, node.body = .internal n → n.children.Nodup → ∀ left ∈ n.children, ∀ key,
    ∀ right < 2 ^ 32, ∀ newPid, ∃ l k r,
      InternalPage.splitParent b left key right newPid = some (l, k, r) ∧
      (n.insertBehind left key.toInt right).keys[(n.keys.length + 1) / 2]? = some k.toInt ∧
      nodeOf l = some ⟨node.parentId,
        .internal ⟨(n.insertBehind left key.toInt right).keys.take ((n.keys.length + 1) / 2),
          (n.insertBehind left key.toInt right).children.take ((n.keys.length + 1) / 2 + 1)⟩⟩ ∧
      nodeOf r = some ⟨none,
        .internal ⟨(n.insertBehind left key.toInt right).keys.drop ((n.keys.length + 1) / 2 + 1),
          (n.insertBehind left key.toInt right).children.drop ((n.keys.length + 1) / 2 + 1)⟩⟩
  setParentId : ∀ parent < invalidPageId,
    ∃ b', setParentBytes b parent = some b' ∧ nodeOf b' = some { node with parentId := some parent }
  -- a root above it and its new sibling
  newRoot : ∀ left < 2 ^ 32, ∀ key, ∀ right < 2 ^ 32, ∀ pid,
    ∃ root, InternalPage.newRoot pid left key right = some root ∧
      nodeOf root = some ⟨none, .internal ⟨[key.toInt], [left, right]⟩⟩

/-- **The bytes follow the node.** Whatever the index does to a page, the bytes are afterwards
those of the node that the index model writes. -/
theorem page_follows_node (h : nodeOf b = some node) : Follows b node := by
  obtain ⟨parentId, body⟩ := node
  refine ⟨?_, ?_, ?_, ?_, ?_, ?_, ?_, fun parent hparent => setParentBytes_node h hparent,
    fun left hleft key right hright pid => InternalPage.newRoot_node hleft hright key pid⟩
  · rintro l rfl key
    obtain ⟨-, hn, -, rfl⟩ := leaf_of_nodeOf h
    exact LeafPage.lookup_eq hn key
  · rintro l rfl hs key rid hrid
    exact LeafPage.insert_node h hs key hrid
  · rintro l rfl key
    exact LeafPage.remove_node h key
  · rintro l rfl hne newPid hid
    exact LeafPage.splitLeaf_node h hne hid
  · rintro n rfl key
    obtain ⟨-, hn, -, rfl⟩ := internal_of_nodeOf h
    exact InternalPage.lookupChild_eq hn key
  · rintro n rfl left hmem key right hright
    exact InternalPage.insertAfter_node h hmem key hright
  · rintro n rfl hd left hmem key right hright newPid
    exact InternalPage.splitParent_node h hd hmem key hright newPid

/-- A leaf with three entries that is cut at the second, and an internal page that gets a key. -/
theorem page_follows_node_both :
    (∃ left key right, LeafPage.splitLeaf (store LeafPage.threeEntryPage 4 1 1) 9 = some (left, key, right) ∧
      key.toInt = 7 ∧ nodeOf left = some ⟨some 0, .leaf ⟨some 9, [(-5, ⟨2, 0⟩)]⟩⟩ ∧
      nodeOf right = some ⟨some 0, .leaf ⟨some 0, [(7, ⟨3, 1⟩), (20, ⟨3, 4⟩)]⟩⟩) ∧
    ∃ b', InternalPage.insertAfter InternalPage.twoChildPage 3 5 9 = some (b', true) ∧
      nodeOf b' = some ⟨some 0, .internal ⟨[5, 10], [3, 9, 4]⟩⟩ := by
  constructor
  · have hnode : nodeOf (store LeafPage.threeEntryPage 4 1 1)
        = some ⟨some 0, .leaf ⟨some 0, [(-5, ⟨2, 0⟩), (7, ⟨3, 1⟩), (20, ⟨3, 4⟩)]⟩⟩ := by
      decide
    obtain ⟨left, key, right, hsplit, hkey, hleft, hright⟩ :=
      (page_follows_node hnode).splitLeaf _ rfl (by decide) 9 (by decide)
    exact ⟨left, key, right, hsplit, (Option.some.inj hkey).symm, hleft, hright⟩
  · have hnode : nodeOf InternalPage.twoChildPage = some ⟨some 0, .internal ⟨[10], [3, 4]⟩⟩ := by
      decide
    exact (page_follows_node hnode).insertAfter _ rfl 3 (by decide) 5 9 (by decide)

-- ---------------------------------------------------------------------------
-- Writing a node
-- ---------------------------------------------------------------------------

/-- A page id as the page has it. -/
def numberOfId (id : Option Nat) : Nat := id.getD invalidPageId

/-- Write a node to a page with the setters of `btree_page.cpp`. -/
def writeNode (b : Buffer) (node : Node) : Option Buffer :=
  match node.body with
  | .leaf l => do
    let b ← writePage b 4 1 1
    let b ← LeafPage.setParentId b (numberOfId node.parentId)
    let b ← LeafPage.setNextLeafId b (numberOfId l.nextLeafId)
    let b ← LeafPage.writeEntries
      (fun i => ((l.entries.map fun e => (Int64.ofInt e.1, e.2)).getD i (0, Rid.invalid))) l.entries.length b
    LeafPage.setNumKeys b l.entries.length
  | .internal n => do
    let b ← writePage b 4 1 0
    let b ← writePage b 7 4 (numberOfId node.parentId)
    let b ← InternalPage.setNumKeys b n.keys.length
    let b ← InternalPage.setChildAt b 0 (n.children.getD 0 0)
    InternalPage.writeHalf (fun i => (n.keys.map Int64.ofInt).getD i 0) (fun i => n.children.getD (i + 1) 0) 1
      n.keys.length b

theorem numberOfId_lt {id : Option Nat} (h : IdFits id) : numberOfId id < 256 ^ 4 := by
  cases id with
  | none => decide
  | some q => exact Nat.lt_trans (h q rfl) (by decide)

theorem pageIdOf_numberOfId {id : Option Nat} (h : IdFits id) : pageIdOf (numberOfId id) = id := by
  cases id with
  | none => rfl
  | some q => exact if_neg (Nat.ne_of_lt (h q rfl))

theorem toInt_ofInt_of_fits {k : Int} (h : KeyFits k) : (Int64.ofInt k).toInt = k :=
  Int64.toInt_ofInt_of_le h.1 h.2

theorem nodeOf_writeLeaf (hp : IdFits p) (hl : l.Fits) (b : Buffer) :
    ∃ b', writeNode b ⟨p, .leaf l⟩ = some b' ∧ nodeOf b' = some ⟨p, .leaf l⟩ := by
  have hcap := leafMaxEntries_eq
  have hsize := hl.size
  obtain ⟨r, hr, hkept, hrows⟩ := @LeafPage.writeEntries_spec
    (fun i => ((l.entries.map fun e => (Int64.ofInt e.1, e.2)).getD i (0, Rid.invalid))) l.entries.length
    hsize (store (store (store b 4 1 1) 7 4 (numberOfId p)) 11 4 (numberOfId l.nextLeafId))
  have htype : load (store r 5 2 l.entries.length) 4 1 = 1 := by
    rw [load_store_disjoint (.inl (by decide)), LeafPage.load_of_kept hkept (by decide),
      load_store_disjoint (.inl (by decide)), load_store_disjoint (.inl (by decide)), load_store]
    rfl
  have hparent : load (store r 5 2 l.entries.length) 7 4 = numberOfId p := by
    rw [load_store_disjoint (.inr (by decide)), LeafPage.load_of_kept hkept (by decide),
      load_store_disjoint (.inl (by decide)), load_store, Nat.mod_eq_of_lt (numberOfId_lt hp)]
  have hnext : load (store r 5 2 l.entries.length) 11 4 = numberOfId l.nextLeafId := by
    rw [load_store_disjoint (.inr (by decide)), LeafPage.load_of_kept hkept (by decide), load_store,
      Nat.mod_eq_of_lt (numberOfId_lt hl.next)]
  have hcount : LeafPage.numKeys (store r 5 2 l.entries.length) = l.entries.length :=
    LeafPage.numKeys_store (by omega) r
  have hentries : ∀ (i : Nat) (h : i < l.entries.length),
      LeafPage.entryAt (store r 5 2 l.entries.length) i = l.entries[i] := by
    intro i hi
    obtain ⟨hkey, hpage, hslot⟩ := hl.entries _ (List.getElem_mem hi)
    have hat : (l.entries.map fun e => (Int64.ofInt e.1, e.2)).getD i (0, Rid.invalid)
        = (Int64.ofInt l.entries[i].1, l.entries[i].2) := by
      simp [hi]
    rw [LeafPage.entryAt, LeafPage.row_setNumKeys, hrows i hi, hat,
      LeafPage.entryOfBytes_bytesOfEntry hpage hslot, toInt_ofInt_of_fits hkey]
  refine ⟨store r 5 2 l.entries.length, ?_, ?_⟩
  · simp only [writeNode, LeafPage.setParentId, LeafPage.setNextLeafId, writePage,
      writeIn_of_le (by decide : 4 + 1 ≤ pageSize), writeIn_of_le (by decide : 7 + 4 ≤ pageSize),
      writeIn_of_le (by decide : 11 + 4 ≤ pageSize), Option.bind_eq_bind, Option.bind_some, hr,
      LeafPage.setNumKeys_eq]
  · refine LeafPage.nodeOf_of_rows hsize htype hcount ?_ ?_ hentries
    · rw [hparent, pageIdOf_numberOfId hp]
    · rw [hnext, pageIdOf_numberOfId hl.next]

theorem nodeOf_writeInternal (hp : IdFits p) (hn : n.Fits) (b : Buffer) :
    ∃ b', writeNode b ⟨p, .internal n⟩ = some b' ∧ nodeOf b' = some ⟨p, .internal n⟩ := by
  have hcap := internalMaxKeys_eq
  have hsize := hn.size
  have hchildren := hn.children
  have hid : ∀ i < n.children.length, n.children.getD i 0 < 2 ^ 32 := by
    intro i hi
    rw [List.getD_eq_getElem _ _ hi]
    exact hn.ids _ (List.getElem_mem hi)
  obtain ⟨base, hbase⟩ : ∃ base, base = store (store (store b 4 1 0) 7 4 (numberOfId p)) 5 2 n.keys.length :=
    ⟨_, rfl⟩
  obtain ⟨r, hr, hkeys, hchilds, hbelow⟩ := @InternalPage.writeHalf_spec n.keys.length
    (fun i => (n.keys.map Int64.ofInt).getD i 0) (fun i => n.children.getD (i + 1) 0) 1 hsize
    (Nat.le_refl 1) (fun i hi => hid (i + 1) (by omega)) (store base (11 + 0 * 12) 4 (n.children.getD 0 0))
  have hheader : ∀ off m, off + m ≤ 11 → load r off m = load base off m := by
    intro off m hle
    rw [load_congr fun a _ ha => hbelow a (by omega), load_store_disjoint (by omega)]
  have htype : load r 4 1 = 0 := by
    rw [hheader 4 1 (by decide), hbase, load_store_disjoint (.inl (by decide)),
      load_store_disjoint (.inl (by decide)), load_store]
    rfl
  have hparent : load r 7 4 = numberOfId p := by
    rw [hheader 7 4 (by decide), hbase, load_store_disjoint (.inr (by decide)), load_store,
      Nat.mod_eq_of_lt (numberOfId_lt hp)]
  have hcount : InternalPage.numKeys r = n.keys.length := by
    rw [InternalPage.numKeys, hheader 5 2 (by decide), hbase]
    exact InternalPage.numKeys_store (by omega) _
  have hnode : InternalPage.internalOf r = n := by
    have hmap : (n.keys.map Int64.ofInt).map Int64.toInt = n.keys := by
      have hround : ∀ k ∈ n.keys, (Int64.toInt ∘ Int64.ofInt) k = id k := fun k hk =>
        toInt_ofInt_of_fits (hn.keys k hk)
      rw [List.map_map, List.map_congr_left hround, List.map_id]
    have hks : (List.range n.keys.length).map (InternalPage.keyAt r) = n.keys.map Int64.ofInt := by
      refine List.ext_getElem (by simp) fun i h1 h2 => ?_
      rw [List.length_map] at h2
      rw [List.getElem_map, List.getElem_range, hkeys, if_pos h2]
      exact List.getD_eq_getElem _ _ (by rwa [List.length_map])
    have hcs : (List.range (n.keys.length + 1)).map (InternalPage.childAt r) = n.children := by
      refine List.ext_getElem (by simp [hchildren]) fun i h1 h2 => ?_
      rw [List.getElem_map, List.getElem_range, hchilds]
      cases i with
      | zero =>
        rw [if_neg (by omega), InternalPage.childAt_storeChild _ _ _ (hid 0 h2), if_pos rfl]
        exact List.getD_eq_getElem _ _ h2
      | succ i =>
        rw [if_pos (by omega), Nat.add_sub_cancel]
        exact List.getD_eq_getElem _ _ h2
    rw [InternalPage.internalOf_eq hcount hks hcs, hmap]
  refine ⟨r, ?_, ?_⟩
  · simp only [writeNode, writePage, writeIn_of_le (by decide : 4 + 1 ≤ pageSize),
      writeIn_of_le (by decide : 7 + 4 ≤ pageSize), InternalPage.setNumKeys_eq, ← hbase,
      InternalPage.setChildAt_eq (Nat.zero_le internalMaxKeys), Option.bind_eq_bind, Option.bind_some, hr]
  · rw [nodeOf_internal (by omega) (by omega), hparent, pageIdOf_numberOfId hp, hnode]

/-- **A node that is written is read back.** -/
theorem nodeOf_writeNode (h : node.Fits) (b : Buffer) :
    ∃ b', writeNode b node = some b' ∧ nodeOf b' = some node := by
  obtain ⟨p, body⟩ := node
  cases body with
  | leaf l => exact nodeOf_writeLeaf h.parent h.body b
  | internal n => exact nodeOf_writeInternal h.parent h.body b

-- ---------------------------------------------------------------------------
-- Pages of 4096 bytes
-- ---------------------------------------------------------------------------

/-- Only the bytes of the page are looked at. -/
theorem nodeOf_congr (h : ∀ a < pageSize, b' a = b a) : nodeOf b' = nodeOf b := by
  have hload : ∀ off m, off + m ≤ pageSize → load b' off m = load b off m := fun off m hle =>
    load_congr fun a _ ha => h a (Nat.lt_of_lt_of_le ha hle)
  have hcount : load b' 5 2 = load b 5 2 := hload 5 2 (by decide)
  rw [nodeOf, nodeOf, hload 4 1 (by decide), hload 7 4 (by decide), LeafPage.numKeys, LeafPage.numKeys,
    InternalPage.numKeys, InternalPage.numKeys, hcount]
  have hsize : pageSize = 4096 := rfl
  split
  · split
    · rename_i hn
      have hentry : ∀ i ∈ List.range (load b 5 2), LeafPage.entryAt b' i = LeafPage.entryAt b i := by
        intro i hi
        rw [List.mem_range] at hi
        rw [leafMaxEntries_eq] at hn
        refine congrArg LeafPage.entryOfBytes (slice_congr fun a _ ha => h a ?_)
        simp only [LeafPage.entryRows] at ha
        omega
      rw [LeafPage.leafOf, LeafPage.leafOf, LeafPage.numKeys, LeafPage.numKeys, hcount,
        hload 11 4 (by decide), List.map_congr_left hentry]
    · rfl
  · split
    · rename_i hn
      rw [internalMaxKeys_eq] at hn
      have hkey : ∀ i ∈ List.range (load b 5 2),
          (InternalPage.keyAt b' i).toInt = (InternalPage.keyAt b i).toInt := by
        intro i hi
        rw [List.mem_range] at hi
        rw [InternalPage.keyAt, InternalPage.keyAt, hload _ _ (by omega)]
      have hchild : ∀ i ∈ List.range (load b 5 2 + 1),
          InternalPage.childAt b' i = InternalPage.childAt b i := by
        intro i hi
        rw [List.mem_range] at hi
        exact hload _ _ (by omega)
      rw [InternalPage.internalOf, InternalPage.internalOf, InternalPage.numKeys, InternalPage.numKeys, hcount,
        List.map_congr_left hkey, List.map_congr_left hchild]
    · rfl

theorem byteAt_ofPage (x : Page) {a : Nat} (ha : a < pageSize) : byteAt (Image.ofPage x).val a = x.buf a := by
  simp [byteAt, Image.ofPage, slice, ha]

/-- The pages of the file, with a node written by the setters of `btree_page.cpp`. -/
instance : NodePage Image where
  node x := nodeOf (byteAt x.val)
  setNode x n := Image.ofPage ⟨(writeNode (byteAt x.val) n).getD (byteAt x.val), 0⟩
  fits_of_node h := fits_of_nodeOf h
  node_setNode x n h := by
    obtain ⟨b', hb', hn⟩ := nodeOf_writeNode h (byteAt x.val)
    rw [hb', ← hn]
    exact nodeOf_congr fun a ha => byteAt_ofPage _ ha

end PersistX.Btree
