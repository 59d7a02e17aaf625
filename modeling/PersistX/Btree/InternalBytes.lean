import PersistX.Btree.LeafBytes

/-!
# PersistX — the internal page, byte for byte

`BTreeInternalPage` on the 4096 bytes of a page: an 11-byte header `[4] page_id
[1] node_type [2] num_keys [4] parent_id`, then `child[0] key[0] child[1] ...`
with 4 bytes a child and 8 bytes a key.

`insert_after` shifts keys and children in place; where the page is full,
`insert_into_parent` takes a snapshot of it in two vectors, inserts there, and
writes the halves to two pages. `internalOf` is the node of `Btree/Node.lean`
that a page holds.

Main result: `insertSeparator` — both ways give the same keys and children, and
the same child for every search key.
-/

namespace PersistX.Btree

open Bytes

namespace InternalPage

-- ---------------------------------------------------------------------------
-- Header, keys and children
-- ---------------------------------------------------------------------------

/-- `get_num_keys`. -/
def getNumKeys (b : Buffer) : Option Nat := readPage b 5 2

/-- `set_num_keys`. -/
def setNumKeys (b : Buffer) (n : Nat) : Option Buffer := writePage b 5 2 n

/-- `child_offset`. -/
def childOffset (index : Nat) : Nat := 11 + index * 12

/-- `key_offset`. -/
def keyOffset (index : Nat) : Nat := 11 + index * 12 + 4

/-- `get_key_at`. -/
def getKeyAt (b : Buffer) (index : Nat) : Option Int64 :=
  (readPage b (keyOffset index) 8).map keyOfBytes

/-- `get_child_at`. -/
def getChildAt (b : Buffer) (index : Nat) : Option Nat := readPage b (childOffset index) 4

/-- `set_key_at`. -/
def setKeyAt (b : Buffer) (index : Nat) (key : Int64) : Option Buffer :=
  writePage b (keyOffset index) 8 (bytesOfKey key)

/-- `set_child_at`. -/
def setChildAt (b : Buffer) (index : Nat) (pid : Nat) : Option Buffer :=
  writePage b (childOffset index) 4 pid

/-- `init`. -/
def init (pid : Nat) : Option Buffer := do
  let b ← writePage (fun _ => 0) 0 4 pid
  let b ← writePage b 4 1 0
  let b ← setNumKeys b 0
  writePage b 7 4 invalidPageId

-- ---------------------------------------------------------------------------
-- lookup_child and insert_after
-- ---------------------------------------------------------------------------

/-- The loop of `lookup_child`. -/
def lookupLoop (b : Buffer) (key : Int64) (n : Nat) : Nat → Nat → Option Nat
  | 0, i => some i
  | fuel + 1, i =>
    if i < n then do
      let k ← getKeyAt b i
      if key ≥ k then lookupLoop b key n fuel (i + 1) else return i
    else return i

/-- `lookup_child`. -/
def lookupChild (b : Buffer) (key : Int64) : Option Nat := do
  let n ← getNumKeys b
  let i ← lookupLoop b key n n 0
  getChildAt b i

/-- The loop of `insert_after` that looks for the old child. -/
def findChild (b : Buffer) (oldChild : Nat) (n : Nat) : Nat → Nat → Option Nat
  | 0, i => some i
  | fuel + 1, i =>
    if i ≤ n then do
      let c ← getChildAt b i
      if c ≠ oldChild then findChild b oldChild n fuel (i + 1) else return i
    else return i

/-- The body of the shifting loop: key `i` and the child behind it go to index `j`. -/
def copyPair (b : Buffer) (i j : Nat) : Option Buffer := do
  let key ← getKeyAt b i
  let b ← setKeyAt b j key
  let child ← getChildAt b (i + 1)
  setChildAt b (j + 1) child

/-- `insert_after`, with the value it returns. -/
def insertAfter (b : Buffer) (oldChild : Nat) (key : Int64) (newChild : Nat) :
    Option (Buffer × Bool) := do
  let n ← getNumKeys b
  if n ≥ internalMaxKeys then return (b, false)
  let i ← findChild b oldChild n (n + 1) 0
  let b ← Rows.shiftUp copyPair i n b
  let b ← setKeyAt b i key
  let b ← setChildAt b (i + 1) newChild
  let b ← setNumKeys b (n + 1)
  return (b, true)

-- ---------------------------------------------------------------------------
-- The split of insert_into_parent
-- ---------------------------------------------------------------------------

/-- A loop `v[i + k] = src(i)` over the indices of a list. -/
def copyLoop {α : Type} (src : Nat → α) (k : Nat) (indices : List Nat) (v : List α) : List α :=
  indices.foldl (fun v i => v.set (i + k) (src i)) v

/-- `new_keys`. -/
def newKeys (n insertPos : Nat) (parKeys : List Int64) (key : Int64) : List Int64 :=
  let v := copyLoop (fun i => parKeys.getD i 0) 0 (List.range insertPos) (List.replicate (n + 1) 0)
  let v := v.set insertPos key
  copyLoop (fun i => parKeys.getD i 0) 1 (List.range' insertPos (n - insertPos)) v

/-- `new_children`. -/
def newChildren (n insertPos : Nat) (parChildren : List Nat) (left right : Nat) : List Nat :=
  let v := copyLoop (fun i => parChildren.getD i 0) 0 (List.range insertPos)
    (List.replicate (n + 2) 0)
  let v := v.set insertPos left
  let v := v.set (insertPos + 1) right
  copyLoop (fun i => parChildren.getD (i + 1) 0) 2 (List.range' insertPos (n - insertPos)) v

/-- The loops that write the halves: keys at `i`, children at `i + d`. -/
def writeHalf (keys : Nat → Int64) (children : Nat → Nat) (d m : Nat) (b : Buffer) : Option Buffer :=
  (List.range m).foldlM (fun b i => do
    let b ← setKeyAt b i (keys i)
    setChildAt b (i + d) (children i)) b

/-- Case 3 of `insert_into_parent`, up to the new page ids in the children: the pages of the
left and the right half, and the key that goes up. -/
def splitParent (b : Buffer) (left : Nat) (key : Int64) (right newPid : Nat) :
    Option (Buffer × Int64 × Buffer) := do
  let n ← getNumKeys b
  let parKeys ← (List.range n).mapM (getKeyAt b)
  let parChildren ← (List.range (n + 1)).mapM (getChildAt b)
  let insertPos := parChildren.idxOf left
  let keys := newKeys n insertPos parKeys key
  let children := newChildren n insertPos parChildren left right
  let totalKeys := n + 1
  let mid := totalKeys / 2
  let pushKey := keys.getD mid 0
  let l ← setNumKeys b mid
  let l ← writeHalf (fun i => keys.getD i 0) (fun i => children.getD i 0) 0 mid l
  let l ← setChildAt l mid (children.getD mid 0)
  let r ← init newPid
  let rightKeyCount := totalKeys - mid - 1
  let r ← setNumKeys r rightKeyCount
  let r ← setChildAt r 0 (children.getD (mid + 1) 0)
  let r ← writeHalf (fun i => keys.getD (mid + 1 + i) 0) (fun i => children.getD (mid + 2 + i) 0) 1
    rightKeyCount r
  return (l, pushKey, r)

-- ---------------------------------------------------------------------------
-- What a page holds
-- ---------------------------------------------------------------------------

/-- `num_keys`. -/
def numKeys (b : Buffer) : Nat := load b 5 2

/-- The key at an index. -/
def keyAt (b : Buffer) (i : Nat) : Int64 := keyOfBytes (load b (15 + i * 12) 8)

/-- The child at an index. -/
def childAt (b : Buffer) (i : Nat) : Nat := load b (11 + i * 12) 4

/-- The node that a page holds. -/
def internalOf (b : Buffer) : Internal where
  keys := (List.range (numKeys b)).map fun i => (keyAt b i).toInt
  children := (List.range (numKeys b + 1)).map (childAt b)

/-- The header besides `num_keys`: page id, node type and parent. -/
def SameHeader (b b' : Buffer) : Prop :=
  slice b' 0 5 = slice b 0 5 ∧ slice b' 7 4 = slice b 7 4

variable {b b' : Buffer} {i j n m : Nat} {key : Int64}

-- ---------------------------------------------------------------------------
-- Accesses inside the page
-- ---------------------------------------------------------------------------

theorem getNumKeys_eq (b : Buffer) : getNumKeys b = some (numKeys b) :=
  readIn_of_le (by decide : 5 + 2 ≤ pageSize) b

theorem setNumKeys_eq (b : Buffer) (n : Nat) : setNumKeys b n = some (store b 5 2 n) :=
  writeIn_of_le (by decide : 5 + 2 ≤ pageSize) b n

theorem keyOffset_le (hi : i < internalMaxKeys) : 15 + i * 12 + 8 ≤ pageSize := by
  rw [internalMaxKeys_eq] at hi
  simp only [pageSize]
  omega

theorem childOffset_le (hi : i ≤ internalMaxKeys) : 11 + i * 12 + 4 ≤ pageSize := by
  rw [internalMaxKeys_eq] at hi
  simp only [pageSize]
  omega

theorem keyOffset_eq (i : Nat) : keyOffset i = 15 + i * 12 := by
  rw [keyOffset]
  omega

theorem getKeyAt_eq (hi : i < internalMaxKeys) (b : Buffer) : getKeyAt b i = some (keyAt b i) := by
  rw [getKeyAt, keyOffset_eq, readPage, readIn_of_le (keyOffset_le hi)]
  rfl

theorem getChildAt_eq (hi : i ≤ internalMaxKeys) (b : Buffer) : getChildAt b i = some (childAt b i) :=
  readIn_of_le (childOffset_le hi) b

theorem setKeyAt_eq (hi : i < internalMaxKeys) (b : Buffer) (key : Int64) :
    setKeyAt b i key = some (store b (15 + i * 12) 8 (bytesOfKey key)) := by
  rw [setKeyAt, keyOffset_eq, writePage, writeIn_of_le (keyOffset_le hi)]

theorem setChildAt_eq (hi : i ≤ internalMaxKeys) (b : Buffer) (pid : Nat) :
    setChildAt b i pid = some (store b (11 + i * 12) 4 pid) :=
  writeIn_of_le (childOffset_le hi) b pid

-- What a write changes.

theorem keyAt_storeKey (b : Buffer) (i j : Nat) (key : Int64) :
    keyAt (store b (15 + i * 12) 8 (bytesOfKey key)) j = if j = i then key else keyAt b j := by
  split
  · rename_i heq
    have hlt : bytesOfKey key < 256 ^ 8 := bytesOfKey_lt key
    rw [heq, keyAt, load_store, Nat.mod_eq_of_lt hlt, keyOfBytes_bytesOfKey]
  · rw [keyAt, load_store_disjoint (by omega), keyAt]

theorem keyAt_storeChild (b : Buffer) (i j pid : Nat) :
    keyAt (store b (11 + i * 12) 4 pid) j = keyAt b j := by
  rw [keyAt, load_store_disjoint (by omega), keyAt]

theorem childAt_storeKey (b : Buffer) (i j v : Nat) :
    childAt (store b (15 + i * 12) 8 v) j = childAt b j := by
  rw [childAt, load_store_disjoint (by omega), childAt]

theorem childAt_storeChild (b : Buffer) (i j : Nat) {pid : Nat} (hpid : pid < 2 ^ 32) :
    childAt (store b (11 + i * 12) 4 pid) j = if j = i then pid else childAt b j := by
  split
  · rename_i heq
    rw [heq, childAt, load_store]
    exact Nat.mod_eq_of_lt hpid
  · rw [childAt, load_store_disjoint (by omega), childAt]

theorem numKeys_store (hn : n < 2 ^ 16) (b : Buffer) : numKeys (store b 5 2 n) = n := by
  rw [numKeys, load_store]
  exact Nat.mod_eq_of_lt hn

theorem keyAt_storeCount (b : Buffer) (n j : Nat) : keyAt (store b 5 2 n) j = keyAt b j := by
  rw [keyAt, load_store_disjoint (by omega), keyAt]

theorem childAt_storeCount (b : Buffer) (n j : Nat) : childAt (store b 5 2 n) j = childAt b j := by
  rw [childAt, load_store_disjoint (by omega), childAt]

theorem childAt_lt (b : Buffer) (i : Nat) : childAt b i < 2 ^ 32 := load_lt b _ 4

theorem length_keys (b : Buffer) : (internalOf b).keys.length = numKeys b := by simp [internalOf]

theorem length_children (b : Buffer) : (internalOf b).children.length = numKeys b + 1 := by
  simp [internalOf]

theorem children_getElem? (hi : i ≤ numKeys b) : (internalOf b).children[i]? = some (childAt b i) := by
  simp [internalOf, Nat.lt_succ_of_le hi]

-- ---------------------------------------------------------------------------
-- lookup_child
-- ---------------------------------------------------------------------------

theorem lookupLoop_eq (hn : numKeys b ≤ internalMaxKeys) (fuel : Nat) {i : Nat} (hi : i ≤ numKeys b)
    (hfuel : numKeys b ≤ i + fuel) :
    lookupLoop b key (numKeys b) fuel i
      = some (i + (((internalOf b).keys.drop i).takeWhile (· ≤ key.toInt)).length) := by
  induction fuel generalizing i with
  | zero =>
    rw [lookupLoop, List.drop_eq_nil_of_le (by rw [length_keys]; omega)]
    rfl
  | succ fuel ih =>
    rw [lookupLoop]
    by_cases hlt : i < numKeys b
    · have hdrop : (internalOf b).keys.drop i
          = (keyAt b i).toInt :: (internalOf b).keys.drop (i + 1) := by
        rw [List.drop_eq_getElem_cons (by rwa [length_keys])]
        simp [internalOf]
      rw [if_pos hlt, getKeyAt_eq (by omega), hdrop, List.takeWhile_cons]
      simp only [Option.bind_eq_bind, Option.bind_some, ge_iff_le, Int64.le_iff_toInt_le,
        decide_eq_true_eq]
      split
      · rw [ih (by omega) (by omega), List.length_cons]
        congr 1
        omega
      · rfl
    · rw [if_neg hlt, List.drop_eq_nil_of_le (by rw [length_keys]; omega)]
      rfl

/-- `lookup_child` on the bytes is `lookup_child` on the node. -/
theorem lookupChild_eq (hn : numKeys b ≤ internalMaxKeys) (key : Int64) :
    lookupChild b key = (internalOf b).lookupChild key.toInt := by
  have hloop := @lookupLoop_eq b key hn (numKeys b) 0 (Nat.zero_le _) (by omega)
  rw [List.drop_zero, Nat.zero_add] at hloop
  have hle : (internalOf b).childIndex key.toInt ≤ numKeys b := by
    rw [← length_keys b]
    exact (List.takeWhile_sublist _).length_le
  rw [lookupChild, getNumKeys_eq]
  simp only [Option.bind_eq_bind, Option.bind_some, hloop]
  rw [Internal.lookupChild, children_getElem? hle]
  exact getChildAt_eq (Nat.le_trans hle hn) b

-- ---------------------------------------------------------------------------
-- insert_after
-- ---------------------------------------------------------------------------

/-- The search finds the first place of the old child. -/
theorem findChild_eq (hn : numKeys b ≤ internalMaxKeys) {oldChild : Nat} (hi : i ≤ numKeys b)
    (hat : childAt b i = oldChild) (hbefore : ∀ k < i, childAt b k ≠ oldChild) (fuel : Nat) {j : Nat}
    (hj : j ≤ i) (hfuel : i < j + fuel) : findChild b oldChild (numKeys b) fuel j = some i := by
  induction fuel generalizing j with
  | zero => omega
  | succ fuel ih =>
    rw [findChild, if_pos (by omega), getChildAt_eq (by omega)]
    simp only [Option.bind_eq_bind, Option.bind_some]
    by_cases hij : j = i
    · rw [hij, if_neg (not_not.mpr hat)]
      rfl
    · rw [if_pos (hbefore j (by omega))]
      exact ih (by omega) (by omega)

/-- A key and the child behind it. -/
def pairRows : Rows := ⟨15, 12⟩

/-- The bytes of a key and a child. -/
def bytesOfPair (key : Int64) (child : Nat) : List UInt8 := leBytes 8 (bytesOfKey key) ++ leBytes 4 child

@[simp] theorem length_bytesOfPair (key : Int64) (child : Nat) : (bytesOfPair key child).length = 12 := by
  simp [bytesOfPair]

theorem keyAt_eq_row (b : Buffer) (i : Nat) :
    keyAt b i = keyOfBytes (ofLe ((pairRows.row b i).take 8)) := by
  have hload := @load_eq_of_slice b (15 + i * 12) 12 0 8 (by decide)
  rw [Nat.add_zero, List.drop_zero] at hload
  rw [keyAt, hload, Rows.row, pairRows]

theorem childAt_eq_row (b : Buffer) (i : Nat) :
    childAt b (i + 1) = ofLe (((pairRows.row b i).drop 8).take 4) := by
  have hoff : 11 + (i + 1) * 12 = 15 + i * 12 + 8 := by omega
  rw [childAt, hoff, @load_eq_of_slice b (15 + i * 12) 12 8 4 (by decide), Rows.row, pairRows]

/-- A key and the child behind it are where their bytes are. -/
theorem pair_of_row (h : pairRows.row b' i = pairRows.row b j) :
    keyAt b' i = keyAt b j ∧ childAt b' (i + 1) = childAt b (j + 1) := by
  rw [keyAt_eq_row, keyAt_eq_row, childAt_eq_row, childAt_eq_row, h]
  exact ⟨rfl, rfl⟩

theorem pair_of_bytes {child : Nat} (hchild : child < 2 ^ 32)
    (h : pairRows.row b i = bytesOfPair key child) : keyAt b i = key ∧ childAt b (i + 1) = child := by
  have hkey : (bytesOfPair key child).take 8 = leBytes 8 (bytesOfKey key) :=
    List.take_left' (length_leBytes 8 _)
  have hc : ((bytesOfPair key child).drop 8).take 4 = leBytes 4 child := by
    rw [bytesOfPair, List.drop_left' (length_leBytes 8 _)]
    exact List.take_of_length_le (by simp)
  have hlt : bytesOfKey key < 256 ^ 8 := bytesOfKey_lt key
  have hlt' : child < 256 ^ 4 := hchild
  rw [keyAt_eq_row, childAt_eq_row, h, hkey, hc, ofLe_leBytes_of_lt hlt, ofLe_leBytes_of_lt hlt',
    keyOfBytes_bytesOfKey]
  exact ⟨rfl, rfl⟩

/-- `set_key_at` and `set_child_at` behind it replace a row. -/
theorem setPair_spec (hi : i < internalMaxKeys) (b : Buffer) (key : Int64) (child : Nat) :
    ∃ b₁ b₂, setKeyAt b i key = some b₁ ∧ setChildAt b₁ (i + 1) child = some b₂ ∧
      (∀ j, childAt b₁ j = childAt b j) ∧ pairRows.Replaced b b₂ i (bytesOfPair key child) := by
  refine ⟨_, _, setKeyAt_eq hi b key, setChildAt_eq hi _ child,
    fun j => childAt_storeKey b i j _, ?_⟩
  have hoff : 11 + (i + 1) * 12 = 15 + i * 12 + 8 := by omega
  have happend := blit_append b (15 + i * 12) (leBytes 8 (bytesOfKey key)) (leBytes 4 child)
  rw [length_leBytes] at happend
  rw [hoff, store, store, happend]
  exact Rows.replaced_blit (length_bytesOfPair key child)

/-- `copyPair` copies a row. -/
theorem copies_copyPair : pairRows.Copies copyPair internalMaxKeys := by
  intro b i j hi hj _
  obtain ⟨b₁, b₂, hb₁, hb₂, hchild, hrep⟩ := setPair_spec hj b (keyAt b i) (childAt b (i + 1))
  have hbytes : bytesOfPair (keyAt b i) (childAt b (i + 1)) = pairRows.row b i := by
    have hoff : 11 + (i + 1) * 12 = 15 + i * 12 + 8 := by omega
    rw [bytesOfPair, keyAt, childAt, hoff, bytesOfKey_keyOfBytes (load_lt b _ 8), leBytes_load,
      leBytes_load, slice_append]
    rfl
  rw [hbytes] at hrep
  refine ⟨b₂, ?_, hrep⟩
  rw [copyPair, getKeyAt_eq hi]
  simp only [Option.bind_eq_bind, Option.bind_some, hb₁, getChildAt_eq (Nat.succ_le_of_lt hi), hchild,
    hb₂]

theorem sameHeader_of_below {v : Nat} (h : ∀ a < 11, b' a = b a) : SameHeader b (store b' 5 2 v) := by
  constructor
  · rw [store, slice_blit_disjoint (.inl (by decide : 0 + 5 ≤ 5))]
    exact slice_congr fun a _ ha => h a (by omega)
  · rw [store, slice_blit_disjoint (.inr (by rw [length_leBytes]))]
    exact slice_congr fun a _ ha => h a (by omega)

theorem insertAfter_of_full (hn : numKeys b ≥ internalMaxKeys) {oldChild newChild : Nat} :
    insertAfter b oldChild key newChild = some (b, false) := by
  rw [insertAfter, getNumKeys_eq]
  simp only [Option.bind_eq_bind, Option.bind_some]
  rw [if_pos hn]
  rfl

/-- In a page with room, the key goes to the place of the old child and the new child behind it. -/
theorem insertAfter_of_room (hn : numKeys b < internalMaxKeys) {oldChild newChild : Nat}
    (hi : i ≤ numKeys b) (hat : childAt b i = oldChild) (hbefore : ∀ k < i, childAt b k ≠ oldChild)
    (hnew : newChild < 2 ^ 32) :
    ∃ b', insertAfter b oldChild key newChild = some (b', true) ∧ SameHeader b b' ∧
      internalOf b' = (internalOf b).insertedAt i key.toInt newChild := by
  obtain ⟨b₁, hb₁, hkept, hmoved⟩ := @Rows.shiftUp_spec _ b _ _ _ _ copies_copyPair hn hi
  obtain ⟨b₂, b₃, hb₂, hb₃, -, hrep⟩ := setPair_spec (Nat.lt_of_le_of_lt hi hn) b₁ key newChild
  have hbelow : ∀ a < 15, b₃ a = b a := fun a ha => by
    rw [hrep.kept a (.inl (by simp only [pairRows]; omega)),
      hkept a (.inl (by simp only [pairRows]; omega))]
  have hcount : numKeys (store b₃ 5 2 (numKeys b + 1)) = numKeys b + 1 := by
    rw [internalMaxKeys_eq] at hn
    exact numKeys_store (by omega) b₃
  -- the pairs before, at and behind the place
  have hfront : ∀ k < i, keyAt b₃ k = keyAt b k ∧ childAt b₃ (k + 1) = childAt b (k + 1) := fun k hk =>
    pair_of_row (by rw [hrep.row_of_ne (by omega), hkept.row (.inl (by omega))])
  have hplace := pair_of_bytes hnew hrep.row
  have hback : ∀ k, i ≤ k → k < numKeys b →
      keyAt b₃ (k + 1) = keyAt b k ∧ childAt b₃ (k + 1 + 1) = childAt b (k + 1) := fun k hk hlt =>
    pair_of_row (by rw [hrep.row_of_ne (by omega), hmoved k hk hlt])
  have hfirst : childAt b₃ 0 = childAt b 0 := load_congr fun a _ ha => hbelow a (by omega)
  refine ⟨store b₃ 5 2 (numKeys b + 1), ?_, sameHeader_of_below fun a ha => hbelow a (by omega), ?_⟩
  · rw [insertAfter, getNumKeys_eq]
    simp only [Option.bind_eq_bind, Option.bind_some]
    rw [if_neg (Nat.not_le.mpr hn),
      findChild_eq (Nat.le_of_lt hn) hi hat hbefore _ (Nat.zero_le _) (by omega)]
    simp only [Option.bind_some, hb₁, hb₂, hb₃, setNumKeys_eq]
    rfl
  · rw [internalOf, hcount, Internal.insertedAt]
    congr 1
    · refine map_range_insert hi (fun k hk => ?_) ?_ fun k hk hlt => ?_
      · rw [keyAt_storeCount, (hfront k hk).1]
      · rw [keyAt_storeCount, hplace.1]
      · rw [keyAt_storeCount, (hback k hk hlt).1]
    · refine map_range_insert (Nat.succ_le_succ hi) (fun k hk => ?_) ?_ fun k hk hlt => ?_
      · rw [childAt_storeCount]
        cases k with
        | zero => exact hfirst
        | succ k => exact (hfront k (by omega)).2
      · rw [childAt_storeCount, hplace.2]
      · rw [childAt_storeCount]
        obtain ⟨k, rfl⟩ : ∃ j, k = j + 1 := ⟨k - 1, by omega⟩
        exact (hback k (by omega) (by omega)).2

-- ---------------------------------------------------------------------------
-- The vectors of the split
-- ---------------------------------------------------------------------------

section Vectors

variable {α : Type} {src : Nat → α} {k lo cnt : Nat} {v : List α}

theorem length_copyLoop (indices : List Nat) : (copyLoop src k indices v).length = v.length := by
  unfold copyLoop
  induction indices generalizing v with
  | nil => rfl
  | cons i indices ih => rw [List.foldl_cons, ih, List.length_set]

/-- The places that the loop writes, and the others. -/
theorem copyLoop_getElem? (j : Nat) : (copyLoop src k (List.range' lo cnt) v)[j]?
    = if lo + k ≤ j ∧ j < lo + cnt + k then (v[j]?).map fun _ => src (j - k) else v[j]? := by
  induction cnt generalizing lo v with
  | zero =>
    rw [if_neg (by omega)]
    rfl
  | succ cnt ih =>
    have hstep : copyLoop src k (List.range' lo (cnt + 1)) v
        = copyLoop src k (List.range' (lo + 1) cnt) (v.set (lo + k) (src lo)) := by
      rw [List.range'_succ]
      rfl
    rw [hstep, ih, List.getElem?_set]
    by_cases hj : lo + k = j
    · subst hj
      have hwritten : lo + k ≤ lo + k ∧ lo + k < lo + (cnt + 1) + k := by omega
      rw [if_neg (by omega), if_pos rfl, if_pos hwritten, Nat.add_sub_cancel]
      split
      · rename_i hlt
        rw [List.getElem?_eq_getElem hlt]
        rfl
      · rename_i hge
        rw [List.getElem?_eq_none (Nat.not_lt.mp hge)]
        rfl
    · rw [if_neg hj]
      by_cases hin : lo + 1 + k ≤ j ∧ j < lo + 1 + cnt + k
      · rw [if_pos hin, if_pos (by omega)]
      · rw [if_neg hin, if_neg (by omega)]

theorem copyLoop_range_getElem? (j : Nat) : (copyLoop src k (List.range cnt) v)[j]?
    = if k ≤ j ∧ j < cnt + k then (v[j]?).map fun _ => src (j - k) else v[j]? := by
  rw [List.range_eq_range', copyLoop_getElem?, Nat.zero_add, Nat.zero_add]

theorem eq_map_getD (l : List α) (d : α) : l = (List.range l.length).map (l.getD · d) := by
  refine List.ext_getElem (by simp) fun i h1 h2 => ?_
  simp [h1]

end Vectors

/-- `new_keys` is the keys with the new one at its place. -/
theorem newKeys_eq {parKeys : List Int64} {pos : Nat} (hpos : pos ≤ n) (hlen : parKeys.length = n) :
    newKeys n pos parKeys key = parKeys.take pos ++ key :: parKeys.drop pos := by
  have hlength : (newKeys n pos parKeys key).length = n + 1 := by
    simp only [newKeys, length_copyLoop, List.length_set, List.length_replicate]
  have hat : ∀ j ≤ n, (newKeys n pos parKeys key).getD j 0
      = if j < pos then parKeys.getD j 0 else if j = pos then key else parKeys.getD (j - 1) 0 := by
    intro j hj
    simp only [newKeys, List.getD_eq_getElem?_getD, copyLoop_getElem?, List.getElem?_set,
      copyLoop_range_getElem?, length_copyLoop, List.length_replicate, List.getElem?_replicate]
    obtain hlt | heq | hgt := Nat.lt_trichotomy j pos
    · rw [if_neg (by omega), if_neg (by omega), if_pos (by omega), if_pos (by omega), if_pos hlt]
      rfl
    · rw [if_neg (by omega), if_pos heq.symm, if_pos (by omega), if_neg (by omega), if_pos heq]
      rfl
    · rw [if_pos (by omega), if_neg (by omega), if_neg (by omega), if_pos (by omega), if_neg (by omega),
        if_neg (by omega)]
      rfl
  rw [eq_map_getD (newKeys n pos parKeys key) 0, hlength]
  conv_rhs => rw [eq_map_getD parKeys 0, hlen]
  refine map_range_insert hpos (fun j hj => ?_) ?_ fun j hj hlt => ?_
  · rw [hat j (by omega), if_pos hj]
  · rw [hat pos hpos, if_neg (Nat.lt_irrefl _), if_pos rfl]
  · rw [hat (j + 1) (by omega), if_neg (by omega), if_neg (by omega), Nat.add_sub_cancel]

/-- `new_children` is the children with the new one behind the old one. -/
theorem newChildren_eq {parChildren : List Nat} {pos left right : Nat} (hpos : pos ≤ n)
    (hlen : parChildren.length = n + 1) (hleft : parChildren.getD pos 0 = left) :
    newChildren n pos parChildren left right
      = parChildren.take (pos + 1) ++ right :: parChildren.drop (pos + 1) := by
  have hlength : (newChildren n pos parChildren left right).length = n + 2 := by
    simp only [newChildren, length_copyLoop, List.length_set, List.length_replicate]
  have hat : ∀ j ≤ n + 1, (newChildren n pos parChildren left right).getD j 0
      = if j ≤ pos then parChildren.getD j 0
        else if j = pos + 1 then right else parChildren.getD (j - 1) 0 := by
    intro j hj
    simp only [newChildren, List.getD_eq_getElem?_getD, copyLoop_getElem?, List.getElem?_set,
      copyLoop_range_getElem?, length_copyLoop, List.length_replicate, List.length_set,
      List.getElem?_replicate]
    obtain hlt | heq | heq | hgt : j < pos ∨ j = pos ∨ j = pos + 1 ∨ pos + 1 < j := by omega
    · rw [if_neg (by omega), if_neg (by omega), if_neg (by omega), if_pos (by omega), if_pos (by omega),
        if_pos (by omega)]
      rfl
    · subst heq
      rw [if_neg (by omega), if_neg (by omega), if_pos rfl, if_pos (by omega), if_pos (Nat.le_refl _),
        ← hleft, List.getD_eq_getElem?_getD]
      rfl
    · rw [if_neg (by omega), if_pos heq.symm, if_pos (by omega), if_neg (by omega), if_pos heq]
      rfl
    · have hsrc : j - 2 + 1 = j - 1 := by omega
      rw [if_pos (by omega), if_neg (by omega), if_neg (by omega), if_neg (by omega), if_pos (by omega),
        if_neg (by omega), if_neg (by omega), hsrc]
      rfl
  rw [eq_map_getD (newChildren n pos parChildren left right) 0, hlength]
  conv_rhs => rw [eq_map_getD parChildren 0, hlen]
  refine map_range_insert (Nat.succ_le_succ hpos) (fun j hj => ?_) ?_ fun j hj hlt => ?_
  · rw [hat j (by omega), if_pos (by omega)]
  · rw [hat (pos + 1) (by omega), if_neg (by omega), if_pos rfl]
  · rw [hat (j + 1) (by omega), if_neg (by omega), if_neg (by omega), Nat.add_sub_cancel]

-- ---------------------------------------------------------------------------
-- The halves of the split
-- ---------------------------------------------------------------------------

/-- A loop that writes `m` keys, and `m` children from place `d` on. -/
theorem writeHalf_spec {keys : Nat → Int64} {children : Nat → Nat} {d : Nat}
    (hm : m ≤ internalMaxKeys) (hd : d ≤ 1) (hchildren : ∀ i < m, children i < 2 ^ 32) (b : Buffer) :
    ∃ b', writeHalf keys children d m b = some b' ∧
      (∀ j, keyAt b' j = if j < m then keys j else keyAt b j) ∧
      (∀ j, childAt b' j = if d ≤ j ∧ j < m + d then children (j - d) else childAt b j) ∧
      ∀ a < 11, b' a = b a := by
  induction m with
  | zero =>
    refine ⟨b, rfl, fun j => ?_, fun j => ?_, fun _ _ => rfl⟩
    · rw [if_neg (Nat.not_lt_zero j)]
    · rw [if_neg (by omega)]
  | succ m ih =>
    obtain ⟨b₁, hb₁, hkeys, hchilds, hbelow⟩ := ih (by omega) fun i hi => hchildren i (by omega)
    refine ⟨store (store b₁ (15 + m * 12) 8 (bytesOfKey (keys m))) (11 + (m + d) * 12) 4 (children m),
      ?_, fun j => ?_, fun j => ?_, fun a ha => ?_⟩
    · rw [writeHalf] at hb₁
      rw [writeHalf, List.range_succ, List.foldlM_append, hb₁]
      simp only [Option.bind_eq_bind, Option.bind_some, List.foldlM_cons, List.foldlM_nil,
        setKeyAt_eq (by omega : m < internalMaxKeys), setChildAt_eq (by omega : m + d ≤ internalMaxKeys)]
      rfl
    · rw [keyAt_storeChild, keyAt_storeKey, hkeys]
      by_cases hj : j = m
      · rw [if_pos hj, if_pos (by omega), hj]
      · rw [if_neg hj]
        by_cases hlt : j < m
        · rw [if_pos hlt, if_pos (by omega)]
        · rw [if_neg hlt, if_neg (by omega)]
    · rw [childAt_storeChild _ _ _ (hchildren m (Nat.lt_succ_self m)), childAt_storeKey, hchilds]
      by_cases hj : j = m + d
      · have hsub : j - d = m := by omega
        rw [if_pos hj, if_pos (by omega), hsub]
      · rw [if_neg hj]
        by_cases hin : d ≤ j ∧ j < m + d
        · rw [if_pos hin, if_pos (by omega)]
        · rw [if_neg hin, if_neg (by omega)]
    · rw [store, blit_of_not_mem (.inl (by omega)), store, blit_of_not_mem (.inl (by omega)), hbelow a ha]

/-- A snapshot loop reads what the page holds. -/
theorem mapM_eq_some {α β : Type} {f : α → Option β} {g : α → β} {l : List α}
    (h : ∀ a ∈ l, f a = some (g a)) : l.mapM f = some (l.map g) := by
  induction l with
  | nil => rfl
  | cons a l ih =>
    rw [List.mapM_cons, h a List.mem_cons_self, ih fun x hx => h x (List.mem_cons_of_mem _ hx)]
    rfl

theorem map_range_take {α : Type} {l : List α} {d : α} {g : Nat → α} (hm : m ≤ l.length)
    (h : ∀ j < m, g j = l.getD j d) : (List.range m).map g = l.take m := by
  refine List.ext_getElem (by simp; omega) fun i h1 h2 => ?_
  rw [List.length_map, List.length_range] at h1
  have hi : i < l.length := by omega
  simp [h i h1, hi]

theorem map_range_drop {α : Type} {l : List α} {d : α} {g : Nat → α} (hm : m + n = l.length)
    (h : ∀ j < n, g j = l.getD (m + j) d) : (List.range n).map g = l.drop m := by
  refine List.ext_getElem (by simp; omega) fun i h1 h2 => ?_
  rw [List.length_map, List.length_range] at h1
  have hi : m + i < l.length := by omega
  simp [h i h1, hi]

theorem init_eq (pid : Nat) : init pid
    = some (store (store (store (store (fun _ => 0) 0 4 pid) 4 1 0) 5 2 0) 7 4 invalidPageId) := by
  simp only [init, writePage, writeIn_of_le (by decide : 0 + 4 ≤ pageSize), Option.bind_eq_bind,
    Option.bind_some, writeIn_of_le (by decide : 4 + 1 ≤ pageSize), setNumKeys_eq,
    writeIn_of_le (by decide : 7 + 4 ≤ pageSize)]

theorem keys_eq (b : Buffer) :
    (internalOf b).keys = ((List.range (numKeys b)).map (keyAt b)).map Int64.toInt := by
  rw [internalOf, List.map_map]
  simp only [Function.comp_def]

/-- A page whose keys and children are places of two lists holds these parts of them. -/
theorem internalOf_eq {keys : List Int64} {children : List Nat}
    (hcount : numKeys b = n)
    (hkeys : (List.range n).map (keyAt b) = keys)
    (hchildren : (List.range (n + 1)).map (childAt b) = children) :
    internalOf b = ⟨keys.map Int64.toInt, children⟩ := by
  rw [internalOf, hcount, ← hkeys, ← hchildren, List.map_map]
  simp only [Function.comp_def]

/-- **The split.** The halves hold the lists of the oversized node up to the middle key and from
behind it; the left one keeps its header, the right one has that of a new page. -/
theorem splitParent_spec (hn : numKeys b ≤ internalMaxKeys) (hd : (internalOf b).children.Nodup)
    (hi : i ≤ numKeys b) {right : Nat} (hright : right < 2 ^ 32) (newPid : Nat) :
    ∃ l k r, splitParent b (childAt b i) key right newPid = some (l, k, r) ∧
      ((internalOf b).insertedAt i key.toInt right).keys[(numKeys b + 1) / 2]? = some k.toInt ∧
      internalOf l = ⟨((internalOf b).insertedAt i key.toInt right).keys.take ((numKeys b + 1) / 2),
        ((internalOf b).insertedAt i key.toInt right).children.take ((numKeys b + 1) / 2 + 1)⟩ ∧
      internalOf r = ⟨((internalOf b).insertedAt i key.toInt right).keys.drop ((numKeys b + 1) / 2 + 1),
        ((internalOf b).insertedAt i key.toInt right).children.drop ((numKeys b + 1) / 2 + 1)⟩ ∧
      SameHeader b l ∧ load r 4 1 = 0 ∧ load r 7 4 = invalidPageId := by
  -- the snapshot, and the place of the old child in it
  have hparKeys : (List.range (numKeys b)).mapM (getKeyAt b)
      = some ((List.range (numKeys b)).map (keyAt b)) :=
    mapM_eq_some fun j hj => getKeyAt_eq (Nat.lt_of_lt_of_le (List.mem_range.mp hj) hn) b
  have hparChildren : (List.range (numKeys b + 1)).mapM (getChildAt b)
      = some (internalOf b).children :=
    mapM_eq_some fun j hj =>
      getChildAt_eq (Nat.le_trans (Nat.le_of_lt_succ (List.mem_range.mp hj)) hn) b
  have hat : (internalOf b).children[i]? = some (childAt b i) := children_getElem? hi
  obtain ⟨hilt, hget⟩ := List.getElem?_eq_some_iff.mp hat
  have hpos : (internalOf b).children.idxOf (childAt b i) = i := by rw [← hget, hd.idxOf_getElem]
  -- the two vectors
  obtain ⟨K, hK⟩ : ∃ K, K = ((List.range (numKeys b)).map (keyAt b)).take i
      ++ key :: ((List.range (numKeys b)).map (keyAt b)).drop i := ⟨_, rfl⟩
  obtain ⟨C, hC⟩ : ∃ C, C = (internalOf b).children.take (i + 1)
      ++ right :: (internalOf b).children.drop (i + 1) := ⟨_, rfl⟩
  have hnewKeys : newKeys (numKeys b) i ((List.range (numKeys b)).map (keyAt b)) key = K := by
    rw [hK, newKeys_eq hi (by simp)]
  have hnewChildren : newChildren (numKeys b) i (internalOf b).children (childAt b i) right = C := by
    rw [hC, newChildren_eq hi (length_children b)]
    rw [List.getD_eq_getElem?_getD, hat, Option.getD_some]
  have hKlen : K.length = numKeys b + 1 := by
    rw [hK, List.length_append, List.length_cons, List.length_take, List.length_drop,
      List.length_map, List.length_range]
    omega
  have hClen : C.length = numKeys b + 2 := by
    rw [hC, List.length_append, List.length_cons, List.length_take, List.length_drop, length_children]
    omega
  have hbigKeys : ((internalOf b).insertedAt i key.toInt right).keys = K.map Int64.toInt := by
    rw [hK, List.map_append, List.map_take, List.map_cons, List.map_drop, ← keys_eq]
    rfl
  have hbigChildren : ((internalOf b).insertedAt i key.toInt right).children = C := hC.symm
  have hsmall : ∀ j, C.getD j 0 < 2 ^ 32 := by
    have hmem : ∀ c ∈ C, c < 2 ^ 32 := by
      intro c hc
      have hold : ∀ c ∈ (internalOf b).children, c < 2 ^ 32 := by
        intro c hc
        obtain ⟨k, -, rfl⟩ := List.mem_map.mp hc
        exact childAt_lt b k
      rw [hC] at hc
      obtain hc | hc := List.mem_append.mp hc
      · exact hold c (List.mem_of_mem_take hc)
      · obtain rfl | hc := List.mem_cons.mp hc
        · exact hright
        · exact hold c (List.mem_of_mem_drop hc)
    intro j
    rw [List.getD_eq_getElem?_getD]
    cases hj : C[j]? with
    | none =>
      rw [Option.getD_none]
      exact Nat.two_pow_pos 32
    | some c =>
      rw [Option.getD_some]
      exact hmem c (List.mem_of_getElem? hj)
  rw [hbigKeys, hbigChildren]
  generalize hmid : (numKeys b + 1) / 2 = mid
  have hcap := internalMaxKeys_eq
  -- the left half, in place
  obtain ⟨l, hl, hlKeys, hlChildren, hlBelow⟩ := @writeHalf_spec mid (fun i => K.getD i 0)
    (fun i => C.getD i 0) 0 (by omega) (Nat.zero_le _) (fun i _ => hsmall i) (store b 5 2 mid)
  have hlCount : numKeys l = mid := by
    rw [numKeys, load_congr fun a _ ha => hlBelow a (by omega)]
    exact numKeys_store (by omega) b
  -- the right half, in a new page
  obtain ⟨fresh, hfresh⟩ : ∃ fresh, init newPid = some fresh := ⟨_, init_eq newPid⟩
  obtain ⟨r, hr, hrKeys, hrChildren, hrBelow⟩ := @writeHalf_spec (numKeys b + 1 - mid - 1)
    (fun i => K.getD (mid + 1 + i) 0) (fun i => C.getD (mid + 2 + i) 0) 1 (by omega) (Nat.le_refl _)
    (fun i _ => hsmall _) (store (store fresh 5 2 (numKeys b + 1 - mid - 1)) (11 + 0 * 12) 4
      (C.getD (mid + 1) 0))
  have hrCount : numKeys r = numKeys b + 1 - mid - 1 := by
    rw [numKeys, load_congr fun a _ ha => hrBelow a (by omega), load_store_disjoint (by omega)]
    exact numKeys_store (by omega) fresh
  -- besides `num_keys`, the header of the new page is that of `init`
  have hrHeader : ∀ off n, 7 ≤ off ∨ off + n ≤ 5 → off + n ≤ 11 → load r off n = load fresh off n := by
    intro off n hoff hle
    rw [load_congr fun a _ ha => hrBelow a (by omega), load_store_disjoint (by omega),
      load_store_disjoint (by omega)]
  refine ⟨store l (11 + mid * 12) 4 (C.getD mid 0), K.getD mid 0, r, ?_, ?_, ?_, ?_, ?_, ?_, ?_⟩
  · rw [splitParent, getNumKeys_eq]
    simp only [Option.bind_eq_bind, Option.bind_some, hparKeys, hparChildren, hpos, hnewKeys,
      hnewChildren, hmid, setNumKeys_eq, hl, setChildAt_eq (by omega : mid ≤ internalMaxKeys), hfresh,
      setChildAt_eq (Nat.zero_le internalMaxKeys), hr]
    rfl
  · have hlt : mid < K.length := by omega
    simp [hlt]
  · rw [← List.map_take]
    have hcount : numKeys (store l (11 + mid * 12) 4 (C.getD mid 0)) = mid := by
      rw [numKeys, load_store_disjoint (by omega)]
      exact hlCount
    refine internalOf_eq hcount (map_range_take (d := 0) (by omega) fun j hj => ?_)
      (map_range_take (d := 0) (by omega) fun j hj => ?_)
    · rw [keyAt_storeChild, hlKeys, if_pos hj]
    · rw [childAt_storeChild _ _ _ (hsmall mid), hlChildren]
      by_cases hjm : j = mid
      · rw [if_pos hjm, hjm]
      · rw [if_neg hjm, if_pos (by omega), Nat.sub_zero]
  · rw [← List.map_drop]
    refine internalOf_eq hrCount (map_range_drop (d := 0) (by omega) fun j hj => ?_)
      (map_range_drop (d := 0) (by omega) fun j hj => ?_)
    · rw [hrKeys, if_pos hj]
    · rw [hrChildren]
      cases j with
      | zero => rw [if_neg (by omega), childAt_storeChild _ _ _ (hsmall (mid + 1)), if_pos rfl, Nat.add_zero]
      | succ j =>
        have hoff : mid + 2 + (j + 1 - 1) = mid + 1 + (j + 1) := by omega
        rw [if_pos (by omega), hoff]
  · have hbelow : ∀ a < 11, store l (11 + mid * 12) 4 (C.getD mid 0) a = store b 5 2 mid a := fun a ha => by
      rw [store, blit_of_not_mem (.inl (by omega)), hlBelow a ha]
    constructor
    · rw [slice_congr fun a _ ha => hbelow a (by omega), store, slice_blit_disjoint (by simp)]
    · rw [slice_congr fun a _ ha => hbelow a (by omega), store, slice_blit_disjoint (by simp)]
  · rw [hrHeader 4 1 (by omega) (by omega), ← Option.some.inj ((init_eq newPid).symm.trans hfresh),
      load_store_disjoint (by omega), load_store_disjoint (by omega), load_store]
    rfl
  · rw [hrHeader 7 4 (by omega) (by omega), ← Option.some.inj ((init_eq newPid).symm.trans hfresh),
      load_store]
    rfl

-- ---------------------------------------------------------------------------
-- The two ways agree
-- ---------------------------------------------------------------------------

/-- The halves route as the oversized node: a search key goes right of the pushed key as
`lookup_child` of the parent sends it. -/
theorem lookupChild_halves {big : Internal} {l r : Buffer} {k : Int64} {mid : Nat}
    (hmid : big.keys[mid]? = some k.toInt)
    (hl : internalOf l = ⟨big.keys.take mid, big.children.take (mid + 1)⟩)
    (hr : internalOf r = ⟨big.keys.drop (mid + 1), big.children.drop (mid + 1)⟩)
    (hln : numKeys l ≤ internalMaxKeys) (hrn : numKeys r ≤ internalMaxKeys)
    (hs : big.keys.Pairwise (· ≤ ·)) (search : Int64) :
    (if search ≥ k then lookupChild r search else lookupChild l search)
      = big.lookupChild search.toInt := by
  obtain ⟨hlt, hget⟩ := List.getElem?_eq_some_iff.mp hmid
  have hcut : big.keys = big.keys.take mid ++ k.toInt :: big.keys.drop (mid + 1) := by
    rw [← hget, ← List.drop_eq_getElem_cons hlt, List.take_append_drop]
  have hlen : (big.keys.take mid).length = mid := List.length_take_of_le (Nat.le_of_lt hlt)
  have hsplit := @Internal.lookupChild_split _ _ _ big.children (hcut ▸ hs) search.toInt
  rw [hlen, ← hcut] at hsplit
  rw [← hsplit, lookupChild_eq hln, lookupChild_eq hrn, hl, hr]
  simp only [ge_iff_le, Int64.le_iff_toInt_le]
  split
  · rfl
  · rfl

/-- **A separator goes in place or by a split, with the same result.** In a page with room,
`insert_after` gives the node with the key at the place of the old child and the new child
behind it; a full page is left as it is and split into two that, with the key between them,
hold the same lists and route every search key to the same child. -/
theorem insertSeparator (b : Buffer) (hn : numKeys b ≤ internalMaxKeys)
    (hd : (internalOf b).children.Nodup) (i : Nat) (hi : i ≤ numKeys b) (key : Int64)
    (newChild newPid : UInt32) :
    (numKeys b < internalMaxKeys →
      ∃ b', insertAfter b (childAt b i) key newChild.toNat = some (b', true) ∧
        internalOf b' = (internalOf b).insertedAt i key.toInt newChild.toNat ∧ SameHeader b b' ∧
        ∀ search, lookupChild b' search
          = ((internalOf b).insertedAt i key.toInt newChild.toNat).lookupChild search.toInt) ∧
    (numKeys b = internalMaxKeys →
      insertAfter b (childAt b i) key newChild.toNat = some (b, false) ∧
      ∃ l k r, splitParent b (childAt b i) key newChild.toNat newPid.toNat = some (l, k, r) ∧
        (internalOf l).keys ++ k.toInt :: (internalOf r).keys
          = ((internalOf b).insertedAt i key.toInt newChild.toNat).keys ∧
        (internalOf l).children ++ (internalOf r).children
          = ((internalOf b).insertedAt i key.toInt newChild.toNat).children ∧
        (internalOf l).keys ≠ [] ∧ (internalOf r).keys ≠ [] ∧
        (((internalOf b).insertedAt i key.toInt newChild.toNat).keys.Pairwise (· ≤ ·) →
          ∀ search, (if search ≥ k then lookupChild r search else lookupChild l search)
            = ((internalOf b).insertedAt i key.toInt newChild.toNat).lookupChild search.toInt)) := by
  have hnew : newChild.toNat < 2 ^ 32 := newChild.toNat_lt
  have hcap := internalMaxKeys_eq
  constructor
  · intro hroom
    -- distinct children: the old child stands nowhere before its place
    have hbefore : ∀ k < i, childAt b k ≠ childAt b i := by
      intro k hk heq
      have hkat := @children_getElem? b k (by omega)
      have hiat := @children_getElem? b i hi
      rw [heq] at hkat
      have hklt : k < (internalOf b).children.length := by
        rw [length_children]
        omega
      exact absurd ((List.getElem?_inj hklt hd).mp (hkat.trans hiat.symm)) (Nat.ne_of_lt hk)
    obtain ⟨b', hins, hheader, hnode⟩ := insertAfter_of_room hroom hi rfl hbefore hnew
    refine ⟨b', hins, hnode, hheader, fun search => ?_⟩
    have hcount : numKeys b' ≤ internalMaxKeys := by
      rw [← length_keys, hnode]
      simp only [Internal.insertedAt, List.length_append, List.length_take, List.length_cons,
        List.length_drop, length_keys]
      omega
    rw [lookupChild_eq hcount, hnode]
  · intro hfull
    refine ⟨insertAfter_of_full (Nat.le_of_eq hfull.symm), ?_⟩
    obtain ⟨l, k, r, hsplit, hmid, hl, hr, -⟩ :=
      @splitParent_spec b i key hn hd hi newChild.toNat hnew newPid.toNat
    have hlen : ((internalOf b).insertedAt i key.toInt newChild.toNat).keys.length = numKeys b + 1 := by
      simp only [Internal.insertedAt, List.length_append, List.length_take, List.length_cons,
        List.length_drop, length_keys]
      omega
    generalize (internalOf b).insertedAt i key.toInt newChild.toNat = big at hmid hl hr hlen ⊢
    have hlKeys : (internalOf l).keys.length = (numKeys b + 1) / 2 := by
      rw [hl]
      exact List.length_take_of_le (by omega)
    have hrKeys : (internalOf r).keys.length = numKeys b - (numKeys b + 1) / 2 := by
      rw [hr, List.length_drop, hlen]
      omega
    obtain ⟨hlt, hget⟩ := List.getElem?_eq_some_iff.mp hmid
    refine ⟨l, k, r, hsplit, ?_, ?_, ?_, ?_, fun hs search => ?_⟩
    · rw [hl, hr, ← hget]
      simp only [← List.drop_eq_getElem_cons hlt, List.take_append_drop]
    · rw [hl, hr]
      exact List.take_append_drop _ _
    · exact List.ne_nil_of_length_pos (by omega)
    · exact List.ne_nil_of_length_pos (by omega)
    · rw [length_keys] at hlKeys hrKeys
      exact lookupChild_halves hmid hl hr (by omega) (by omega) hs search

/-- A page with the children 3 and 4, and the key 10 between them. -/
def twoChildPage : Buffer :=
  store (store (store (store (fun _ => 0) 5 2 1) 11 4 3) 15 8 (bytesOfKey 10)) 23 4 4

/-- Byte `r` of the child 1000 + `i` and of the key 10 * `i` behind it. -/
def pairByte (i r : Nat) : UInt8 :=
  if r < 4 then UInt8.ofNat ((1000 + i) / 256 ^ r) else UInt8.ofNat (10 * i / 256 ^ (r - 4))

/-- A full page, with the children 1000, 1001, ... and the keys 0, 10, ... between them. -/
def fullPage : Buffer :=
  store (fun a => if a < 11 then 0 else pairByte ((a - 11) / 12) ((a - 11) % 12)) 5 2 internalMaxKeys

theorem internalOf_fullPage : internalOf fullPage =
    ⟨(List.range internalMaxKeys).map fun i => ((10 * i : Nat) : Int),
      (List.range (internalMaxKeys + 1)).map (1000 + ·)⟩ := by
  decide +kernel

/-- A separator in place, and one that splits a full page in the middle. -/
theorem insertSeparator_both :
    (∃ b', insertAfter twoChildPage 3 5 9 = some (b', true) ∧
      internalOf b' = ⟨[5, 10], [3, 9, 4]⟩ ∧ lookupChild b' 7 = some 9) ∧
    insertAfter fullPage 1170 1695 5 = some (fullPage, false) ∧
    ∃ l k r, splitParent fullPage 1170 1695 5 9 = some (l, k, r) ∧
      (internalOf l).keys ++ k.toInt :: (internalOf r).keys
        = (internalOf fullPage).keys.take 170 ++ 1695 :: (internalOf fullPage).keys.drop 170 ∧
      (if 1697 ≥ k then lookupChild r 1697 else lookupChild l 1697) = some 5 ∧
      (if 1694 ≥ k then lookupChild r 1694 else lookupChild l 1694) = some 1170 := by
  constructor
  · have hnode : internalOf twoChildPage = ⟨[10], [3, 4]⟩ := by decide
    obtain ⟨b', hins, hlist, -, hlookup⟩ :=
      (insertSeparator twoChildPage (by decide) (by decide) 0 (by decide) 5 9 2).1 (by decide)
    rw [hnode] at hlist hlookup
    exact ⟨b', hins, hlist, hlookup 7⟩
  · have hkeys : numKeys fullPage = internalMaxKeys := by decide
    have hchildren : (internalOf fullPage).children.Nodup := by
      rw [internalOf_fullPage]
      exact List.pairwise_map.mpr (List.nodup_range.imp fun hne heq => hne (Nat.add_left_cancel heq))
    obtain ⟨hrefused, l, k, r, hsplit, hlist, -, -, -, hlookup⟩ :=
      (insertSeparator fullPage (Nat.le_of_eq hkeys) hchildren 170 (by decide) 1695 5 9).2 hkeys
    have hchild : childAt fullPage 170 = 1170 := by decide +kernel
    rw [hchild] at hrefused hsplit
    rw [internalOf_fullPage] at hlookup
    have hsorted := hlookup (List.isChain_iff_pairwise.mp (by decide +kernel))
    exact ⟨hrefused, l, k, r, hsplit, hlist, (hsorted 1697).trans (by decide +kernel),
      (hsorted 1694).trans (by decide +kernel)⟩

end InternalPage

end PersistX.Btree
