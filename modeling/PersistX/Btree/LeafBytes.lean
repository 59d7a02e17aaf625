import PersistX.Btree.Node
import PersistX.Lib.Codec
import PersistX.Lib.Rows

/-!
# PersistX — the leaf page, byte for byte

`BTreeLeafPage` on the 4096 bytes of a page: a 15-byte header `[4] page_id
[1] node_type [2] num_keys [4] parent_id [4] next_leaf_id`, then entries of 14
bytes `[8] key [4] page [2] slot`.

Every `memcpy` goes through `readPage` and `writePage`, which give `none`
outside the page. The `uint16_t` counters do not wrap: they stay below
`num_keys + 1` in a page that is not full, and `mid + 1 <= hi`.

`leafOf` is the leaf of `Btree/Node.lean` that a page holds.

Main result: `leafPage_refines`.
-/

namespace PersistX.Btree

open Bytes

/-- `Page::raw()`. -/
abbrev Buffer := Nat → UInt8

/-- `memcpy` out of the page. -/
def readPage : Buffer → Nat → Nat → Option Nat := readIn pageSize

/-- `memcpy` into the page. -/
def writePage : Buffer → Nat → Nat → Nat → Option Buffer := writeIn pageSize

/-- The `int64_t` that eight bytes stand for. -/
def keyOfBytes (v : Nat) : Int64 := (UInt64.ofNat v).toInt64

/-- The eight bytes of an `int64_t`, as a number. -/
def bytesOfKey (key : Int64) : Nat := key.toUInt64.toNat

@[simp] theorem keyOfBytes_bytesOfKey (key : Int64) : keyOfBytes (bytesOfKey key) = key := by
  rw [keyOfBytes, bytesOfKey, UInt64.ofNat_toNat]
  rfl

@[simp] theorem bytesOfKey_keyOfBytes {v : Nat} (h : v < 2 ^ 64) : bytesOfKey (keyOfBytes v) = v := by
  have hround : ((UInt64.ofNat v).toInt64).toUInt64 = UInt64.ofNat v := rfl
  rw [bytesOfKey, keyOfBytes, hround]
  exact UInt64.toNat_ofNat_of_lt' h

theorem bytesOfKey_lt (key : Int64) : bytesOfKey key < 2 ^ 64 := key.toUInt64.toNat_lt

namespace LeafPage

-- ---------------------------------------------------------------------------
-- Header and entries
-- ---------------------------------------------------------------------------

/-- `get_num_keys`. -/
def getNumKeys (b : Buffer) : Option Nat := readPage b 5 2

/-- `set_num_keys`. -/
def setNumKeys (b : Buffer) (n : Nat) : Option Buffer := writePage b 5 2 n

/-- `entry_offset`. -/
def entryOffset (index : Nat) : Nat := 15 + index * 14

/-- `get_key_at`. -/
def getKeyAt (b : Buffer) (index : Nat) : Option Int64 :=
  (readPage b (entryOffset index) 8).map keyOfBytes

/-- `get_rid_at`. -/
def getRidAt (b : Buffer) (index : Nat) : Option Rid := do
  let off := entryOffset index + 8
  let pageId ← readPage b off 4
  let slotId ← readPage b (off + 4) 2
  return ⟨pageId, slotId⟩

/-- `set_key_at`. -/
def setKeyAt (b : Buffer) (index : Nat) (key : Int64) : Option Buffer :=
  writePage b (entryOffset index) 8 (bytesOfKey key)

/-- `set_rid_at`. -/
def setRidAt (b : Buffer) (index : Nat) (rid : Rid) : Option Buffer := do
  let off := entryOffset index + 8
  let b ← writePage b off 4 rid.pageId
  writePage b (off + 4) 2 rid.slotId

-- ---------------------------------------------------------------------------
-- Operations
-- ---------------------------------------------------------------------------

/-- The loop of `key_index`. -/
def keyIndexLoop (b : Buffer) (key : Int64) : Nat → Nat → Nat → Option Nat
  | 0, lo, _ => some lo
  | fuel + 1, lo, hi =>
    if lo < hi then do
      let mid := lo + (hi - lo) / 2
      let k ← getKeyAt b mid
      if k < key then keyIndexLoop b key fuel (mid + 1) hi else keyIndexLoop b key fuel lo mid
    else some lo

/-- `key_index`. -/
def keyIndex (b : Buffer) (key : Int64) : Option Nat := do
  let hi ← getNumKeys b
  keyIndexLoop b key (hi + 1) 0 hi

/-- `lookup`. -/
def lookup (b : Buffer) (key : Int64) : Option Rid := do
  let pos ← keyIndex b key
  let n ← getNumKeys b
  if pos < n then
    let k ← getKeyAt b pos
    if k = key then getRidAt b pos else return Rid.invalid
  else return Rid.invalid

/-- The body of both shifting loops: entry `i` goes to index `j`. -/
def copyEntry (b : Buffer) (i j : Nat) : Option Buffer := do
  let key ← getKeyAt b i
  let b ← setKeyAt b j key
  let rid ← getRidAt b i
  setRidAt b j rid

/-- `insert`, with the value it returns. -/
def insert (b : Buffer) (key : Int64) (rid : Rid) : Option (Buffer × Bool) := do
  let n ← getNumKeys b
  if n ≥ leafMaxEntries then return (b, false)
  let pos ← keyIndex b key
  let b ← Rows.shiftUp copyEntry pos n b
  let b ← setKeyAt b pos key
  let b ← setRidAt b pos rid
  let b ← setNumKeys b (n + 1)
  return (b, true)

/-- `remove`, with the value it returns. -/
def remove (b : Buffer) (key : Int64) : Option (Buffer × Bool) := do
  let pos ← keyIndex b key
  let n ← getNumKeys b
  if pos ≥ n then return (b, false)
  let k ← getKeyAt b pos
  if k ≠ key then return (b, false)
  let b ← Rows.shiftDown copyEntry (n - 1) n pos b
  let b ← setNumKeys b (n - 1)
  return (b, true)

-- ---------------------------------------------------------------------------
-- What a page holds
-- ---------------------------------------------------------------------------

/-- `num_keys`. -/
def numKeys (b : Buffer) : Nat := load b 5 2

/-- Where the entries are. -/
def entryRows : Rows := ⟨15, 14⟩

/-- The entry that 14 bytes stand for. -/
def entryOfBytes (r : List UInt8) : Entry :=
  ((keyOfBytes (ofLe (r.take 8))).toInt, ⟨ofLe ((r.drop 8).take 4), ofLe ((r.drop 12).take 2)⟩)

/-- The entry at an index. -/
def entryAt (b : Buffer) (i : Nat) : Entry := entryOfBytes (entryRows.row b i)

/-- The leaf that a page holds. -/
def leafOf (b : Buffer) : Leaf where
  nextLeafId := if load b 11 4 = invalidPageId then none else some (load b 11 4)
  entries := (List.range (numKeys b)).map (entryAt b)

/-- The header besides `num_keys`: page id, node type, parent and next leaf. -/
def SameHeader (b b' : Buffer) : Prop :=
  slice b' 0 5 = slice b 0 5 ∧ slice b' 7 8 = slice b 7 8

/-- The bytes of an entry. -/
def bytesOfEntry (key : Int64) (rid : Rid) : List UInt8 :=
  leBytes 8 (bytesOfKey key) ++ leBytes 4 rid.pageId ++ leBytes 2 rid.slotId

variable {b b' : Buffer} {i j n : Nat} {key : Int64} {rid : Rid}

theorem leafOf_length (b : Buffer) : (leafOf b).entries.length = numKeys b := by simp [leafOf]

theorem leafOf_getElem? (h : i < numKeys b) : (leafOf b).entries[i]? = some (entryAt b i) := by
  simp [leafOf, h]

-- ---------------------------------------------------------------------------
-- Accesses inside the page
-- ---------------------------------------------------------------------------

theorem getNumKeys_eq (b : Buffer) : getNumKeys b = some (numKeys b) :=
  readIn_of_le (by decide : 5 + 2 ≤ pageSize) b

theorem getKeyAt_eq (hi : i < leafMaxEntries) (b : Buffer) :
    getKeyAt b i = some (keyOfBytes (load b (15 + i * 14) 8)) := by
  rw [leafMaxEntries_eq] at hi
  have hin : entryOffset i + 8 ≤ pageSize := by
    simp only [entryOffset, pageSize]
    omega
  rw [getKeyAt, readPage, readIn_of_le hin]
  rfl

theorem getRidAt_eq (hi : i < leafMaxEntries) (b : Buffer) :
    getRidAt b i = some ⟨load b (15 + i * 14 + 8) 4, load b (15 + i * 14 + 12) 2⟩ := by
  rw [leafMaxEntries_eq] at hi
  have hpage : entryOffset i + 8 + 4 ≤ pageSize := by
    simp only [entryOffset, pageSize]
    omega
  have hslot : entryOffset i + 8 + 4 + 2 ≤ pageSize := by
    simp only [entryOffset, pageSize]
    omega
  rw [getRidAt]
  simp only [readPage, readIn_of_le hpage, readIn_of_le hslot]
  rfl

/-- The key of an entry, as `get_key_at` reads it. -/
theorem entryAt_key (b : Buffer) (i : Nat) :
    (entryAt b i).1 = (keyOfBytes (load b (15 + i * 14) 8)).toInt := by
  have hload := @load_eq_of_slice b (15 + i * 14) 14 0 8 (by decide)
  rw [Nat.add_zero, List.drop_zero] at hload
  rw [hload, entryAt, entryOfBytes, Rows.row, entryRows]

/-- The handle of an entry, as `get_rid_at` reads it. -/
theorem entryAt_rid (b : Buffer) (i : Nat) :
    (entryAt b i).2 = ⟨load b (15 + i * 14 + 8) 4, load b (15 + i * 14 + 12) 2⟩ := by
  rw [entryAt, entryOfBytes, Rows.row, entryRows, @load_eq_of_slice b (15 + i * 14) 14 8 4 (by decide),
    @load_eq_of_slice b (15 + i * 14) 14 12 2 (by decide)]

@[simp] theorem length_bytesOfEntry (key : Int64) (rid : Rid) : (bytesOfEntry key rid).length = 14 := by
  simp [bytesOfEntry]

/-- An entry that is written can be read back. -/
theorem entryOfBytes_bytesOfEntry (hpage : rid.pageId < 2 ^ 32) (hslot : rid.slotId < 2 ^ 16) :
    entryOfBytes (bytesOfEntry key rid) = (key.toInt, rid) := by
  have hkey : (bytesOfEntry key rid).take 8 = leBytes 8 (bytesOfKey key) := by
    rw [bytesOfEntry, List.append_assoc]
    exact List.take_left' (length_leBytes 8 _)
  have hp : ((bytesOfEntry key rid).drop 8).take 4 = leBytes 4 rid.pageId := by
    rw [bytesOfEntry, List.append_assoc, List.drop_left' (length_leBytes 8 _)]
    exact List.take_left' (length_leBytes 4 _)
  have hs : ((bytesOfEntry key rid).drop 12).take 2 = leBytes 2 rid.slotId := by
    rw [bytesOfEntry, List.drop_left' (by simp)]
    exact List.take_of_length_le (by simp)
  rw [entryOfBytes, hkey, hp, hs, ofLe_leBytes_of_lt (bytesOfKey_lt key), ofLe_leBytes_of_lt hpage,
    ofLe_leBytes_of_lt hslot, keyOfBytes_bytesOfKey]

/-- `set_key_at` and `set_rid_at` together write the bytes of an entry. -/
theorem setEntry_eq (hi : i < leafMaxEntries) (b : Buffer) (key : Int64) (rid : Rid) :
    (setKeyAt b i key).bind (setRidAt · i rid)
      = some (blit b (15 + i * 14) (bytesOfEntry key rid)) := by
  rw [leafMaxEntries_eq] at hi
  have hkey : entryOffset i + 8 ≤ pageSize := by
    simp only [entryOffset, pageSize]
    omega
  have hpage : entryOffset i + 8 + 4 ≤ pageSize := by
    simp only [entryOffset, pageSize]
    omega
  have hslot : entryOffset i + 8 + 4 + 2 ≤ pageSize := by
    simp only [entryOffset, pageSize]
    omega
  rw [setKeyAt, writePage, writeIn_of_le hkey, Option.bind_some, setRidAt]
  simp only [writePage, writeIn_of_le hpage, writeIn_of_le hslot, Option.bind_eq_bind, Option.bind_some]
  have hfirst := blit_append b (15 + i * 14) (leBytes 8 (bytesOfKey key)) (leBytes 4 rid.pageId)
  have hsecond := blit_append b (15 + i * 14) (leBytes 8 (bytesOfKey key) ++ leBytes 4 rid.pageId)
    (leBytes 2 rid.slotId)
  rw [length_leBytes] at hfirst
  rw [List.length_append, length_leBytes, length_leBytes, ← hfirst] at hsecond
  rw [bytesOfEntry, ← hsecond]
  rfl

/-- `copyEntry` copies a row. -/
theorem copies_copyEntry : entryRows.Copies copyEntry leafMaxEntries := by
  intro b i j hi hj hne
  have hrid : ∀ b' : Buffer, setKeyAt b j (keyOfBytes (load b (15 + i * 14) 8)) = some b' →
      getRidAt b' i = getRidAt b i := by
    intro b' hb'
    have hin : entryOffset j + 8 ≤ pageSize := by
      rw [leafMaxEntries_eq] at hj
      simp only [entryOffset, pageSize]
      omega
    rw [setKeyAt, writePage, writeIn_of_le hin] at hb'
    obtain rfl := Option.some.inj hb'
    rw [getRidAt_eq hi, getRidAt_eq hi, load_store_disjoint (by simp only [entryOffset]; omega),
      load_store_disjoint (by simp only [entryOffset]; omega)]
  -- the bytes that are written are those of row `i`
  have hbytes : bytesOfEntry (keyOfBytes (load b (15 + i * 14) 8))
      ⟨load b (15 + i * 14 + 8) 4, load b (15 + i * 14 + 12) 2⟩ = entryRows.row b i := by
    rw [bytesOfEntry, bytesOfKey_keyOfBytes (load_lt b _ 8), leBytes_load, leBytes_load, leBytes_load,
      slice_append, slice_append]
    rfl
  have hset := setEntry_eq hj b (keyOfBytes (load b (15 + i * 14) 8))
    ⟨load b (15 + i * 14 + 8) 4, load b (15 + i * 14 + 12) 2⟩
  rw [hbytes] at hset
  refine ⟨_, ?_, Rows.replaced_blit (length_slice _ _ _)⟩
  rw [copyEntry, getKeyAt_eq hi]
  simp only [Option.bind_eq_bind, Option.bind_some]
  obtain ⟨b', hb', hb''⟩ := Option.bind_eq_some_iff.mp hset
  rw [hb', Option.bind_some, hrid b' hb', getRidAt_eq hi, Option.bind_some]
  exact hb''

-- ---------------------------------------------------------------------------
-- Searching
-- ---------------------------------------------------------------------------

theorem keyIndexLoop_eq (hn : numKeys b ≤ leafMaxEntries) (fuel : Nat) {lo hi : Nat}
    (hhi : hi ≤ numKeys b) :
    keyIndexLoop b key fuel lo hi = some ((leafOf b).keyIndexLoop key.toInt fuel lo hi) := by
  induction fuel generalizing lo hi with
  | zero => rfl
  | succ fuel ih =>
    unfold keyIndexLoop Leaf.keyIndexLoop
    by_cases hlt : lo < hi
    · have hmid : lo + (hi - lo) / 2 < numKeys b := by omega
      have hkey := getKeyAt_eq (Nat.lt_of_lt_of_le hmid hn) b
      simp only [if_pos hlt, hkey, Option.bind_eq_bind, Option.bind_some, leafOf_getElem? hmid,
        entryAt_key, Int64.lt_iff_toInt_lt]
      split
      · exact ih hhi
      · exact ih (by omega)
    · rw [if_neg hlt, if_neg hlt]

theorem keyIndex_eq (hn : numKeys b ≤ leafMaxEntries) (key : Int64) :
    keyIndex b key = some ((leafOf b).keyIndex key.toInt) := by
  rw [keyIndex, getNumKeys_eq]
  simp only [Option.bind_eq_bind, Option.bind_some]
  rw [keyIndexLoop_eq hn _ (Nat.le_refl _), Leaf.keyIndex, leafOf_length]

/-- `lookup` on the bytes is `lookup` on the leaf. -/
theorem lookup_eq (hn : numKeys b ≤ leafMaxEntries) (key : Int64) :
    lookup b key = some ((leafOf b).lookup key.toInt) := by
  rw [lookup, keyIndex_eq hn, getNumKeys_eq, Leaf.lookup]
  simp only [Option.bind_eq_bind, Option.bind_some]
  by_cases hlt : (leafOf b).keyIndex key.toInt < numKeys b
  · rw [if_pos hlt, getKeyAt_eq (by omega), getRidAt_eq (by omega)]
    simp only [Option.bind_some, leafOf_getElem? hlt, entryAt_key, Int64.toInt_inj]
    split
    · rw [entryAt_rid]
    · rfl
  · rw [if_neg hlt, List.getElem?_eq_none (by rw [leafOf_length]; omega)]
    rfl

/-- `key_index` is the number of smaller keys. -/
theorem keyIndex_countP (hs : Sorted (leafOf b).entries) (key : Int) :
    (leafOf b).keyIndex key = (leafOf b).entries.countP (·.1 < key) := by
  obtain ⟨x, y, hxy, hidx, hx, hy⟩ := Leaf.keyIndex_cut hs key
  have hsmaller : x.countP (·.1 < key) = x.length :=
    List.countP_eq_length.mpr fun e he => decide_eq_true (hx e he)
  have hothers : y.countP (·.1 < key) = 0 :=
    List.countP_eq_zero.mpr fun e he => by
      have := hy e he
      simp only [decide_eq_true_eq]
      omega
  rw [hidx, hxy, List.countP_append, hsmaller, hothers, Nat.add_zero]

-- ---------------------------------------------------------------------------
-- Changing the page
-- ---------------------------------------------------------------------------

/-- `set_num_keys` writes no entry. -/
theorem row_setNumKeys (b : Buffer) (v i : Nat) :
    entryRows.row (store b 5 2 v) i = entryRows.row b i :=
  slice_blit_disjoint (.inr (by rw [length_leBytes]; simp only [entryRows]; omega))

theorem setNumKeys_eq (b : Buffer) (n : Nat) : setNumKeys b n = some (store b 5 2 n) :=
  writeIn_of_le (by decide : 5 + 2 ≤ pageSize) b n

theorem numKeys_store (hn : n < 2 ^ 16) (b : Buffer) : numKeys (store b 5 2 n) = n := by
  rw [numKeys, load_store]
  exact Nat.mod_eq_of_lt hn

/-- Changes of entries and of `num_keys` leave the rest of the header. -/
theorem sameHeader_of_kept {lo hi v : Nat} (h : entryRows.Kept b b' lo hi) :
    SameHeader b (store b' 5 2 v) := by
  have hbelow : ∀ a, a < 15 → b' a = b a := fun a ha => h a (.inl (by simp only [entryRows]; omega))
  constructor
  · rw [store, slice_blit_disjoint (.inl (by decide : 0 + 5 ≤ 5))]
    exact slice_congr fun a _ ha => hbelow a (by omega)
  · rw [store, slice_blit_disjoint (.inr (by rw [length_leBytes]))]
    exact slice_congr fun a _ ha => hbelow a (by omega)

/-- The next leaf is a part of the header. -/
theorem SameHeader.nextLeafId (h : SameHeader b b') : (leafOf b').nextLeafId = (leafOf b).nextLeafId := by
  have hload : load b' 11 4 = load b 11 4 := by
    rw [@load_eq_of_slice b' 7 8 4 4 (by decide), @load_eq_of_slice b 7 8 4 4 (by decide), h.2]
  simp only [leafOf, hload]

theorem SameHeader.leafOf (h : SameHeader b b') {entries : List Entry}
    (hentries : (leafOf b').entries = entries) : leafOf b' = { leafOf b with entries } := by
  subst hentries
  have hnext := h.nextLeafId
  show LeafPage.leafOf b' = ⟨(LeafPage.leafOf b).nextLeafId, _⟩
  rw [← hnext]

/-- The last three writes of `insert`: an entry, and the number of entries. -/
theorem setEntry_spec (hi : i < leafMaxEntries) (b : Buffer) (key : Int64) (rid : Rid) :
    ∃ b₁ b₂, setKeyAt b i key = some b₁ ∧ setRidAt b₁ i rid = some b₂ ∧
      entryRows.Replaced b b₂ i (bytesOfEntry key rid) := by
  obtain ⟨b₁, hb₁, hb₂⟩ := Option.bind_eq_some_iff.mp (setEntry_eq hi b key rid)
  exact ⟨b₁, _, hb₁, hb₂, Rows.replaced_blit (length_bytesOfEntry key rid)⟩

theorem insert_of_full (hn : numKeys b ≥ leafMaxEntries) : insert b key rid = some (b, false) := by
  rw [insert, getNumKeys_eq]
  simp only [Option.bind_eq_bind, Option.bind_some]
  rw [if_pos hn]
  rfl

/-- In a page with room, `insert` puts the entry where `key_index` says. -/
theorem insert_of_room (hn : numKeys b < leafMaxEntries) (hs : Sorted (leafOf b).entries)
    (hpage : rid.pageId < 2 ^ 32) (hslot : rid.slotId < 2 ^ 16) :
    ∃ b', insert b key rid = some (b', true) ∧ SameHeader b b' ∧
      (leafOf b).insert key.toInt rid = some (leafOf b') := by
  have hpos : (leafOf b).keyIndex key.toInt ≤ numKeys b := by
    rw [← leafOf_length b]
    exact (Leaf.keyIndex_cutAt hs key.toInt).le
  generalize hidx : (leafOf b).keyIndex key.toInt = pos at hpos
  obtain ⟨b₁, hb₁, hkept, hmoved⟩ := @Rows.shiftUp_spec _ b _ _ _ _ copies_copyEntry hn hpos
  obtain ⟨b₂, b₃, hb₂, hb₃, hrep⟩ := setEntry_spec (Nat.lt_of_le_of_lt hpos hn) b₁ key rid
  have hheader : SameHeader b (store b₃ 5 2 (numKeys b + 1)) :=
    sameHeader_of_kept (hkept.trans hrep.kept (Nat.zero_le _) (Nat.le_refl _)
      (Nat.zero_le _) (Nat.succ_le_succ hpos))
  have hcount : numKeys (store b₃ 5 2 (numKeys b + 1)) = numKeys b + 1 := by
    rw [leafMaxEntries_eq] at hn
    exact numKeys_store (by omega) b₃
  have hentry : ∀ i, entryAt (store b₃ 5 2 (numKeys b + 1)) i = entryAt b₃ i := fun i => by
    rw [entryAt, row_setNumKeys, entryAt]
  have hentries : (leafOf (store b₃ 5 2 (numKeys b + 1))).entries
      = (leafOf b).entries.take pos ++ (key.toInt, rid) :: (leafOf b).entries.drop pos := by
    show (List.range (numKeys (store b₃ 5 2 (numKeys b + 1)))).map _ = _
    rw [hcount]
    refine map_range_insert hpos (fun i hi => ?_) ?_ fun i hi hlt => ?_
    · rw [hentry, entryAt, hrep.row_of_ne (by omega), hkept.row (.inl (by omega)), entryAt]
    · rw [hentry, entryAt, hrep.row, entryOfBytes_bytesOfEntry hpage hslot]
    · rw [hentry, entryAt, hrep.row_of_ne (by omega), hmoved i hi hlt, entryAt]
  refine ⟨store b₃ 5 2 (numKeys b + 1), ?_, hheader, ?_⟩
  · rw [insert, getNumKeys_eq]
    simp only [Option.bind_eq_bind, Option.bind_some]
    rw [if_neg (Nat.not_le.mpr hn), keyIndex_eq (Nat.le_of_lt hn), hidx]
    simp only [Option.bind_some, hb₁, hb₂, hb₃, setNumKeys_eq]
    rfl
  · rw [hheader.leafOf hentries, Leaf.insert, if_neg (by rw [leafOf_length]; omega), hidx]

/-- Where the key is, `remove` closes the gap. -/
theorem remove_of_key (hn : numKeys b ≤ leafMaxEntries) {pos : Nat}
    (hidx : (leafOf b).keyIndex key.toInt = pos) (hpos : pos < numKeys b)
    (hkey : (entryAt b pos).1 = key.toInt) :
    ∃ b', remove b key = some (b', true) ∧ SameHeader b b' ∧
      (leafOf b').entries = (leafOf b).entries.take pos ++ (leafOf b).entries.drop (pos + 1) := by
  obtain ⟨b₁, hb₁, hkept, hmoved⟩ := @Rows.shiftDown_spec _ b pos _ (numKeys b - 1) _
    copies_copyEntry (by omega) (numKeys b) (by omega) (by omega)
  have hheader : SameHeader b (store b₁ 5 2 (numKeys b - 1)) := sameHeader_of_kept hkept
  have hcount : numKeys (store b₁ 5 2 (numKeys b - 1)) = numKeys b - 1 := by
    rw [leafMaxEntries_eq] at hn
    exact numKeys_store (by omega) b₁
  have hentry : ∀ i, entryAt (store b₁ 5 2 (numKeys b - 1)) i = entryAt b₁ i := fun i => by
    rw [entryAt, row_setNumKeys, entryAt]
  refine ⟨store b₁ 5 2 (numKeys b - 1), ?_, hheader, ?_⟩
  · rw [entryAt_key, Int64.toInt_inj] at hkey
    rw [remove, keyIndex_eq hn, getNumKeys_eq]
    simp only [Option.bind_eq_bind, Option.bind_some, hidx]
    rw [if_neg (Nat.not_le.mpr hpos), getKeyAt_eq (by omega)]
    simp only [Option.bind_some, hkey, ne_eq, not_true_eq_false, if_false, hb₁, setNumKeys_eq]
    rfl
  · show (List.range (numKeys (store b₁ 5 2 (numKeys b - 1)))).map _ = _
    rw [hcount]
    refine map_range_erase hpos (fun i hi => ?_) fun i hi hlt => ?_
    · rw [hentry, entryAt, hkept.row (.inl hi), entryAt]
    · rw [hentry, entryAt, hmoved i hi hlt, entryAt]

/-- Where the key is not, `remove` does nothing. -/
theorem remove_of_no_key (hn : numKeys b ≤ leafMaxEntries) {pos : Nat}
    (hidx : (leafOf b).keyIndex key.toInt = pos)
    (hkey : pos < numKeys b → (entryAt b pos).1 ≠ key.toInt) : remove b key = some (b, false) := by
  rw [remove, keyIndex_eq hn, getNumKeys_eq]
  simp only [Option.bind_eq_bind, Option.bind_some, hidx]
  by_cases hpos : pos < numKeys b
  · have hne := hkey hpos
    rw [entryAt_key, ne_eq, Int64.toInt_inj] at hne
    rw [if_neg (Nat.not_le.mpr hpos), getKeyAt_eq (by omega)]
    simp only [Option.bind_some, ne_eq, hne, not_false_eq_true, if_true]
    rfl
  · rw [if_pos (Nat.not_lt.mp hpos)]
    rfl

/-- `remove` on a page is `remove` on its leaf. -/
theorem remove_refines (hn : numKeys b ≤ leafMaxEntries) (hs : Sorted (leafOf b).entries)
    (key : Int64) :
    ∃ b' ok, remove b key = some (b', ok) ∧
      (ok = true ↔ ∃ rid, (key.toInt, rid) ∈ (leafOf b).entries) ∧ SameHeader b b' ∧
      (leafOf b').entries = (leafOf b).entries.filter (·.1 ≠ key.toInt) ∧ (ok = false → b' = b) := by
  have hat : ∀ i < numKeys b, (leafOf b).entries[i]? = some (entryAt b i) := fun i => leafOf_getElem?
  have hlen := leafOf_length b
  by_cases hmem : ∃ rid, (key.toInt, rid) ∈ (leafOf b).entries
  · obtain ⟨rid, hrid⟩ := hmem
    obtain ⟨x, y, hxy, hidx⟩ := Leaf.keyIndex_of_mem hs hrid
    have hpos : x.length < numKeys b := by
      rw [← hlen, hxy, List.length_append, List.length_cons]
      omega
    have hkey : entryAt b x.length = (key.toInt, rid) := by
      have := hat x.length hpos
      rw [hxy, List.getElem?_append_right (Nat.le_refl _), Nat.sub_self, List.getElem?_cons_zero] at this
      exact (Option.some.inj this).symm
    obtain ⟨b', hb', hheader, hentries⟩ := remove_of_key hn hidx hpos (by rw [hkey])
    refine ⟨b', true, hb', ⟨fun _ => ⟨rid, hrid⟩, fun _ => rfl⟩, hheader, ?_, fun h => ?_⟩
    · rw [hentries]
      rw [hxy] at hs ⊢
      rw [hs.filter_ne, List.take_left, ← List.drop_drop, List.drop_left, List.drop_one, List.tail_cons]
    · cases h
  · rw [not_exists] at hmem
    obtain ⟨x, y, hxy, hidx, -, hy⟩ := Leaf.keyIndex_of_not_mem hs hmem
    have hkey : x.length < numKeys b → (entryAt b x.length).1 ≠ key.toInt := by
      intro hpos heq
      have hin := List.mem_of_getElem? (hat _ hpos)
      generalize entryAt b x.length = e at heq hin
      refine hmem e.2 ?_
      rw [← heq]
      exact hin
    refine ⟨b, false, remove_of_no_key hn hidx hkey, ⟨fun h => ?_, fun h => ?_⟩, ⟨rfl, rfl⟩, ?_, fun _ => rfl⟩
    · cases h
    · exact absurd h (not_exists.mpr hmem)
    · symm
      refine List.filter_eq_self.mpr fun e he => decide_eq_true fun heq => hmem e.2 ?_
      rw [← heq]
      exact he

/-- **Leaf page bytes implement a sorted list.** On every page that holds a leaf of at most
`LEAF_MAX_ENTRIES` entries in order, every access is inside the page (no operation gives
`none`), `key_index` counts the smaller keys, and the operations do to the list what their
names say; a refused `insert` or `remove` changes no byte, and none changes the rest of the
header. -/
theorem leafPage_refines (b : Buffer) (hn : numKeys b ≤ leafMaxEntries)
    (hs : Sorted (leafOf b).entries) (key : Int64) (page : UInt32) (slot : UInt16) :
    keyIndex b key = some ((leafOf b).entries.countP (·.1 < key.toInt)) ∧
    (∃ rid, lookup b key = some rid ∧
      (∀ r, (key.toInt, r) ∈ (leafOf b).entries → rid = r) ∧
      ((∀ r, (key.toInt, r) ∉ (leafOf b).entries) → rid = Rid.invalid)) ∧
    ((∀ r, (key.toInt, r) ∉ (leafOf b).entries) →
      ∃ b' ok, insert b key ⟨page.toNat, slot.toNat⟩ = some (b', ok) ∧
        (ok = false ↔ numKeys b = leafMaxEntries) ∧ (ok = false → b' = b) ∧
        (ok = true → SameHeader b b' ∧ ∃ x y, (leafOf b).entries = x ++ y ∧
          (∀ e ∈ x, e.1 < key.toInt) ∧ (∀ e ∈ y, key.toInt < e.1) ∧
          (leafOf b').entries = x ++ (key.toInt, ⟨page.toNat, slot.toNat⟩) :: y)) ∧
    ∃ b' ok, remove b key = some (b', ok) ∧
      (ok = true ↔ ∃ r, (key.toInt, r) ∈ (leafOf b).entries) ∧ SameHeader b b' ∧
      (leafOf b').entries = (leafOf b).entries.filter (·.1 ≠ key.toInt) ∧ (ok = false → b' = b) := by
  refine ⟨?_, ⟨_, lookup_eq hn key, fun r hr => Leaf.lookup_of_mem hs hr, Leaf.lookup_of_not_mem hs⟩,
    fun hmem => ?_, remove_refines hn hs key⟩
  · rw [keyIndex_eq hn, keyIndex_countP hs]
  · obtain hfull | hroom := Nat.eq_or_lt_of_le hn
    · refine ⟨b, false, insert_of_full (Nat.le_of_eq hfull.symm), ⟨fun _ => hfull, fun _ => rfl⟩,
        fun _ => rfl, fun h => ?_⟩
      cases h
    · have hpage : page.toNat < 2 ^ 32 := page.toNat_lt
      have hslot : slot.toNat < 2 ^ 16 := slot.toNat_lt
      obtain ⟨b', hb', hheader, hinsert⟩ :=
        @insert_of_room b key ⟨page.toNat, slot.toNat⟩ hroom hs hpage hslot
      obtain ⟨x, y, hxy, hinsert', hx, hy⟩ :=
        Leaf.insert_of_not_mem hs hmem ⟨page.toNat, slot.toNat⟩ (by rwa [leafOf_length])
      rw [hinsert] at hinsert'
      refine ⟨b', true, hb', ⟨fun h => ?_, fun h => ?_⟩, fun h => ?_,
        fun _ => ⟨hheader, x, y, hxy, hx, hy, ?_⟩⟩
      · cases h
      · exact absurd h (Nat.ne_of_lt hroom)
      · cases h
      · rw [Option.some.inj hinsert']

/-- A page with three entries. -/
def threeEntryPage : Buffer :=
  blit (store (fun _ => 0) 5 2 3) 15
    (bytesOfEntry (-5) ⟨2, 0⟩ ++ bytesOfEntry 7 ⟨3, 1⟩ ++ bytesOfEntry 20 ⟨3, 4⟩)

/-- An insertion before the last entry, and the removal of the second one: entries are shifted. -/
theorem leafPage_threeEntryPage :
    lookup threeEntryPage 7 = some ⟨3, 1⟩ ∧
    (∃ b', insert threeEntryPage 9 ⟨4, 2⟩ = some (b', true) ∧
      (leafOf b').entries = [(-5, ⟨2, 0⟩), (7, ⟨3, 1⟩), (9, ⟨4, 2⟩), (20, ⟨3, 4⟩)]) ∧
    ∃ b', remove threeEntryPage 7 = some (b', true) ∧
      (leafOf b').entries = [(-5, ⟨2, 0⟩), (20, ⟨3, 4⟩)] := by
  have hentries : (leafOf threeEntryPage).entries = [(-5, ⟨2, 0⟩), (7, ⟨3, 1⟩), (20, ⟨3, 4⟩)] := by
    decide
  have hsorted : Sorted (leafOf threeEntryPage).entries := by
    rw [hentries, Sorted]
    decide
  have hkeys : numKeys threeEntryPage ≤ leafMaxEntries := by decide
  obtain ⟨-, ⟨rid, hlookup, hfound, -⟩, -, b', ok, hremove, hok, -, hlist, -⟩ :=
    leafPage_refines threeEntryPage hkeys hsorted 7 0 0
  obtain ⟨-, -, hinsert, -⟩ := leafPage_refines threeEntryPage hkeys hsorted 9 4 2
  have hmem : ((7 : Int64).toInt, (⟨3, 1⟩ : Rid)) ∈ (leafOf threeEntryPage).entries := by
    rw [hentries]
    exact List.mem_cons_of_mem _ List.mem_cons_self
  have hfree : ∀ r, ((9 : Int64).toInt, r) ∉ (leafOf threeEntryPage).entries := by
    intro r hr
    have hkey : (9 : Int64).toInt ∈ (leafOf threeEntryPage).entries.map Prod.fst :=
      List.mem_map_of_mem hr
    rw [hentries] at hkey
    exact absurd hkey (by decide)
  refine ⟨by rw [hlookup, hfound _ hmem], ?_, b', by rw [hremove, hok.mpr ⟨_, hmem⟩], ?_⟩
  · obtain ⟨b₁, ok₁, hinsert, hfull, -, hdone⟩ := hinsert hfree
    have hok₁ : ok₁ = true := by
      rw [← Bool.not_eq_false, hfull]
      decide
    obtain ⟨-, x, y, hxy, hx, hy, hlist₁⟩ := hdone hok₁
    -- the smaller keys stand before the new one, the larger ones behind it
    have hx' : x = (x ++ y).filter (·.1 < (9 : Int64).toInt) := by
      rw [List.filter_append, List.filter_eq_self.mpr fun e he => decide_eq_true (hx e he),
        List.filter_eq_nil_iff.mpr fun e he hlt => Int.lt_asymm (hy e he) (of_decide_eq_true hlt),
        List.append_nil]
    have hy' : y = (x ++ y).filter ((9 : Int64).toInt < ·.1) := by
      rw [List.filter_append, List.filter_eq_self.mpr fun e he => decide_eq_true (hy e he),
        List.filter_eq_nil_iff.mpr fun e he hlt => Int.lt_asymm (hx e he) (of_decide_eq_true hlt),
        List.nil_append]
    rw [← hxy, hentries] at hx' hy'
    refine ⟨b₁, by rw [hok₁] at hinsert; exact hinsert, ?_⟩
    rw [hlist₁, hx', hy']
    decide
  · rw [hlist, hentries]
    decide

end LeafPage

end PersistX.Btree
