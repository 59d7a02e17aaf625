import PersistX.Shell.Session
import PersistX.Shell.Correspondence

/-!
# PersistX — the slots of the pages as a key-value store

`Represents c kv` says that the records in the slots are those of the store `kv`, one
for each key that has a value, `[8 bytes key][value]`, and no other. A change of the
record of one key is the change of one entry (`Represents.set`), an index that
corresponds to the slots finds the record (`Represents.lookup`), and the index that
`init_storage` builds from the pages does correspond (`rebuildIndex_iff`).
-/

namespace PersistX

open PageOps

/-- Both halves come back. -/
theorem makeRecord_inj {k k' : Int64} {v v' : Bytes} (h : makeRecord k v = makeRecord k' v') :
    k = k' ∧ v = v' := by
  have hkey := congrArg recordKey h
  have hval := congrArg recordValue h
  rw [recordKey_makeRecord, recordKey_makeRecord] at hkey
  rw [recordValue_makeRecord, recordValue_makeRecord] at hval
  exact ⟨Int64.toInt_inj.mp hkey, hval⟩

/-- One record in the slots for each entry of the store, and no other. -/
structure Represents (c : Contents) (kv : Int64 → Option Bytes) : Prop where
  sound : ∀ p s data, c p s = some data → ∃ k v, data = makeRecord k v ∧ kv k = some v
  complete : ∀ k v, kv k = some v → ∃ r : Rid, c r.pageId r.slotId = some (makeRecord k v)
  unique : ∀ (r r' : Rid) k v v', c r.pageId r.slotId = some (makeRecord k v) →
    c r'.pageId r'.slotId = some (makeRecord k v') → r = r'

theorem Represents.empty : Represents Contents.empty fun _ => none :=
  ⟨fun _ _ _ h => (by cases h), fun _ _ h => (by cases h), fun _ _ _ _ _ h => (by cases h)⟩

/-- The record of key `k` is at `r`, or neither is there. -/
structure HeldAt (c : Contents) (k : Int64) (r : Rid) : Prop where
  slot : ∀ data, c r.pageId r.slotId = some data → ∃ v, data = makeRecord k v
  key : ∀ (r' : Rid) v, c r'.pageId r'.slotId = some (makeRecord k v) → r' = r

variable {c : Contents} {kv : Int64 → Option Bytes} {k : Int64} {r : Rid} {n : Nat} {index : IndexMap}
  {heap : Nat → Page}

/-- **One entry changes.** -/
theorem Represents.set (h : Represents c kv) (hr : HeldAt c k r) (new : Option Bytes) :
    Represents (c.set r.pageId r.slotId (new.map (makeRecord k))) (Store.set kv (k, new)) := by
  have hself : ∀ d, c.set r.pageId r.slotId d r.pageId r.slotId = d := Contents.set_self _ _ _
  have hother : ∀ {q : Rid}, q ≠ r → ∀ d, c.set r.pageId r.slotId d q.pageId q.slotId =
      c q.pageId q.slotId := fun hq d => Contents.set_of_ne c hq d
  refine ⟨fun p s data hd => ?_, fun k' v hv => ?_, fun q q' k' v v' hq hq' => ?_⟩
  · by_cases hps : (⟨p, s⟩ : Rid) = r
    · subst hps
      rw [hself, Option.map_eq_some_iff] at hd
      obtain ⟨v, rfl, rfl⟩ := hd
      exact ⟨k, v, rfl, if_pos rfl⟩
    · rw [hother (q := ⟨p, s⟩) hps] at hd
      obtain ⟨k', v, rfl, hv⟩ := h.sound p s data hd
      refine ⟨k', v, rfl, ?_⟩
      have hne : k' ≠ k := fun hk => hps (hr.key ⟨p, s⟩ v (hk ▸ hd))
      rw [Store.set, if_neg hne, hv]
  · rw [Store.set] at hv
    split at hv
    · rename_i hk
      refine ⟨r, ?_⟩
      rw [hself, hk, show new = some v from hv]
      rfl
    · rename_i hk
      obtain ⟨q, hq⟩ := h.complete k' v hv
      refine ⟨q, ?_⟩
      have hne : q ≠ r := by
        rintro rfl
        obtain ⟨v', hv'⟩ := hr.slot _ hq
        exact hk (makeRecord_inj hv').1
      rw [hother hne, hq]
  · have hkey : ∀ {q : Rid} {w : Bytes}, q ≠ r → c.set r.pageId r.slotId (new.map (makeRecord k))
        q.pageId q.slotId = some (makeRecord k' w) → k' ≠ k ∧ c q.pageId q.slotId = some (makeRecord k' w) := by
      intro q w hne hc
      rw [hother hne] at hc
      exact ⟨fun hk => hne (hr.key q w (hk ▸ hc)), hc⟩
    have hmine : ∀ {w : Bytes}, c.set r.pageId r.slotId (new.map (makeRecord k)) r.pageId r.slotId =
        some (makeRecord k' w) → k' = k := by
      intro w hc
      rw [hself, Option.map_eq_some_iff] at hc
      obtain ⟨_, _, hm⟩ := hc
      exact (makeRecord_inj hm).1.symm
    by_cases h₁ : q = r
    · by_cases h₂ : q' = r
      · rw [h₁, h₂]
      · exact absurd (hmine (h₁ ▸ hq)) (hkey h₂ hq').1
    · by_cases h₂ : q' = r
      · exact absurd (hmine (h₂ ▸ hq')) (hkey h₁ hq).1
      · exact h.unique q q' k' v v' (hkey h₁ hq).2 (hkey h₂ hq').2

-- ---------------------------------------------------------------------------
-- The index
-- ---------------------------------------------------------------------------

/-- The index has the record of a key exactly when the store has a value for it. -/
theorem Represents.lookup (h : Represents c kv) (hi : Corresponds n ⟨c, index⟩) (k : Int64) :
    index k.toInt = none ∧ kv k = none ∨
      ∃ r v, index k.toInt = some r ∧ kv k = some v ∧ c r.pageId r.slotId = some (makeRecord k v) := by
  cases hk : index k.toInt with
  | none =>
    refine .inl ⟨rfl, ?_⟩
    cases hv : kv k with
    | none => rfl
    | some v =>
      obtain ⟨r, hr⟩ := h.complete k v hv
      have := (hi.index k.toInt r).mpr ⟨_, hr, recordKey_makeRecord k v⟩
      rw [show index k.toInt = some r from this] at hk
      cases hk
  | some r =>
    obtain ⟨data, hdata, hkey⟩ := (hi.index k.toInt r).mp hk
    obtain ⟨k', v, rfl, hv⟩ := h.sound _ _ _ hdata
    rw [recordKey_makeRecord] at hkey
    obtain rfl := Int64.toInt_inj.mp hkey
    exact .inr ⟨r, v, rfl, hv, hdata⟩

/-- The slot that the index has for a key. -/
theorem Represents.heldAt_of_index (h : Represents c kv) (hi : Corresponds n ⟨c, index⟩)
    (hk : index k.toInt = some r) : HeldAt c k r := by
  refine ⟨fun data hd => ?_, fun r' v hr' => ?_⟩
  · obtain ⟨data', hd', hkey⟩ := (hi.index k.toInt r).mp hk
    obtain rfl := Option.some.inj (hd.symm.trans hd')
    obtain ⟨k', v, rfl, -⟩ := h.sound _ _ _ hd
    rw [recordKey_makeRecord] at hkey
    exact ⟨v, by rw [Int64.toInt_inj.mp hkey]⟩
  · have := (hi.index k.toInt r').mpr ⟨_, hr', recordKey_makeRecord k v⟩
    exact Option.some.inj (this.symm.trans hk)

/-- A free slot, for a key that is not there. -/
theorem Represents.heldAt_of_free (hi : Corresponds n ⟨c, index⟩) (hk : index k.toInt = none)
    (hfree : c r.pageId r.slotId = none) : HeldAt c k r := by
  refine ⟨fun data hd => ?_, fun r' v hr' => ?_⟩
  · rw [hfree] at hd
    cases hd
  · have := (hi.index k.toInt r').mpr ⟨_, hr', recordKey_makeRecord k v⟩
    rw [show index k.toInt = some r' from this] at hk
    cases hk

-- ---------------------------------------------------------------------------
-- The index that is built anew
-- ---------------------------------------------------------------------------

/-- The records of a list of RIDs, in an index. -/
theorem foldl_indexRid (h : Represents c kv) (hread : ∀ p s, readRecord (heap p) s = c p s)
    (rids : List Rid) (k : Int) (r : Rid) :
    rids.foldl (indexRid heap) (fun _ => none) k = some r ↔
      r ∈ rids ∧ ∃ data, c r.pageId r.slotId = some data ∧ recordKey data = k := by
  induction rids using List.reverseRecOn generalizing k r with
  | nil => exact iff_of_false (Option.some_ne_none r).symm fun hc => absurd hc.1 List.not_mem_nil
  | append_singleton l x ih =>
    rw [List.foldl_append, List.foldl_cons, List.foldl_nil]
    generalize l.foldl (indexRid heap) (fun _ => none) = index at ih
    have hmem : (r ∈ l ++ [x] ∧ ∃ data, c r.pageId r.slotId = some data ∧ recordKey data = k) ↔
        index k = some r ∨ r = x ∧ ∃ data, c x.pageId x.slotId = some data ∧ recordKey data = k := by
      rw [ih, List.mem_append, List.mem_singleton]
      constructor
      · rintro ⟨hr | rfl, hd⟩
        · exact .inl ⟨hr, hd⟩
        · exact .inr ⟨rfl, hd⟩
      · rintro (⟨hr, hd⟩ | ⟨rfl, hd⟩)
        · exact ⟨.inl hr, hd⟩
        · exact ⟨.inr rfl, hd⟩
    rw [hmem, indexRid, hread]
    cases hx : c x.pageId x.slotId with
    | none => exact ⟨.inl, fun hc => hc.resolve_right fun ⟨_, _, hd, _⟩ => by cases hd⟩
    | some data =>
      obtain ⟨k', v, rfl, -⟩ := h.sound _ _ _ hx
      have hlen : ¬ (makeRecord k' v).length < 8 := by
        rw [length_makeRecord]
        omega
      simp only [if_neg hlen, recordKey_makeRecord]
      have hnew : (r = x ∧ ∃ data, some (makeRecord k' v) = some data ∧ recordKey data = k) ↔
          r = x ∧ k'.toInt = k := by
        refine and_congr_right fun _ => ⟨?_, fun hk => ⟨_, rfl, by rw [recordKey_makeRecord, hk]⟩⟩
        rintro ⟨data, hd, hk⟩
        rw [← hk, ← Option.some.inj hd, recordKey_makeRecord]
      -- no other slot has a record of this key
      have hsame : ∀ r', index k'.toInt = some r' → r' = x := by
        intro r' hr'
        obtain ⟨-, data, hd, hkey⟩ := (ih k'.toInt r').mp hr'
        obtain ⟨k'', v', rfl, -⟩ := h.sound _ _ _ hd
        rw [recordKey_makeRecord] at hkey
        obtain rfl := Int64.toInt_inj.mp hkey
        exact h.unique r' x k'' v' v hd hx
      rw [hnew, IndexMap.insert]
      split
      · -- the same slot once more
        rename_i hvalid
        refine ⟨.inl, fun hc => hc.elim id ?_⟩
        rintro ⟨rfl, rfl⟩
        obtain ⟨r', hr', -⟩ := (Option.any_eq_true _ _).mp hvalid
        rw [hr', hsame r' hr']
      · show (if k = k'.toInt then some x else index k) = some r ↔ _
        by_cases hk : k = k'.toInt
        · subst hk
          rw [if_pos rfl]
          exact ⟨fun hc => .inr ⟨(Option.some.inj hc).symm, rfl⟩,
            fun hc => hc.elim (fun hc => by rw [hsame r hc]) fun hc => by rw [hc.1]⟩
        · rw [if_neg hk]
          exact ⟨.inl, fun hc => hc.elim id fun hc => absurd hc.2.symm hk⟩

/-- **The index that `init_storage` builds** has exactly the records of the pages it looks at. -/
theorem rebuildIndex_iff (h : Represents c kv) (hread : ∀ p s, readRecord (heap p) s = c p s)
    {pages : List Nat} (hpages : ∀ p s data, c p s = some data → p ∈ pages) (k : Int) (r : Rid) :
    rebuildIndex heap pages k = some r ↔
      ∃ data, c r.pageId r.slotId = some data ∧ recordKey data = k := by
  rw [rebuildIndex, foldl_indexRid h hread]
  refine ⟨And.right, fun hd => ⟨?_, hd⟩⟩
  obtain ⟨data, hdata, -⟩ := hd
  have hlive : r.slotId < (heap r.pageId).slotCount := by
    by_contra hge
    have hnone : (heap r.pageId).readRecord r.slotId = none :=
      Page.readRecord_of_not_live fun hl => hge hl.1
    have hsome : (heap r.pageId).readRecord r.slotId = some data := (hread _ _).trans hdata
    rw [hnone] at hsome
    cases hsome
  exact List.mem_flatMap.mpr ⟨r.pageId, hpages _ _ _ hdata,
    List.mem_map.mpr ⟨r.slotId, List.mem_range.mpr hlive, rfl⟩⟩

end PersistX
