import Mathlib.Data.List.Nodup
import Mathlib.Logic.Function.Basic

/-!
# A linked list with a map of positions

`LinkedList α` is a doubly linked list whose nodes have addresses: a position
stays valid until its own node is erased, wherever it moves to in the list.
`next` is an address that no node has. Erasing at a position without a node
fails: the position dangles.

A map from values to positions is an index of the list (`IsIndex`) if it leads
from every value of the list to its own node and has no other keys. Such a
list has no duplicates (`IsIndex.nodup`), and each operation on the list with
the matching update of the map keeps this.
-/

/-- The nodes from front to back, each with its address. -/
structure LinkedList (α : Type) where
  nodes : List (Nat × α) := []
  next : Nat := 0

namespace LinkedList

variable {α : Type}

/-- The values from front to back. -/
def values (l : LinkedList α) : List α := l.nodes.map (·.2)

/-- `push_front`. -/
def pushFront (l : LinkedList α) (a : α) : LinkedList α :=
  { nodes := (l.next, a) :: l.nodes, next := l.next + 1 }

/-- `begin`: the position of the first node. -/
def front? (l : LinkedList α) : Option Nat := l.nodes.head?.map (·.1)

/-- `back`. -/
def back? (l : LinkedList α) : Option α := l.nodes.getLast?.map (·.2)

/-- `pop_back`. -/
def popBack (l : LinkedList α) : LinkedList α := { l with nodes := l.nodes.dropLast }

/-- `erase` at a position; `none`: there is no node at it. -/
def eraseAt (l : LinkedList α) (pos : Nat) : Option (LinkedList α) :=
  if pos ∈ l.nodes.map (·.1) then some { l with nodes := l.nodes.eraseP (·.1 == pos) } else none

/-- No two nodes have one address, and none has the next one. -/
structure WellFormed (l : LinkedList α) : Prop where
  addresses : (l.nodes.map (·.1)).Nodup
  fresh : ∀ n ∈ l.nodes, n.1 < l.next

/-- The map leads from each value to its node, and has no other keys. -/
def IsIndex (l : LinkedList α) (m : α → Option Nat) : Prop :=
  ∀ a pos, m a = some pos ↔ (pos, a) ∈ l.nodes

variable {l l' : LinkedList α} {m : α → Option Nat} {a : α} {pos : Nat}

-- ---------------------------------------------------------------------------
-- What an index says about its list
-- ---------------------------------------------------------------------------

/-- An indexed list has no duplicates. -/
theorem IsIndex.nodup (hm : l.IsIndex m) (h : l.WellFormed) : l.values.Nodup := by
  refine List.Nodup.map_on ?_ (List.Nodup.of_map _ h.addresses)
  rintro ⟨p, a⟩ hp ⟨q, b⟩ hq hab
  obtain rfl : a = b := hab
  have hsame : some p = some q := ((hm a p).mpr hp).symm.trans ((hm a q).mpr hq)
  rw [Option.some.inj hsame]

/-- The keys of the map are the values of the list. -/
theorem IsIndex.mem_values (hm : l.IsIndex m) : a ∈ l.values ↔ ∃ pos, m a = some pos := by
  rw [values, List.mem_map]
  constructor
  · rintro ⟨⟨pos, b⟩, hin, rfl⟩
    exact ⟨pos, (hm b pos).mpr hin⟩
  · rintro ⟨pos, hpos⟩
    exact ⟨(pos, a), (hm a pos).mp hpos, rfl⟩

theorem IsIndex.eq_none (hm : l.IsIndex m) : m a = none ↔ a ∉ l.values := by
  rw [hm.mem_values, Option.eq_none_iff_forall_ne_some]
  exact not_exists.symm

-- ---------------------------------------------------------------------------
-- Lists of nodes
-- ---------------------------------------------------------------------------

/-- There is one node at an address. -/
theorem value_unique {nodes : List (Nat × α)} (h : (nodes.map (·.1)).Nodup) {b : α}
    (ha : (pos, a) ∈ nodes) (hb : (pos, b) ∈ nodes) : a = b := by
  have hsame : (pos, a) = (pos, b) := List.inj_on_of_nodup_map h ha hb rfl
  exact (Prod.mk.inj hsame).2

theorem mem_eraseP_address {nodes : List (Nat × α)} (h : (nodes.map (·.1)).Nodup) {q : Nat} {b : α} :
    (q, b) ∈ nodes.eraseP (·.1 == pos) ↔ (q, b) ∈ nodes ∧ q ≠ pos := by
  induction nodes with
  | nil => simp
  | cons n nodes ih =>
    rw [List.map_cons, List.nodup_cons] at h
    by_cases hn : n.1 = pos
    · rw [List.eraseP_cons_of_pos (by simpa using hn), List.mem_cons]
      constructor
      · intro hin
        refine ⟨.inr hin, fun hq => h.1 ?_⟩
        rw [hn, ← hq]
        exact List.mem_map.mpr ⟨_, hin, rfl⟩
      · rintro ⟨rfl | hin, hq⟩
        · exact absurd hn hq
        · exact hin
    · rw [List.eraseP_cons_of_neg (by simpa using hn), List.mem_cons, List.mem_cons, ih h.2]
      constructor
      · rintro (rfl | ⟨hin, hq⟩)
        · exact ⟨.inl rfl, hn⟩
        · exact ⟨.inr hin, hq⟩
      · rintro ⟨rfl | hin, hq⟩
        · exact .inl rfl
        · exact .inr ⟨hin, hq⟩

/-- Among distinct values, the one at the address is erased. -/
theorem map_eraseP_address [DecidableEq α] {nodes : List (Nat × α)} (h : (nodes.map (·.1)).Nodup)
    (hvalues : (nodes.map (·.2)).Nodup) (hin : (pos, a) ∈ nodes) :
    (nodes.eraseP (·.1 == pos)).map (·.2) = (nodes.map (·.2)).erase a := by
  induction nodes with
  | nil => exact absurd hin List.not_mem_nil
  | cons n nodes ih =>
    rw [List.map_cons, List.nodup_cons] at h hvalues
    by_cases hn : n.1 = pos
    · have hvalue : n.2 = a := by
        obtain rfl | hrest := List.mem_cons.mp hin
        · rfl
        · exact absurd (List.mem_map.mpr ⟨_, hrest, hn.symm⟩) h.1
      rw [List.eraseP_cons_of_pos (by simpa using hn), List.map_cons, hvalue, List.erase_cons_head]
    · have hrest : (pos, a) ∈ nodes := by
        obtain rfl | hrest := List.mem_cons.mp hin
        · exact absurd rfl hn
        · exact hrest
      have hvalue : n.2 ≠ a := fun heq => hvalues.1 (List.mem_map.mpr ⟨_, hrest, heq.symm⟩)
      rw [List.eraseP_cons_of_neg (by simpa using hn), List.map_cons, List.map_cons,
        List.erase_cons_tail (by simpa using hvalue), ih h.2 hvalues.2 hrest]

-- ---------------------------------------------------------------------------
-- The operations
-- ---------------------------------------------------------------------------

theorem WellFormed.pushFront (h : l.WellFormed) (a : α) : (l.pushFront a).WellFormed where
  addresses := by
    refine List.nodup_cons.mpr ⟨fun hin => ?_, h.addresses⟩
    obtain ⟨n, hn, hnext⟩ := List.mem_map.mp hin
    exact absurd hnext (Nat.ne_of_lt (h.fresh n hn))
  fresh n hn := by
    obtain rfl | hn := List.mem_cons.mp hn
    · exact Nat.lt_succ_self _
    · exact Nat.lt_succ_of_lt (h.fresh n hn)

/-- A value at the front, noted with the position of the front. -/
theorem IsIndex.pushFront [DecidableEq α] (hm : l.IsIndex m) (hnone : m a = none) :
    (l.pushFront a).IsIndex (Function.update m a (l.pushFront a).front?) := by
  intro b pos
  have hmem : (pos, b) ∈ (l.pushFront a).nodes ↔ (pos = l.next ∧ b = a) ∨ (pos, b) ∈ l.nodes := by
    show (pos, b) ∈ (l.next, a) :: l.nodes ↔ _
    rw [List.mem_cons, Prod.mk.injEq]
  rw [hmem, ← hm b pos]
  by_cases hb : b = a
  · subst hb
    rw [Function.update_self, hnone]
    show some l.next = some pos ↔ _
    simp [eq_comm]
  · rw [Function.update_of_ne hb]
    simp [hb]

/-- Erasing a value through its position. -/
theorem IsIndex.eraseAt [DecidableEq α] (hm : l.IsIndex m) (h : l.WellFormed) (hpos : m a = some pos) :
    ∃ l', l.eraseAt pos = some l' ∧ l'.WellFormed ∧ l'.IsIndex (Function.update m a none) ∧
      l'.values = l.values.erase a := by
  have hin : (pos, a) ∈ l.nodes := (hm a pos).mp hpos
  have hsublist : (l.nodes.eraseP (·.1 == pos)).Sublist l.nodes := List.eraseP_sublist
  refine ⟨_, if_pos (List.mem_map.mpr ⟨_, hin, rfl⟩),
    ⟨h.addresses.sublist (hsublist.map _), fun n hn => h.fresh n (hsublist.subset hn)⟩,
    fun b q => ?_, ?_⟩
  · show _ ↔ (q, b) ∈ l.nodes.eraseP (·.1 == pos)
    rw [mem_eraseP_address h.addresses]
    by_cases hb : b = a
    · subst hb
      rw [Function.update_self]
      refine ⟨fun hnone => absurd hnone.symm (Option.some_ne_none _), fun hq => ?_⟩
      have hsame : some pos = some q := hpos.symm.trans ((hm b q).mpr hq.1)
      exact absurd (Option.some.inj hsame).symm hq.2
    · rw [Function.update_of_ne hb, hm b q]
      refine ⟨fun hq => ⟨hq, fun hqp => ?_⟩, fun hq => hq.1⟩
      subst hqp
      exact hb (value_unique h.addresses hq hin)
  · exact map_eraseP_address h.addresses (hm.nodup h) hin

theorem WellFormed.popBack (h : l.WellFormed) : l.popBack.WellFormed where
  addresses := by
    have : (l.nodes.dropLast.map (·.1)).Sublist (l.nodes.map (·.1)) := (List.dropLast_sublist _).map _
    exact h.addresses.sublist this
  fresh n hn := h.fresh n (List.dropLast_subset _ hn)

/-- Taking the value at the back. -/
theorem IsIndex.popBack [DecidableEq α] (hm : l.IsIndex m) (h : l.WellFormed) (hback : l.back? = some a) :
    l.popBack.IsIndex (Function.update m a none) := by
  obtain ⟨⟨pos, a'⟩, hlast, rfl⟩ := Option.map_eq_some_iff.mp hback
  have hnodes : l.nodes = l.nodes.dropLast ++ [(pos, a')] := (List.dropLast_append_getLast? _ hlast).symm
  have hnodup := h.addresses
  rw [hnodes, List.map_append, List.nodup_append] at hnodup
  obtain ⟨-, -, hapart⟩ := hnodup
  intro b q
  have hmem : (q, b) ∈ l.nodes ↔ (q, b) ∈ l.popBack.nodes ∨ q = pos ∧ b = a' := by
    rw [hnodes, List.mem_append, List.mem_singleton, Prod.mk.injEq]
    rfl
  by_cases hb : b = a'
  · subst hb
    rw [Function.update_self]
    refine ⟨fun hnone => absurd hnone.symm (Option.some_ne_none _), fun hin => ?_⟩
    have hq : some pos = some q :=
      ((hm b pos).mpr (List.mem_of_getLast? hlast)).symm.trans ((hm b q).mpr (hmem.mpr (.inl hin)))
    obtain rfl := Option.some.inj hq
    exact absurd rfl (hapart pos (List.mem_map.mpr ⟨_, hin, rfl⟩) pos List.mem_cons_self)
  · rw [Function.update_of_ne hb, hm b q, hmem]
    simp [hb]

theorem back?_eq (l : LinkedList α) : l.back? = l.values.getLast? := by
  rw [back?, values, List.getLast?_map]

theorem values_popBack (l : LinkedList α) : l.popBack.values = l.values.dropLast := by
  rw [popBack, values, values, List.map_dropLast]

@[simp] theorem values_pushFront (l : LinkedList α) (a : α) : (l.pushFront a).values = a :: l.values := rfl

end LinkedList
