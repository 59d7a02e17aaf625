import PersistX.Lib.LinkedList
import PersistX.Pool.BufferManager

/-!
# PersistX — the replacer with its two structures

`Replacer` of `replacer.cpp`: `frame_list_` is a linked list of frames, newest
first, `frame_map_` leads from a frame to its position in it. `none` is an
erasure at a position that dangles.

The pool's model has the replacer as a plain list. `Represents` relates both:
the map is an index of the linked list, and the list is its values.

Main result: `Represents.call` — each function of the linked replacer goes
through and does to the values what the one on lists does.
-/

namespace PersistX.Pool.Replacer

/-- `frame_list_` and `frame_map_`. -/
structure Linked where
  frameList : LinkedList Nat := {}
  frameMap : Nat → Option Nat := fun _ => none

namespace Linked

/-- `evict`; without a frame it returns false. -/
def evict (r : Linked) : Option (Nat × Linked) :=
  r.frameList.back?.map fun f =>
    (f, { frameList := r.frameList.popBack, frameMap := Function.update r.frameMap f none })

/-- `record_access`. -/
def recordAccess (r : Linked) (f : Nat) : Option Linked :=
  match r.frameMap f with
  | none => some r
  | some pos => do
    let frameList ← r.frameList.eraseAt pos
    let frameList := frameList.pushFront f
    return { frameList, frameMap := Function.update r.frameMap f frameList.front? }

/-- `remove_from_replacer`. -/
def remove (r : Linked) (f : Nat) : Option Linked :=
  match r.frameMap f with
  | none => some r
  | some pos => do
    let frameList ← r.frameList.eraseAt pos
    return { frameList, frameMap := Function.update r.frameMap f none }

/-- `set_evictable`. Its second half is `remove_from_replacer` once more. -/
def setEvictable (r : Linked) (f : Nat) (evictable : Bool) : Option Linked :=
  if evictable then
    if r.frameMap f = none then
      let frameList := r.frameList.pushFront f
      some { frameList, frameMap := Function.update r.frameMap f frameList.front? }
    else some r
  else r.remove f

end Linked

/-- A call of the replacer. -/
inductive Call
  | evict
  | recordAccess (f : Nat)
  | setEvictable (f : Nat) (evictable : Bool)
  | remove (f : Nat)

/-- What a call does to the linked replacer. An `evict` without a frame leaves it as it is. -/
def Linked.call (r : Linked) : Call → Option Linked
  | .evict => some ((r.evict.map (·.2)).getD r)
  | .recordAccess f => r.recordAccess f
  | .setEvictable f evictable => r.setEvictable f evictable
  | .remove f => r.remove f

/-- What a call does to the list of the pool's model. -/
def call (l : List Nat) : Call → List Nat
  | .evict => ((Replacer.evict l).map (·.2)).getD l
  | .recordAccess f => Replacer.recordAccess l f
  | .setEvictable f evictable => Replacer.setEvictable l f evictable
  | .remove f => Replacer.remove l f

-- ---------------------------------------------------------------------------
-- The linked replacer and the list
-- ---------------------------------------------------------------------------

/-- `frame_list_` has these frames, no address twice, and `frame_map_` has exactly them as
keys, each with its own position. -/
structure Represents (r : Linked) (l : List Nat) : Prop where
  wellFormed : r.frameList.WellFormed
  index : r.frameList.IsIndex r.frameMap
  values : r.frameList.values = l

variable {r : Linked} {l : List Nat} {f : Nat}

theorem Represents.mem (h : Represents r l) : f ∈ l ↔ ∃ pos, r.frameMap f = some pos :=
  h.values ▸ h.index.mem_values

theorem Represents.frameMap_eq_none (h : Represents r l) : r.frameMap f = none ↔ f ∉ l :=
  h.values ▸ h.index.eq_none

/-- The frame that `evict` gives, and the replacer behind it. -/
theorem Represents.evict (h : Represents r l) :
    (r.evict = none ∧ Replacer.evict l = none) ∨
      ∃ f r' l', r.evict = some (f, r') ∧ Replacer.evict l = some (f, l') ∧ Represents r' l' := by
  unfold Linked.evict Replacer.evict
  rw [LinkedList.back?_eq, h.values]
  cases hlast : l.getLast? with
  | none => exact .inl ⟨rfl, rfl⟩
  | some f =>
    refine .inr ⟨f, _, _, rfl, rfl, h.wellFormed.popBack, h.index.popBack h.wellFormed ?_, ?_⟩
    · rw [LinkedList.back?_eq, h.values, hlast]
    · rw [LinkedList.values_popBack, h.values]

/-- Erase a frame through `frame_map_`. -/
theorem Represents.erase (h : Represents r l) {pos : Nat} (hpos : r.frameMap f = some pos) :
    ∃ frameList, r.frameList.eraseAt pos = some frameList ∧
      Represents { frameList, frameMap := Function.update r.frameMap f none } (l.erase f) := by
  obtain ⟨frameList, herase, hwf, hindex, hvalues⟩ := h.index.eraseAt h.wellFormed hpos
  exact ⟨frameList, herase, hwf, hindex, by rw [hvalues, h.values]⟩

/-- Put a frame at the front. -/
theorem Represents.pushFront (h : Represents r l) (hnone : r.frameMap f = none) :
    Represents { frameList := r.frameList.pushFront f
                 frameMap := Function.update r.frameMap f (r.frameList.pushFront f).front? }
      (f :: l) where
  wellFormed := h.wellFormed.pushFront f
  index := h.index.pushFront hnone
  values := by rw [LinkedList.values_pushFront, h.values]

theorem Represents.recordAccess (h : Represents r l) (f : Nat) :
    ∃ r', r.recordAccess f = some r' ∧ Represents r' (Replacer.recordAccess l f) := by
  unfold Linked.recordAccess Replacer.recordAccess
  cases hpos : r.frameMap f with
  | none =>
    rw [if_neg (h.frameMap_eq_none.mp hpos)]
    exact ⟨r, rfl, h⟩
  | some pos =>
    obtain ⟨frameList, herase, herased⟩ := h.erase hpos
    rw [if_pos (h.mem.mpr ⟨pos, hpos⟩)]
    refine ⟨_, by simp only [herase, Option.bind_eq_bind, Option.bind_some]; rfl, ?_⟩
    -- the entry of the frame is overwritten, not erased first
    have hpushed := herased.pushFront (Function.update_self f none r.frameMap)
    simp only [Function.update_idem] at hpushed
    exact hpushed

theorem Represents.remove (h : Represents r l) (f : Nat) :
    ∃ r', r.remove f = some r' ∧ Represents r' (Replacer.remove l f) := by
  unfold Linked.remove Replacer.remove
  cases hpos : r.frameMap f with
  | none =>
    rw [List.erase_of_not_mem (h.frameMap_eq_none.mp hpos)]
    exact ⟨r, rfl, h⟩
  | some pos =>
    obtain ⟨frameList, herase, herased⟩ := h.erase hpos
    exact ⟨_, by simp only [herase, Option.bind_eq_bind, Option.bind_some]; rfl, herased⟩

theorem Represents.setEvictable (h : Represents r l) (f : Nat) (evictable : Bool) :
    ∃ r', r.setEvictable f evictable = some r' ∧
      Represents r' (Replacer.setEvictable l f evictable) := by
  unfold Linked.setEvictable Replacer.setEvictable
  cases evictable with
  | false => exact h.remove f
  | true =>
    simp only [if_true]
    by_cases hnone : r.frameMap f = none
    · rw [if_pos hnone, if_neg (h.frameMap_eq_none.mp hnone)]
      exact ⟨_, rfl, h.pushFront hnone⟩
    · have hin : f ∈ l := by
        by_contra hnot
        exact hnone (h.frameMap_eq_none.mpr hnot)
      rw [if_neg hnone, if_pos hin]
      exact ⟨r, rfl, h⟩

/-- **Each function of the replacer** goes through, and does to its frames what the function
on lists does. -/
theorem Represents.call (h : Represents r l) (c : Call) :
    ∃ r', r.call c = some r' ∧ Represents r' (Replacer.call l c) := by
  cases c with
  | evict =>
    unfold Linked.call Replacer.call
    obtain ⟨hnone, hnone'⟩ | ⟨f, r', l', hsome, hsome', hrep⟩ := h.evict
    · rw [hnone, hnone']
      exact ⟨r, rfl, h⟩
    · rw [hsome, hsome']
      exact ⟨r', rfl, hrep⟩
  | recordAccess f => exact h.recordAccess f
  | setEvictable f evictable => exact h.setEvictable f evictable
  | remove f => exact h.remove f

/-- **Any sequence of calls** goes through. -/
theorem Represents.calls (h : Represents r l) (cs : List Call) :
    ∃ r', cs.foldlM Linked.call r = some r' ∧ Represents r' (cs.foldl Replacer.call l) := by
  induction cs generalizing r l with
  | nil => exact ⟨r, rfl, h⟩
  | cons c cs ih =>
    obtain ⟨r₁, hcall, h₁⟩ := h.call c
    obtain ⟨r', hcalls, h'⟩ := ih h₁
    refine ⟨r', ?_, h'⟩
    rw [List.foldlM_cons, hcall]
    exact hcalls

end PersistX.Pool.Replacer
