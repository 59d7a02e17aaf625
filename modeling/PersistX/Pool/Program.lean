import PersistX.Pool.Transparency
import Mathlib.Data.List.Perm.Subperm

/-!
# PersistX — programs over the buffer pool

A `Program` is code that calls the buffer manager: it fetches and allocates
pages, reads and writes through the `Page*` it got, and unpins. It runs on a
pool (`runPool`), and on a plain map from page ids to pages that never evicts
(`runMap`).

`Tidy` is the discipline under which the two cannot be told apart. It looks at
the program alone, whatever the pages hold: never more than `cap` pins at a
time, every `Page*` is used under its pin only, and a page that was written or
is new is unpinned as dirty.

Main result: `tidy_runs` — a tidy program on a pool of at least `cap` frames
does what it does on the map, and no call is refused, as long as there are page
ids for what it allocates.
-/

namespace PersistX.Pool

open PageOps Transition

variable {P α β : Type}

/-- Code that calls the buffer manager. The `Page*` variables of a run are
numbered in the order in which calls fill them; a call gives `none` for
`nullptr`. -/
inductive Program (P α : Type) where
  | done (a : α)
  /-- A failed assertion. -/
  | fail
  | fetchPage (p : PageId) (k : Option Nat → Program P α)
  /-- Gives the new page id with the pointer. -/
  | newPage (k : Option (Nat × Nat) → Program P α)
  | read (ptr : Nat) (k : P → Program P α)
  | write (ptr : Nat) (x : P) (k : Program P α)
  | unpinPage (p : PageId) (isDirty : Bool) (k : Program P α)

namespace Program

/-- One program after the other. -/
def bind : Program P α → (α → Program P β) → Program P β
  | .done a, f => f a
  | .fail, _ => .fail
  | .fetchPage p k, f => .fetchPage p fun r => (k r).bind f
  | .newPage k, f => .newPage fun r => (k r).bind f
  | .read ptr k, f => .read ptr fun x => (k x).bind f
  | .write ptr x k, f => .write ptr x (k.bind f)
  | .unpinPage p d k, f => .unpinPage p d (k.bind f)

instance : Monad (Program P) where
  pure := .done
  bind := .bind

/-- `fetch_page` with the assertion that it gives a page. -/
def fetch (p : PageId) : Program P Nat := .fetchPage p fun r => r.elim .fail .done

/-- `new_page` with the assertion that it gives a page. -/
def alloc : Program P (Nat × Nat) := .newPage fun r => r.elim .fail .done

/-- Read the page behind a pointer. -/
def load (ptr : Nat) : Program P P := .read ptr .done

/-- Write the page behind a pointer. -/
def store (ptr : Nat) (x : P) : Program P Unit := .write ptr x (.done ())

/-- `unpin_page`, whose result the callers do not look at. -/
def unpin (p : PageId) (isDirty : Bool) : Program P Unit := .unpinPage p isDirty (.done ())

-- ---------------------------------------------------------------------------
-- Two machines
-- ---------------------------------------------------------------------------

/-- A run on a pool: the frames behind the `Page*` variables, and whether a call
has given `nullptr`. -/
structure PoolState (P : Type) where
  bm : BufferManager P
  pointers : List Nat
  refused : Bool

/-- Run on a pool; `none`: an assertion failed. -/
def runPool [PageOps P] : Program P α → PoolState P → Option (α × PoolState P)
  | .done a, s => some (a, s)
  | .fail, _ => none
  | .fetchPage p k, s =>
    match s.bm.fetchPage p with
    | (bm, some f) => (k (some s.pointers.length)).runPool { s with bm, pointers := s.pointers ++ [f] }
    | (bm, none) => (k none).runPool { s with bm, refused := true }
  | .newPage k, s =>
    match s.bm.newPage with
    | (bm, some (some p, f)) =>
      (k (some (p, s.pointers.length))).runPool { s with bm, pointers := s.pointers ++ [f] }
    | (bm, _) => (k none).runPool { s with bm, refused := true }
  | .read ptr k, s => s.pointers[ptr]?.bind fun f => (k (s.bm.frames f).page).runPool s
  | .write ptr x k, s => s.pointers[ptr]?.bind fun f =>
    k.runPool { s with bm := s.bm.setFrame f { s.bm.frames f with page := x } }
  | .unpinPage p d k, s => k.runPool { s with bm := (s.bm.unpinPage p d).1 }

/-- A run on a map that holds every allocated page: the pages behind the `Page*` variables. -/
structure MapState (P : Type) where
  mem : Nat → P
  nextPageId : Nat
  pointers : List Nat

/-- Run on a map; `none`: an assertion failed, or a page was fetched that is not allocated. -/
def runMap [PageOps P] : Program P α → MapState P → Option (α × MapState P)
  | .done a, s => some (a, s)
  | .fail, _ => none
  | .fetchPage none _, _ => none
  | .fetchPage (some p) k, s =>
    if p < s.nextPageId then
      (k (some s.pointers.length)).runMap { s with pointers := s.pointers ++ [p] }
    else none
  | .newPage k, s =>
    (k (some (s.nextPageId, s.pointers.length))).runMap
      { mem := Function.update s.mem s.nextPageId (init s.nextPageId)
        nextPageId := s.nextPageId + 1
        pointers := s.pointers ++ [s.nextPageId] }
  | .read ptr k, s => s.pointers[ptr]?.bind fun p => (k (s.mem p)).runMap s
  | .write ptr x k, s => s.pointers[ptr]?.bind fun p =>
    k.runMap { s with mem := Function.update s.mem p x }
  | .unpinPage _ _ k, s => k.runMap s

theorem runMap_bind [PageOps P] (m : Program P α) (f : α → Program P β) (s : MapState P) :
    (m >>= f).runMap s = (m.runMap s).bind fun r => (f r.1).runMap r.2 := by
  show (m.bind f).runMap s = _
  induction m generalizing s with
  | done a => rfl
  | fail => rfl
  | fetchPage p k ih =>
    cases p with
    | none => rfl
    | some p =>
      simp only [bind, runMap]
      split
      · exact ih _ _
      · rfl
  | newPage k ih => exact ih _ _
  | read ptr k ih =>
    simp only [bind, runMap]
    cases s.pointers[ptr]? with
    | none => rfl
    | some p => exact ih _ _
  | write ptr x k ih =>
    simp only [bind, runMap]
    cases s.pointers[ptr]? with
    | none => rfl
    | some p => exact ih _
  | unpinPage p d k ih => exact ih _

/-- Pages are only added to the map. -/
theorem nextPageId_le_of_runMap [PageOps P] {m : Program P α} {s s' : MapState P} {a : α}
    (h : m.runMap s = some (a, s')) : s.nextPageId ≤ s'.nextPageId := by
  induction m generalizing s with
  | done b =>
    obtain ⟨-, rfl⟩ := Prod.mk.inj (Option.some.inj h)
    exact Nat.le_refl _
  | fail => cases h
  | fetchPage p k ih =>
    cases p with
    | none => cases h
    | some p =>
      rw [runMap, Option.ite_none_right_eq_some] at h
      have hle := ih _ h.2
      exact hle
  | newPage k ih =>
    have hle := ih _ h
    exact Nat.le_of_succ_le hle
  | read ptr k ih =>
    obtain ⟨p, -, h⟩ := Option.bind_eq_some_iff.mp h
    exact ih _ h
  | write ptr x k ih =>
    obtain ⟨p, -, h⟩ := Option.bind_eq_some_iff.mp h
    have hle := ih h
    exact hle
  | unpinPage p d k ih => exact ih h

-- ---------------------------------------------------------------------------
-- The discipline
-- ---------------------------------------------------------------------------

/-- A pin that the program holds. -/
structure Held where
  ptr : Nat
  page : Nat
  wrote : Bool
  /-- The page is from `new_page`. -/
  fresh : Bool
  deriving DecidableEq

/-- The program keeps the rules and ends with `Q`, when it has used `n` pointers
so far and holds these pins, whatever the pages hold. -/
def Tidy (cap : Nat) (Q : Nat → List Held → α → Prop) : Program P α → Nat → List Held → Prop
  | .done a, n, held => Q n held a
  | .fail, _, _ => True
  | .fetchPage none _, _, _ => True
  | .fetchPage (some p) k, n, held =>
    held.length < cap ∧ Tidy cap Q (k (some n)) (n + 1) (⟨n, p, false, false⟩ :: held)
  | .newPage k, n, held =>
    held.length < cap ∧ ∀ p, Tidy cap Q (k (some (p, n))) (n + 1) (⟨n, p, false, true⟩ :: held)
  | .read ptr k, n, held => (∃ h ∈ held, h.ptr = ptr) ∧ ∀ x, Tidy cap Q (k x) n held
  | .write ptr _ k, n, held =>
    ∃ h ∈ held, h.ptr = ptr ∧ Tidy cap Q k n ({ h with wrote := true } :: held.erase h)
  | .unpinPage p d k, n, held =>
    ∃ h ∈ held, p = some h.page ∧
      (h.wrote = true ∨ (∃ g ∈ held, g.page = h.page ∧ g.fresh = true) → d = true) ∧
      Tidy cap Q k n (held.erase h)

theorem Tidy.bind {cap : Nat} {Q : Nat → List Held → β → Prop} {R : Nat → List Held → α → Prop}
    {m : Program P α} {f : α → Program P β} {n : Nat} {held : List Held} (h : Tidy cap R m n held)
    (hf : ∀ n held a, R n held a → Tidy cap Q (f a) n held) : Tidy cap Q (m >>= f) n held := by
  show Tidy cap Q (m.bind f) n held
  induction m generalizing n held with
  | done a => exact hf n held a h
  | fail => trivial
  | fetchPage p k ih =>
    cases p with
    | none => trivial
    | some p => exact ⟨h.1, ih _ h.2⟩
  | newPage k ih => exact ⟨h.1, fun p => ih _ (h.2 p)⟩
  | read ptr k ih => exact ⟨h.1, fun x => ih _ (h.2 x)⟩
  | write ptr x k ih =>
    obtain ⟨g, hg, hp, h⟩ := h
    exact ⟨g, hg, hp, ih h⟩
  | unpinPage p d k ih =>
    obtain ⟨g, hg, hp, hd, h⟩ := h
    exact ⟨g, hg, hp, hd, ih h⟩

-- Rules ------------------------------------------------------------------------

section Rules

variable {cap : Nat} {Q : Nat → List Held → β → Prop} {n : Nat} {held : List Held} {h : Held}

theorem Tidy.fetch {k : Nat → Program P β} {p : Nat} (hlt : held.length < cap)
    (hk : Tidy cap Q (k n) (n + 1) (⟨n, p, false, false⟩ :: held)) :
    Tidy cap Q (Program.fetch (some p) >>= k) n held := ⟨hlt, hk⟩

theorem Tidy.alloc {k : Nat × Nat → Program P β} (hlt : held.length < cap)
    (hk : ∀ p, Tidy cap Q (k (p, n)) (n + 1) (⟨n, p, false, true⟩ :: held)) :
    Tidy cap Q (Program.alloc >>= k) n held := ⟨hlt, hk⟩

/-- A page that may have changed. -/
theorem Tidy.unpin_dirty {k : Unit → Program P β}
    (hk : Tidy cap Q (k ()) n held) : Tidy cap Q (Program.unpin (some h.page) true >>= k) n (h :: held) := by
  refine ⟨h, List.mem_cons_self, rfl, fun _ => rfl, ?_⟩
  rw [List.erase_cons_head]
  exact hk

/-- A page that was only read, when nothing else is pinned. -/
theorem Tidy.unpin_clean {k : Unit → Program P β} {ptr p : Nat}
    (hk : Tidy cap Q (k ()) n []) :
    Tidy cap Q (Program.unpin (some p) false >>= k) n [⟨ptr, p, false, false⟩] := by
  refine ⟨_, List.mem_cons_self, rfl, ?_, ?_⟩
  · rintro (hw | ⟨g, hg, -, hfresh⟩)
    · cases hw
    · rw [List.mem_singleton.mp hg] at hfresh
      cases hfresh
  · rw [List.erase_cons_head]
    exact hk

/-- The program fails when there is no value. -/
def ofOption (o : Option α) : Program P α := o.elim .fail .done

theorem Tidy.ofOption {o : Option α} {k : α → Program P β}
    (hk : ∀ a, Tidy cap Q (k a) n held) : Tidy cap Q (Program.ofOption o >>= k) n held := by
  cases o with
  | none => trivial
  | some a => exact hk a

end Rules

-- Programs that give back what they pin ------------------------------------------

section Balanced

variable {cap frames : Nat}

/-- On a pool of `cap` frames the program needs this many besides those its caller has
pinned, and it ends with the pins it began with. -/
def Balanced (cap frames : Nat) (m : Program P α) : Prop :=
  ∀ n held, held.length + frames ≤ cap → Tidy cap (fun _ held' _ => held' = held) m n held

theorem Balanced.pure (a : α) : Balanced cap frames (Pure.pure a : Program P α) :=
  fun _ _ _ => rfl

theorem Balanced.bind {m : Program P α} {f : α → Program P β} (hm : Balanced cap frames m)
    (hf : ∀ a, Balanced cap frames (f a)) : Balanced cap frames (m >>= f) := by
  intro n held hlen
  refine (hm n held hlen).bind fun n' held' a heq => ?_
  rw [heq]
  exact hf a n' held hlen

/-- A part that holds nothing else when it runs. -/
theorem Balanced.then {m : Program P α} {f : α → Program P β} {Q : Nat → List Held → β → Prop}
    {n : Nat} {held : List Held} (hm : Balanced cap frames m) (hlen : held.length + frames ≤ cap)
    (hf : ∀ n a, Tidy cap Q (f a) n held) : Tidy cap Q (m >>= f) n held := by
  refine (hm n held hlen).bind fun n' held' a heq => ?_
  rw [heq]
  exact hf n' a

end Balanced

-- Runs on the map ----------------------------------------------------------------

section Runs

variable [PageOps P] {s : MapState P}

@[simp] theorem runMap_pure (a : α) : (pure a : Program P α).runMap s = some (a, s) := rfl

@[simp] theorem runMap_alloc : (alloc : Program P (Nat × Nat)).runMap s =
    some ((s.nextPageId, s.pointers.length),
      { mem := Function.update s.mem s.nextPageId (init s.nextPageId)
        nextPageId := s.nextPageId + 1
        pointers := s.pointers ++ [s.nextPageId] }) := rfl

theorem runMap_load {ptr p : Nat} (h : s.pointers[ptr]? = some p) :
    (load ptr).runMap s = some (s.mem p, s) := by
  rw [load, runMap, h]
  rfl

theorem runMap_store {ptr p : Nat} {x : P} (h : s.pointers[ptr]? = some p) :
    (store ptr x).runMap s = some ((), { s with mem := Function.update s.mem p x }) := by
  rw [store, runMap, h]
  rfl

@[simp] theorem runMap_unpin (p : PageId) (d : Bool) :
    (unpin p d : Program P Unit).runMap s = some ((), s) := rfl

@[simp] theorem runMap_ofOption (o : Option α) :
    (ofOption o : Program P α).runMap s = o.map fun a => (a, s) := by
  cases o <;> rfl

end Runs

-- ---------------------------------------------------------------------------
-- The two machines side by side
-- ---------------------------------------------------------------------------

/-- The pin in the pool, with the frames behind the pointers. -/
def Held.pin (pointers : List Nat) (h : Held) : Pin := ⟨h.page, pointers[h.ptr]?.getD 0, h.wrote⟩

/-- A run on a pool and a run on a map that have come to the same point, with the
session of the pool's only client. -/
structure Agree (n : Nat) (held : List Held) (ps : PoolState P) (ms : MapState P)
    (s : Session P) : Prop where
  inv : s.Inv
  bm : s.bm = ps.bm
  mem : s.mem = ms.mem
  next : s.bm.nextPageId = ms.nextPageId
  pool : ps.pointers.length = n
  map : ms.pointers.length = n
  pins : s.pins.Perm (held.map (Held.pin ps.pointers))
  behind : ∀ h ∈ held, ms.pointers[h.ptr]? = some h.page
  fresh : ∀ p ∈ s.fresh, ∃ h ∈ held, h.page = p ∧ h.fresh = true

variable {n : Nat} {held : List Held} {ps : PoolState P} {ms : MapState P} {s : Session P}
  {h : Held}

theorem Agree.ptr_lt (ha : Agree n held ps ms s) (hh : h ∈ held) : h.ptr < n := by
  rw [← ha.map]
  exact (List.getElem?_eq_some_iff.mp (ha.behind h hh)).1

/-- The frame behind a pointer that is pinned. -/
theorem Agree.frame (ha : Agree n held ps ms s) (hh : h ∈ held) :
    ps.pointers[h.ptr]? = some (h.pin ps.pointers).frame := by
  have hlt := ha.ptr_lt hh
  rw [← ha.pool] at hlt
  rw [Held.pin, List.getElem?_eq_getElem hlt]
  rfl

theorem Agree.pin_mem (ha : Agree n held ps ms s) (hh : h ∈ held) :
    h.pin ps.pointers ∈ s.pins :=
  ha.pins.mem_iff.mpr (List.mem_map_of_mem hh)

/-- One pin less. -/
theorem Agree.pins_erase (ha : Agree n held ps ms s) (hh : h ∈ held) :
    (s.pins.erase (h.pin ps.pointers)).Perm ((held.erase h).map (Held.pin ps.pointers)) := by
  refine List.Perm.cons_inv (a := h.pin ps.pointers) ?_
  refine ((List.perm_cons_erase (ha.pin_mem hh)).symm.trans ha.pins).trans ?_
  exact (List.perm_cons_erase hh).map _

/-- Pins keep their frames when one more pointer is filled. -/
theorem Agree.pins_append (ha : Agree n held ps ms s) (f : Nat) :
    held.map (Held.pin (ps.pointers ++ [f])) = held.map (Held.pin ps.pointers) := by
  refine List.map_congr_left fun h hh => ?_
  have hlt := ha.ptr_lt hh
  rw [← ha.pool] at hlt
  rw [Held.pin, Held.pin, List.getElem?_append_left hlt]

/-- The pointers of a run get one more. -/
theorem Agree.held_append (ha : Agree n held ps ms s) (p : Nat) {fresh : Bool} :
    ∀ h ∈ ⟨n, p, false, fresh⟩ :: held, (ms.pointers ++ [p])[h.ptr]? = some h.page := by
  intro h hh
  rcases List.mem_cons.mp hh with rfl | hh
  · rw [List.getElem?_append_right (Nat.le_of_eq ha.map), ha.map, Nat.sub_self]
    rfl
  · rw [List.getElem?_append_left (by rw [ha.map]; exact ha.ptr_lt hh)]
    exact ha.behind h hh

theorem Agree.newPin (ha : Agree n held ps ms s) (p f : Nat) (fresh : Bool) :
    Held.pin (ps.pointers ++ [f]) ⟨n, p, false, fresh⟩ = ⟨p, f, false⟩ := by
  rw [Held.pin, List.getElem?_append_right (Nat.le_of_eq ha.pool), ha.pool, Nat.sub_self]
  rfl

section Calls

variable [PageOps P]

/-- With a frame that nobody has pinned, no call is refused. -/
theorem Agree.takeFrame_ne_none (ha : Agree n held ps ms s)
    (hlt : held.length < s.bm.poolSize) : s.bm.takeFrame ≠ none := by
  intro ht
  have hsub : List.range s.bm.poolSize ⊆ s.pins.map Pin.frame := by
    intro f hf
    obtain ⟨pin, hpin, hframe⟩ := ha.inv.pinned_of_takeFrame ht (List.mem_range.mp hf)
    exact List.mem_map.mpr ⟨pin, hpin, hframe⟩
  have hle := (List.subperm_of_subset List.nodup_range hsub).length_le
  rw [List.length_range, List.length_map, ha.pins.length_eq, List.length_map] at hle
  omega

omit [PageOps P] in
/-- A page has at most the pins that are held. -/
theorem Agree.pinsLeft (ha : Agree n held ps ms s) (hpins : held.length + 1 < 2 ^ 31) (p : PageId) :
    s.bm.PinsLeft p := by
  intro f hf
  obtain ⟨hlt, hnfree, -⟩ := ha.inv.consistent.table p f hf
  have hcount := ha.inv.pinCount f hlt hnfree
  have hle : s.pins.countP (·.frame == f) ≤ s.pins.length := List.countP_le_length
  rw [ha.pins.length_eq, List.length_map] at hle
  omega

theorem Agree.fetchPage (ha : Agree n held ps ms s) {p : Nat} (hp : p < ms.nextPageId)
    (hlt : held.length < s.bm.poolSize) (hpins : held.length + 1 < 2 ^ 31) :
    ∃ bm f, ps.bm.fetchPage (some p) = (bm, some f) ∧ s.Allowed (.fetchPage p) ∧
      s.step (.fetchPage p) = some { s with bm, pins := ⟨p, f, false⟩ :: s.pins } ∧
      bm.poolSize = s.bm.poolSize ∧
      Agree (n + 1) (⟨n, p, false, false⟩ :: held)
        { ps with bm, pointers := ps.pointers ++ [f] }
        { ms with pointers := ms.pointers ++ [p] }
        { s with bm, pins := ⟨p, f, false⟩ :: s.pins } := by
  obtain ⟨bm, f, hf, hsize, hnext⟩ : ∃ bm f, s.bm.fetchPage (some p) = (bm, some f) ∧
      bm.poolSize = s.bm.poolSize ∧ bm.nextPageId = s.bm.nextPageId := by
    cases hres : s.bm.pageTable (some p) with
    | some f =>
      obtain ⟨r, hr⟩ := Session.fetchPage_eq hres
      exact ⟨_, f, hr, rfl, rfl⟩
    | none =>
      obtain ⟨⟨bm, f⟩, ht⟩ := Option.ne_none_iff_exists'.mp (ha.takeFrame_ne_none hlt)
      have hsize := BufferManager.takeFrame_poolSize ht
      have hnext := BufferManager.takeFrame_nextPageId ht
      have hf : s.bm.fetchPage (some p) = (bm.install f (some p) (bm.disk (some p)), some f) := by
        unfold BufferManager.fetchPage
        rw [hres, ht]
      exact ⟨_, f, hf, hsize, hnext⟩
  have hstep : s.step (.fetchPage p) = some { s with bm, pins := ⟨p, f, false⟩ :: s.pins } := by
    simp only [Session.step, hf]
  have hok : s.Allowed (.fetchPage p) := ⟨by rw [ha.next]; exact hp, ha.pinsLeft hpins _⟩
  refine ⟨bm, f, by rw [← ha.bm]; exact hf, hok, hstep, hsize, ?_⟩
  refine ⟨Session.inv_step s _ _ ha.inv hok hstep, rfl, ha.mem, hnext.trans ha.next, ?_, ?_, ?_,
    ha.held_append p, fun q hq => ?_⟩
  · simp [ha.pool]
  · simp [ha.map]
  · rw [List.map_cons, ha.newPin, ha.pins_append]
    exact ha.pins.cons _
  · obtain ⟨h, hh, hpage, hfresh⟩ := ha.fresh q hq
    exact ⟨h, List.mem_cons_of_mem _ hh, hpage, hfresh⟩

theorem Agree.newPage (ha : Agree n held ps ms s) (hlt : held.length < s.bm.poolSize)
    (hids : s.bm.IdsLeft) :
    ∃ bm f s', ps.bm.newPage = (bm, some (some ms.nextPageId, f)) ∧
      s.step .newPage = some s' ∧ bm.poolSize = s.bm.poolSize ∧ s'.bm = bm ∧
      Agree (n + 1) (⟨n, ms.nextPageId, false, true⟩ :: held)
        { ps with bm, pointers := ps.pointers ++ [f] }
        { mem := Function.update ms.mem ms.nextPageId (init ms.nextPageId)
          nextPageId := ms.nextPageId + 1
          pointers := ms.pointers ++ [ms.nextPageId] } s' := by
  obtain ⟨⟨bm, f⟩, ht⟩ := Option.ne_none_iff_exists'.mp (ha.takeFrame_ne_none hlt)
  have hsize := BufferManager.takeFrame_poolSize ht
  obtain ⟨bm', hnew, hsize', hnext'⟩ : ∃ bm', s.bm.newPage = (bm', some (some ms.nextPageId, f)) ∧
      bm'.poolSize = s.bm.poolSize ∧ bm'.nextPageId = ms.nextPageId + 1 := by
    have hnew := BufferManager.newPage_of_idsLeft hids ht
    rw [ha.next] at hnew
    exact ⟨_, hnew, hsize, rfl⟩
  have hstep : s.step .newPage = some ⟨bm', Function.update s.mem ms.nextPageId (init ms.nextPageId),
      ⟨ms.nextPageId, f, false⟩ :: s.pins, ms.nextPageId :: s.fresh⟩ := by
    simp only [Session.step, hnew]
  refine ⟨bm', f, _, by rw [← ha.bm]; exact hnew, hstep, hsize', rfl, ?_⟩
  refine ⟨Session.inv_step s .newPage _ ha.inv hids hstep, rfl, by rw [← ha.mem], hnext', ?_, ?_, ?_,
    ha.held_append _, fun q hq => ?_⟩
  · simp [ha.pool]
  · simp [ha.map]
  · rw [List.map_cons, ha.newPin, ha.pins_append]
    exact ha.pins.cons _
  · rcases List.mem_cons.mp hq with rfl | hq
    · exact ⟨_, List.mem_cons_self, rfl, rfl⟩
    · obtain ⟨h, hh, hpage, hfresh⟩ := ha.fresh q hq
      exact ⟨h, List.mem_cons_of_mem _ hh, hpage, hfresh⟩

theorem Agree.write (ha : Agree n held ps ms s) (hh : h ∈ held) (x : P) :
    ∃ s', s.step (.write (h.pin ps.pointers) x) = some s' ∧ s'.bm.poolSize = s.bm.poolSize ∧
      Agree n ({ h with wrote := true } :: held.erase h)
        { ps with
          bm := ps.bm.setFrame (h.pin ps.pointers).frame
            { ps.bm.frames (h.pin ps.pointers).frame with page := x } }
        { ms with mem := Function.update ms.mem h.page x } s' := by
  refine ⟨_, rfl, rfl, ?_⟩
  refine ⟨Session.inv_step s (.write _ x) _ ha.inv (ha.pin_mem hh) rfl, by rw [ha.bm], by rw [← ha.mem]; rfl,
    ha.next, ha.pool, ha.map, ?_, fun g hg => ?_, fun q hq => ?_⟩
  · rw [List.map_cons]
    exact (ha.pins_erase hh).cons _
  · rcases List.mem_cons.mp hg with rfl | hg
    · exact ha.behind h hh
    · exact ha.behind g (List.mem_of_mem_erase hg)
  · obtain ⟨g, hg, hpage, hfresh⟩ := ha.fresh q hq
    by_cases hgh : g = h
    · exact ⟨_, List.mem_cons_self, by rw [← hpage, hgh], by rw [← hfresh, hgh]⟩
    · exact ⟨g, List.mem_cons_of_mem _ ((List.mem_erase_of_ne hgh).mpr hg), hpage, hfresh⟩

theorem Agree.unpinPage (ha : Agree n held ps ms s) (hh : h ∈ held) {d : Bool}
    (hd : h.wrote = true ∨ (∃ g ∈ held, g.page = h.page ∧ g.fresh = true) → d = true) :
    ∃ s', s.step (.unpinPage (h.pin ps.pointers) d) = some s' ∧
      s.Allowed (.unpinPage (h.pin ps.pointers) d) ∧ s'.bm.poolSize = s.bm.poolSize ∧
      Agree n (held.erase h) { ps with bm := (ps.bm.unpinPage (some h.page) d).1 } ms s' := by
  have hok : s.Allowed (.unpinPage (h.pin ps.pointers) d) := by
    refine ⟨ha.pin_mem hh, fun hw => hd ?_⟩
    rcases hw with hw | hw
    · exact Or.inl hw
    · exact Or.inr (ha.fresh _ hw)
  obtain ⟨hres, hcount, -⟩ := ha.inv.pin (ha.pin_mem hh)
  obtain ⟨r, hr⟩ := Session.unpinPage_eq hres (by omega) d
  refine ⟨_, rfl, hok, ?_, ?_⟩
  · show (s.bm.unpinPage (some h.page) d).1.poolSize = _
    rw [show some h.page = some (h.pin ps.pointers).page from rfl, hr]
    rfl
  refine ⟨Session.inv_step s _ _ ha.inv hok rfl, by rw [← ha.bm]; rfl, ha.mem, ?_, ha.pool, ha.map,
    ha.pins_erase hh, fun g hg => ha.behind g (List.mem_of_mem_erase hg), fun q hq => ?_⟩
  · show (s.bm.unpinPage (some h.page) d).1.nextPageId = _
    rw [show some h.page = some (h.pin ps.pointers).page from rfl, hr]
    exact ha.next
  · obtain ⟨hq, hne⟩ := List.mem_filter.mp hq
    obtain ⟨g, hg, hpage, hfresh⟩ := ha.fresh q hq
    refine ⟨g, (List.mem_erase_of_ne ?_).mpr hg, hpage, hfresh⟩
    rintro rfl
    exact (of_decide_eq_true hne) hpage.symm

/-- **Tidy programs do not see the pool.** What a tidy program does on the map,
it does on every pool of at least `cap` frames that clients brought into this
state, no call being refused, if there are ids for the pages that it allocates. -/
theorem tidy_runs {cap : Nat} {Q : Nat → List Held → α → Prop} {m : Program P α} {a : α}
    {ms' : MapState P} (ht : Tidy cap Q m n held) (ha : Agree n held ps ms s)
    (hcap : cap ≤ s.bm.poolSize) (hpins : cap < 2 ^ 31) (hids : ms'.nextPageId ≤ invalidPageId)
    (hrun : m.runMap ms = some (a, ms')) :
    ∃ ps' s' n' held', m.runPool ps = some (a, ps') ∧ ps'.refused = ps.refused ∧
      Steps Session.step Session.Allowed s s' ∧ Agree n' held' ps' ms' s' ∧ Q n' held' a := by
  induction m generalizing n held ps ms s with
  | done b =>
    obtain ⟨rfl, rfl⟩ := Prod.mk.inj (Option.some.inj hrun)
    exact ⟨ps, s, n, held, rfl, rfl, .refl, ha, ht⟩
  | fail => cases hrun
  | fetchPage p k ih =>
    cases p with
    | none => cases hrun
    | some p =>
      obtain ⟨hlt, ht⟩ := ht
      rw [runMap, Option.ite_none_right_eq_some] at hrun
      obtain ⟨bm, f, hf, hok, hstep, hsize, ha'⟩ := ha.fetchPage hrun.1 (by omega) (by omega)
      have hrun' := hrun.2
      rw [ha.map] at hrun'
      obtain ⟨ps', s', n', held', hp, href, hsteps, hagree, hQ⟩ :=
        ih (some n) ht ha' (by rw [hsize]; exact hcap) hrun'
      refine ⟨ps', s', n', held', ?_, href, ?_, hagree, hQ⟩
      · rw [runPool, hf]
        simp only [ha.pool]
        exact hp
      · exact (Steps.refl.next (.fetchPage p) hok hstep).trans hsteps
  | newPage k ih =>
    obtain ⟨hlt, ht⟩ := ht
    have hleft : s.bm.IdsLeft := by
      rw [BufferManager.IdsLeft, ha.next]
      exact Nat.lt_of_lt_of_le (nextPageId_le_of_runMap (m := k _) hrun) hids
    obtain ⟨bm, f, s₁, hf, hstep, hsize, hbm, ha'⟩ := ha.newPage (by omega) hleft
    rw [runMap, ha.map] at hrun
    obtain ⟨ps', s', n', held', hp, href, hsteps, hagree, hQ⟩ :=
      ih (some (ms.nextPageId, n)) (ht _) ha' (by rw [hbm, hsize]; exact hcap) hrun
    refine ⟨ps', s', n', held', ?_, href, ?_, hagree, hQ⟩
    · rw [runPool, hf]
      simp only [ha.pool]
      exact hp
    · exact (Steps.refl.next .newPage hleft hstep).trans hsteps
  | read ptr k ih =>
    obtain ⟨⟨h, hh, rfl⟩, ht⟩ := ht
    rw [runMap, ha.behind h hh, Option.bind_some] at hrun
    obtain ⟨ps', s', n', held', hp, hrest⟩ := ih _ (ht _) ha hcap hrun
    refine ⟨ps', s', n', held', ?_, hrest⟩
    have hpin := ha.pin_mem hh
    have hpage := ha.inv.resident _ _ (ha.inv.pinned _ hpin)
    rw [runPool, ha.frame hh, Option.bind_some]
    rw [ha.bm, ha.mem] at hpage
    rw [hpage]
    exact hp
  | write ptr x k ih =>
    obtain ⟨h, hh, rfl, ht⟩ := ht
    rw [runMap, ha.behind h hh, Option.bind_some] at hrun
    obtain ⟨s₁, hstep, hsize, ha'⟩ := ha.write hh x
    obtain ⟨ps', s', n', held', hp, href, hsteps, hrest⟩ :=
      ih ht ha' (by rw [hsize]; exact hcap) hrun
    refine ⟨ps', s', n', held', ?_, href,
      (Steps.refl.next (.write _ x) (ha.pin_mem hh) hstep).trans hsteps, hrest⟩
    rw [runPool, ha.frame hh, Option.bind_some]
    exact hp
  | unpinPage p d k ih =>
    obtain ⟨h, hh, rfl, hd, ht⟩ := ht
    obtain ⟨s₁, hstep, hok, hsize, ha'⟩ := ha.unpinPage hh hd
    obtain ⟨ps', s', n', held', hp, href, hsteps, hrest⟩ :=
      ih ht ha' (by rw [hsize]; exact hcap) hrun
    exact ⟨ps', s', n', held', hp, href,
      (Steps.refl.next (.unpinPage _ d) hok hstep).trans hsteps, hrest⟩

end Calls

end Program

end PersistX.Pool
