import Mathlib.Data.List.Basic

/-!
# Lists of children separated by keys

The inside of a search-tree node: `n` keys and `n + 1` children, the child at
position `i` between the keys `i - 1` and `i`. `Separated P lo ks cs hi` says
that every child satisfies `P` at the two bounds it lies between, where `lo`
and `hi` are the bounds of the node itself (`none`: unbounded).

`separated_append` cuts a node at a key, `separated_focus` takes one child out
of it: what is left of it (`SeparatedLeft`), the child, and what is right of it
(`SeparatedRight`).
-/

namespace Separators

variable {K T : Type}

/-- Every child satisfies `P` between its two neighbouring keys. -/
def Separated (P : Option K → Option K → T → Prop) : Option K → List K → List T → Option K → Prop
  | lo, [], [c], hi => P lo hi c
  | lo, k :: ks, c :: cs, hi => P lo (some k) c ∧ Separated P (some k) ks cs hi
  | _, _, _, _ => False

/-- The part of a node left of a child: as many keys as children. -/
def SeparatedLeft (P : Option K → Option K → T → Prop) : Option K → List K → List T → Prop
  | _, [], [] => True
  | lo, k :: ks, c :: cs => P lo (some k) c ∧ SeparatedLeft P (some k) ks cs
  | _, _, _ => False

/-- The first key of a list, or the bound behind it. -/
def firstBound : List K → Option K → Option K
  | [], hi => hi
  | k :: _, _ => some k

/-- The last key of a list, or the bound before it. -/
def lastBound : Option K → List K → Option K
  | lo, [] => lo
  | _, k :: ks => lastBound (some k) ks

/-- The part of a node right of a child: as many keys as children. -/
def SeparatedRight (P : Option K → Option K → T → Prop) : List K → List T → Option K → Prop
  | [], [], _ => True
  | k :: ks, c :: cs, hi => P (some k) (firstBound ks hi) c ∧ SeparatedRight P ks cs hi
  | _, _, _ => False

variable {P Q : Option K → Option K → T → Prop} {lo hi : Option K} {ks : List K} {cs : List T}

theorem Separated.length (h : Separated P lo ks cs hi) : cs.length = ks.length + 1 := by
  induction ks generalizing lo cs with
  | nil =>
    match cs, h with
    | [c], _ => rfl
  | cons k ks ih =>
    match cs, h with
    | c :: cs, h => rw [List.length_cons, List.length_cons, ih h.2]

theorem SeparatedLeft.length (h : SeparatedLeft P lo ks cs) : cs.length = ks.length := by
  induction ks generalizing lo cs with
  | nil =>
    match cs, h with
    | [], _ => rfl
  | cons k ks ih =>
    match cs, h with
    | c :: cs, h => rw [List.length_cons, List.length_cons, ih h.2]

/-- A node is a child and what is right of it. -/
theorem separated_cons {c : T} :
    Separated P lo ks (c :: cs) hi ↔ P lo (firstBound ks hi) c ∧ SeparatedRight P ks cs hi := by
  induction ks generalizing lo c cs with
  | nil =>
    match cs with
    | [] => simp [Separated, SeparatedRight, firstBound]
    | _ :: _ => simp [Separated, SeparatedRight]
  | cons k ks ih =>
    match cs with
    | [] =>
      cases ks <;> simp [Separated, SeparatedRight]
    | c' :: cs =>
      rw [Separated, ih]
      simp [SeparatedRight, firstBound]

/-- One child of a node, with what is left and what is right of it. -/
theorem separated_focus {lk rk : List K} {lc rc : List T} {c : T} (hlen : lc.length = lk.length) :
    Separated P lo (lk ++ rk) (lc ++ c :: rc) hi ↔
      SeparatedLeft P lo lk lc ∧ P (lastBound lo lk) (firstBound rk hi) c ∧
        SeparatedRight P rk rc hi := by
  induction lk generalizing lo lc with
  | nil =>
    obtain rfl : lc = [] := List.length_eq_zero_iff.mp hlen
    simp [SeparatedLeft, lastBound, separated_cons]
  | cons k lk ih =>
    match lc, hlen with
    | c' :: lc, hlen =>
      rw [List.cons_append, List.cons_append, Separated, ih (Nat.succ.inj hlen), SeparatedLeft,
        lastBound, and_assoc]

/-- A node cut at one of its keys. -/
theorem separated_append {k : K} {ks' : List K} {cs' : List T} (hlen : cs.length = ks.length + 1) :
    Separated P lo (ks ++ k :: ks') (cs ++ cs') hi ↔
      Separated P lo ks cs (some k) ∧ Separated P (some k) ks' cs' hi := by
  induction ks generalizing lo cs with
  | nil =>
    match cs, hlen with
    | [c], _ => rfl
  | cons a ks ih =>
    match cs, hlen with
    | c :: cs, hlen =>
      rw [List.cons_append, List.cons_append, Separated, ih (Nat.succ.inj hlen), Separated, and_assoc]

theorem Separated.exists_of_mem (h : Separated P lo ks cs hi) {c : T} (hc : c ∈ cs) :
    ∃ lo' hi', P lo' hi' c := by
  induction ks generalizing lo cs with
  | nil =>
    match cs, h with
    | [x], h =>
      rw [List.mem_singleton.mp hc]
      exact ⟨_, _, h⟩
  | cons k ks ih =>
    match cs, h with
    | x :: cs, h =>
      rcases List.mem_cons.mp hc with rfl | hc
      · exact ⟨_, _, h.1⟩
      · exact ih h.2 hc

end Separators
