import PersistX.Common
import Mathlib.Logic.Function.Basic

/-!
# PersistX — log records and what they mean

The log record kinds that the constructors of `log_record.hpp` build, and the
meaning of a log as a sequence of writes to slots. `prevLsn` and `undoNext`
are `none` where the code stores `INVALID_LSN`. A `CHECKPOINT_END` record
carries its two snapshots as lists; their byte encoding inside the record's
two images is the business of the codec.

A slot's contents are an `Option Bytes`: `none` is what `read_record` reports
as `false` (tombstone or never used). In an UPDATE record the empty image
stands for "no record" (`old_data` empty = INSERT, `new_data` empty = DELETE),
which `image` makes explicit.
-/

namespace PersistX

/-- The kinds of log record, with the fields their constructor sets. -/
inductive RecordBody where
  | begin
  | update (page : Nat) (slot : Nat) (old new : Bytes) (indexKey : Int)
  | commit
  | abort
  | txnEnd
  | clr (page : Nat) (slot : Nat) (new : Bytes) (undoNext : Option Nat)
  | checkpointBegin
  | checkpointEnd (att : List (Nat × Nat)) (dpt : List (Nat × Nat))
  deriving DecidableEq, Repr

/-- A log record as `LogManager::append` stamps it. -/
structure Record where
  lsn : Nat
  txnId : Nat
  prevLsn : Option Nat
  body : RecordBody
  deriving DecidableEq, Repr

/-- The contents of a slot that a tuple image stands for. -/
def image (b : Bytes) : Option Bytes := if b = [] then none else some b

@[simp] theorem image_nil : image [] = none := rfl

theorem image_of_ne {b : Bytes} (h : b ≠ []) : image b = some b := if_neg h

/-- The write a record makes when it is (re)done: page, slot, after-image. -/
def RecordBody.write? : RecordBody → Option (Nat × Nat × Bytes)
  | .update p s _ new _ => some (p, s, new)
  | .clr p s new _ => some (p, s, new)
  | _ => none

/-- The page a record writes, if it is an UPDATE or a CLR. -/
def RecordBody.page? (b : RecordBody) : Option Nat := b.write?.map (·.1)

/-- The record writes this slot. -/
def RecordBody.Writes (b : RecordBody) (p : Nat) (s : Nat) : Prop :=
  ∃ new, b.write? = some (p, s, new)

/-- The contents of every slot of every page. -/
abbrev Contents := Nat → Nat → Option Bytes

/-- The database nobody has written to. -/
def Contents.empty : Contents := fun _ _ => none

/-- Set one slot. -/
def Contents.set (c : Contents) (p : Nat) (s : Nat) (v : Option Bytes) : Contents :=
  fun p' s' => if p' = p ∧ s' = s then v else c p' s'

@[simp] theorem Contents.set_self (c : Contents) (p : Nat) (s : Nat) (v : Option Bytes) :
    c.set p s v p s = v := by
  simp [Contents.set]

theorem Contents.set_ne {c : Contents} {p p' : Nat} {s s' : Nat} {v : Option Bytes}
    (h : ¬ (p' = p ∧ s' = s)) : c.set p s v p' s' = c p' s' := if_neg h

/-- The effect of one record on the contents. -/
def applyBody (c : Contents) (b : RecordBody) : Contents :=
  match b.write? with
  | some (p, s, new) => c.set p s (image new)
  | none => c

/-- What a log says the slots contain: every write, in log order. -/
def contents (log : List Record) : Contents :=
  log.foldl (fun c r => applyBody c r.body) Contents.empty

@[simp] theorem contents_nil : contents [] = Contents.empty := rfl

@[simp] theorem contents_append_one (log : List Record) (r : Record) :
    contents (log ++ [r]) = applyBody (contents log) r.body := by
  simp [contents, List.foldl_append]

theorem applyBody_of_not_writes {c : Contents} {b : RecordBody} {p : Nat} {s : Nat}
    (h : ¬ b.Writes p s) : applyBody c b p s = c p s := by
  rw [applyBody]
  cases hw : b.write? with
  | none => rfl
  | some w =>
    obtain ⟨p', s', new⟩ := w
    apply Contents.set_ne
    rintro ⟨rfl, rfl⟩
    exact h ⟨new, hw⟩

theorem applyBody_of_write {c : Contents} {b : RecordBody} {p : Nat} {s : Nat}
    {new : Bytes} (h : b.write? = some (p, s, new)) : applyBody c b p s = image new := by
  simp [applyBody, h]

/-- A run of records that do not write a slot leaves it alone. -/
theorem foldl_applyBody_of_not_writes {p : Nat} {s : Nat} :
    ∀ (l : List Record) (c : Contents), (∀ r ∈ l, ¬ r.body.Writes p s) →
      l.foldl (fun c r => applyBody c r.body) c p s = c p s
  | [], _, _ => rfl
  | r :: l, c, h => by
    rw [List.foldl_cons, foldl_applyBody_of_not_writes l _
      (fun x hx => h x (List.mem_cons_of_mem _ hx))]
    exact applyBody_of_not_writes (h r List.mem_cons_self)

/-- The last write to a slot decides its contents. -/
theorem foldl_applyBody_last {p : Nat} {s : Nat} {a b : List Record} {r : Record}
    {new : Bytes} {c : Contents} (hr : r.body.write? = some (p, s, new))
    (hb : ∀ x ∈ b, ¬ x.body.Writes p s) :
    (a ++ r :: b).foldl (fun c r => applyBody c r.body) c p s = image new := by
  rw [List.foldl_append, List.foldl_cons, foldl_applyBody_of_not_writes b _ hb]
  exact applyBody_of_write hr

/-! ## The operations of the committed transactions -/

/-- How the transaction instance that is open at the start of `l` ends in it:
`some true` at its COMMIT, `some false` at its TXN_END (or at the BEGIN of a
later transaction that was given the same id), `none` if it does not end. -/
def fate (t : Nat) : List Record → Option Bool
  | [] => none
  | r :: l =>
    if r.txnId = t then
      match r.body with
      | .commit => some true
      | .txnEnd => some false
      | .begin => some false
      | _ => fate t l
    else fate t l

/-- The UPDATE records of the transactions whose COMMIT record is in the log. -/
def committedOps : List Record → List Record
  | [] => []
  | r :: l =>
    match r.body with
    | .update .. => if fate r.txnId l = some true then r :: committedOps l else committedOps l
    | _ => committedOps l

/-- The result of applying, in log order, the operations of the transactions
whose COMMIT record is in the log, and nothing of any other transaction. -/
def committedContents (log : List Record) : Contents :=
  (committedOps log).foldl (fun c r => applyBody c r.body) Contents.empty

theorem fate_append (t : Nat) (a b : List Record) :
    fate t (a ++ b) = (fate t a).or (fate t b) := by
  induction a with
  | nil => simp [fate]
  | cons r a ih =>
    rw [List.cons_append, fate, fate]
    split
    · split <;> simp [ih]
    · exact ih

/-- Only a COMMIT record can decide a fate in favour of a transaction. -/
theorem fate_singleton_ne_true {t : Nat} {r : Record} (h : r.body ≠ .commit) :
    fate t [r] ≠ some true := by
  rw [fate]
  split
  · split <;> simp_all [fate]
  · simp [fate]

theorem fate_append_one_eq_true {t : Nat} {a : List Record} {r : Record}
    (h : r.body ≠ .commit) : fate t (a ++ [r]) = some true ↔ fate t a = some true := by
  rw [fate_append]
  cases hf : fate t a with
  | none => simp [fate_singleton_ne_true h]
  | some b => simp

/-- Appending a record that is not a COMMIT commits no operation. -/
theorem committedOps_append_one {r : Record} (h : r.body ≠ .commit) :
    ∀ a : List Record, committedOps (a ++ [r]) = committedOps a
  | [] => by
    simp only [List.nil_append, committedOps]
    split <;> simp [fate]
  | x :: a => by
    simp only [List.cons_append, committedOps, committedOps_append_one h a,
      fate_append_one_eq_true h]

theorem committedContents_append_one {r : Record} {a : List Record} (h : r.body ≠ .commit) :
    committedContents (a ++ [r]) = committedContents a := by
  rw [committedContents, committedOps_append_one h, committedContents]

/-- The committed operations of a log end with those of any of its suffixes. -/
theorem exists_committedOps_append (a b : List Record) :
    ∃ x, committedOps (a ++ b) = x ++ committedOps b := by
  induction a with
  | nil => exact ⟨[], rfl⟩
  | cons r a ih =>
    obtain ⟨x, hx⟩ := ih
    rw [List.cons_append, committedOps]
    split
    · split
      · exact ⟨r :: x, by rw [hx, List.cons_append]⟩
      · exact ⟨x, hx⟩
    · exact ⟨x, hx⟩

theorem mem_of_mem_committedOps {r : Record} :
    ∀ {l : List Record}, r ∈ committedOps l → r ∈ l
  | [], h => by simp [committedOps] at h
  | x :: l, h => by
    rw [committedOps] at h
    split at h
    · split at h
      · rcases List.mem_cons.mp h with rfl | h
        · exact List.mem_cons_self
        · exact List.mem_cons_of_mem _ (mem_of_mem_committedOps h)
      · exact List.mem_cons_of_mem _ (mem_of_mem_committedOps h)
    · exact List.mem_cons_of_mem _ (mem_of_mem_committedOps h)

/-- If the last write to a slot is an operation of a transaction that is still
open at the end of the log, its COMMIT makes that write the committed one. -/
theorem committedContents_commit_last {a b : List Record} {x c : Record} {p : Nat}
    {s : Nat} {old new : Bytes} {k : Int} (hx : x.body = .update p s old new k)
    (hc : c.body = .commit) (hct : c.txnId = x.txnId) (hopen : fate x.txnId b = none)
    (hb : ∀ r ∈ b, ¬ r.body.Writes p s) :
    committedContents (a ++ x :: b ++ [c]) p s = image new := by
  have hwin : fate x.txnId (b ++ [c]) = some true := by
    rw [fate_append, hopen]
    simp [fate, hct, hc]
  have hops : committedOps (x :: (b ++ [c])) = x :: committedOps (b ++ [c]) := by
    rw [committedOps]
    split
    · rw [if_pos hwin]
    · rename_i h
      exact absurd hx (h _ _ _ _ _)
  have hrest : ∀ r ∈ committedOps (b ++ [c]), ¬ r.body.Writes p s := by
    intro r hr
    rcases List.mem_append.mp (mem_of_mem_committedOps hr) with hr | hr
    · exact hb r hr
    · rw [List.mem_singleton.mp hr, hc]
      rintro ⟨new, h⟩
      simp [RecordBody.write?] at h
  obtain ⟨y, hy⟩ := exists_committedOps_append a (x :: (b ++ [c]))
  rw [committedContents, List.append_assoc, List.cons_append, hy, hops]
  exact foldl_applyBody_last (by rw [hx]; rfl) hrest

/-- A COMMIT changes no slot that its transaction has not written. -/
theorem committedContents_commit_other {c : Record} {p : Nat} {s : Nat}
    (hc : c.body = .commit) :
    ∀ {l : List Record}, (∀ a x b, l = a ++ x :: b → x.txnId = c.txnId →
        (∃ o n k, x.body = .update p s o n k) → fate c.txnId b ≠ none) →
      committedContents (l ++ [c]) p s = committedContents l p s := by
  -- the two lists of operations agree on the records that write the slot
  have key : ∀ (l : List Record), (∀ a x b, l = a ++ x :: b → x.txnId = c.txnId →
      (∃ o n k, x.body = .update p s o n k) → fate c.txnId b ≠ none) →
      ∀ m m' : Contents, m p s = m' p s →
      (committedOps (l ++ [c])).foldl (fun c r => applyBody c r.body) m p s =
        (committedOps l).foldl (fun c r => applyBody c r.body) m' p s := by
    intro l
    induction l with
    | nil =>
      intro _ m m' hm
      simp [committedOps, hc, hm]
    | cons r l ih =>
      intro h m m' hm
      have ih' := ih fun a x b hl => h (r :: a) x b (by rw [hl, List.cons_append])
      rw [List.cons_append, committedOps, committedOps]
      cases hb : r.body with
      | update q u o n k =>
        simp only
        by_cases hwin : fate r.txnId l = some true
        · rw [if_pos hwin, if_pos (by rw [fate_append, hwin]; rfl), List.foldl_cons, List.foldl_cons]
          apply ih'
          by_cases hw : r.body.Writes p s
          · obtain ⟨new, hw⟩ := hw
            rw [applyBody_of_write hw, applyBody_of_write hw]
          · rw [applyBody_of_not_writes hw, applyBody_of_not_writes hw, hm]
        · rw [if_neg hwin]
          split
          · rename_i hnew
            rw [List.foldl_cons]
            apply ih'
            -- the record is open, so it is one of the committing transaction's
            have hnone : fate r.txnId l = none := by
              rw [fate_append] at hnew
              cases hf : fate r.txnId l with
              | none => rfl
              | some b =>
                rw [hf] at hnew
                exact absurd (hf.trans (by simpa using hnew)) hwin
            have htid : r.txnId = c.txnId := by
              rw [fate_append, hnone, Option.none_or, fate] at hnew
              by_contra hne
              rw [if_neg (Ne.symm hne)] at hnew
              simp [fate] at hnew
            have hslot : ¬ r.body.Writes p s := by
              rw [hb]
              rintro ⟨new, hw⟩
              simp only [RecordBody.write?, Option.some.injEq, Prod.mk.injEq] at hw
              obtain ⟨rfl, rfl, -⟩ := hw
              exact h [] r l rfl htid ⟨o, n, k, hb⟩ (htid ▸ hnone)
            rw [applyBody_of_not_writes hslot, hm]
          · exact ih' _ _ hm
      | begin => exact ih' _ _ hm
      | commit => exact ih' _ _ hm
      | abort => exact ih' _ _ hm
      | txnEnd => exact ih' _ _ hm
      | clr => exact ih' _ _ hm
      | checkpointBegin => exact ih' _ _ hm
      | checkpointEnd => exact ih' _ _ hm
  intro l h
  exact key l h _ _ rfl

end PersistX
