import PersistX.Wal.Record
import Mathlib.Data.List.Induction

/-!
# PersistX — histories: what the undo chains of a log say

A log determines, for every transaction id, whether a transaction with that id
is open at its end, the LSN of its last record and the UPDATE records it has
not compensated yet (`active`). A log is a *history* when every record in it
was legitimate at the point where it was appended:

* `Lifecycle` — the record fits the life of its transaction: BEGIN of an id
  that is not in use, `prevLsn` links to the transaction's last record, a CLR
  compensates the newest UPDATE that is not compensated yet and carries that
  UPDATE's `prevLsn` as `undoNext`, TXN_END only when nothing is left to undo;
* `SlotRule` (`Wal/Slots.lean`) — an UPDATE carries the slot's current contents as
  before-image and touches no slot on which another open transaction has
  something to undo.

Nothing here mentions the managers: these are facts about sequences of
records, closed under taking prefixes, so they survive the loss of the log's
unflushed tail. The managers' models append only legitimate records
(`Aries/Preservation.lean`).

Main result: `History.lifecycle` — in a history, following `prevLsn`/`undoNext`
from the last record of an open transaction meets exactly its uncompensated
UPDATEs, newest first, and ends at its BEGIN (`UndoChain`).
-/

namespace PersistX

-- ---------------------------------------------------------------------------
-- Open transactions
-- ---------------------------------------------------------------------------

/-- What a log says about a transaction that is open at its end. -/
structure TxnView where
  /-- LSN of the transaction's last record. -/
  last : Nat
  /-- LSNs of the UPDATE records not compensated yet, newest first. -/
  pend : List Nat
  /-- Rollback has started: an ABORT or a CLR was logged. -/
  rolling : Bool
  deriving DecidableEq, Repr

/-- The effect of one of a transaction's own records on its view. -/
def stepTxn (v : Option TxnView) (r : Record) : Option TxnView :=
  match r.body with
  | .begin => some ⟨r.lsn, [], false⟩
  | .update .. => v.map fun v => ⟨r.lsn, r.lsn :: v.pend, v.rolling⟩
  | .clr .. => v.map fun v => ⟨r.lsn, v.pend.tail, true⟩
  | .abort => v.map fun v => ⟨r.lsn, v.pend, true⟩
  | .commit => none
  | .txnEnd => none
  | .checkpointBegin => v
  | .checkpointEnd .. => v

/-- The transaction with id `t` that is open at the end of the log, if any. -/
def active (log : List Record) (t : Nat) : Option TxnView :=
  log.foldl (fun v r => if r.txnId = t then stepTxn v r else v) none

@[simp] theorem active_nil (t : Nat) : active [] t = none := rfl

theorem active_append_one (log : List Record) (r : Record) (t : Nat) :
    active (log ++ [r]) t = if r.txnId = t then stepTxn (active log t) r else active log t := by
  simp [active, List.foldl_append]

theorem active_append_one_ne {log : List Record} {r : Record} {t : Nat} (h : r.txnId ≠ t) :
    active (log ++ [r]) t = active log t := by
  rw [active_append_one, if_neg h]

theorem active_append_one_self {log : List Record} {r : Record} :
    active (log ++ [r]) r.txnId = stepTxn (active log r.txnId) r := by
  rw [active_append_one, if_pos rfl]

theorem active_append_update {log : List Record} {l t p s : Nat} {pr : Option Nat} {o n : Bytes}
    {k : Int} {v : TxnView} (hv : active log t = some v) :
    active (log ++ [⟨l, t, pr, .update p s o n k⟩]) t = some ⟨l, l :: v.pend, v.rolling⟩ := by
  rw [active_append_one, if_pos rfl, hv]
  rfl

theorem active_append_clr {log : List Record} {l t p s : Nat} {pr un : Option Nat} {n : Bytes}
    {v : TxnView} (hv : active log t = some v) :
    active (log ++ [⟨l, t, pr, .clr p s n un⟩]) t = some ⟨l, v.pend.tail, true⟩ := by
  rw [active_append_one, if_pos rfl, hv]
  rfl

theorem active_append_abort {log : List Record} {l t : Nat} {pr : Option Nat} {v : TxnView}
    (hv : active log t = some v) :
    active (log ++ [⟨l, t, pr, .abort⟩]) t = some ⟨l, v.pend, true⟩ := by
  rw [active_append_one, if_pos rfl, hv]
  rfl

-- ---------------------------------------------------------------------------
-- Legitimate records
-- ---------------------------------------------------------------------------

/-- The record fits the life of its transaction. -/
def Lifecycle (log : List Record) (r : Record) : Prop :=
  r.lsn = log.length ∧
  match r.body with
  | .begin => active log r.txnId = none ∧ r.prevLsn = none
  | .update .. => ∃ v, active log r.txnId = some v ∧ v.rolling = false ∧ r.prevLsn = some v.last
  | .commit => ∃ v, active log r.txnId = some v ∧ v.rolling = false ∧ r.prevLsn = some v.last
  | .abort => ∃ v, active log r.txnId = some v ∧ v.rolling = false ∧ r.prevLsn = some v.last
  | .clr p s new undoNext => ∃ v u us ru, active log r.txnId = some v ∧ v.pend = u :: us ∧
      r.prevLsn = some v.last ∧ log[u]? = some ru ∧
      (∃ n k, ru.body = .update p s new n k) ∧ undoNext = ru.prevLsn
  | .txnEnd => ∀ v, active log r.txnId = some v → v.pend = []
  | .checkpointBegin => True
  | .checkpointEnd .. => True

/-- Every record of the log was legitimate when it was appended. -/
inductive History (rule : List Record → Record → Prop) : List Record → Prop where
  | nil : History rule []
  | snoc {log : List Record} {r : Record} :
      History rule log → rule log r → History rule (log ++ [r])

/-- Losing the tail of a history leaves a history. -/
theorem History.of_append {rule : List Record → Record → Prop} {a : List Record} :
    ∀ {b : List Record}, History rule (a ++ b) → History rule a := by
  intro b
  induction b using List.reverseRecOn with
  | nil => intro h; simpa using h
  | append_singleton b r ih =>
    intro h
    rw [← List.append_assoc] at h
    generalize hl : a ++ b ++ [r] = l at h
    cases h with
    | nil => simp at hl
    | snoc hlog _ =>
      obtain ⟨rfl, -⟩ := List.append_inj' hl rfl
      exact ih hlog

theorem History.take {rule : List Record → Record → Prop} {log : List Record} (k : Nat)
    (h : History rule log) : History rule (log.take k) := by
  rw [← List.take_append_drop k log] at h
  exact h.of_append

theorem History.mono {rule rule' : List Record → Record → Prop} {log : List Record}
    (himp : ∀ l r, rule l r → rule' l r) (h : History rule log) : History rule' log := by
  induction h with
  | nil => exact .nil
  | snoc _ hr ih => exact .snoc ih (himp _ _ hr)

/-- The record at a position was legitimate after those before it. -/
theorem History.rule_at {rule : List Record → Record → Prop} {log : List Record}
    (h : History rule log) {i : Nat} {r : Record} (hr : log[i]? = some r) :
    rule (log.take i) r := by
  induction h with
  | nil => simp at hr
  | @snoc log x _ hx ih =>
    rcases Nat.lt_or_ge i log.length with hi | hi
    · rw [List.getElem?_append_left hi] at hr
      rw [List.take_append_of_le_length (Nat.le_of_lt hi)]
      exact ih hr
    · rw [List.getElem?_append_right hi, List.getElem?_singleton] at hr
      split at hr
      · obtain rfl : i = log.length := by omega
        rw [List.take_left, ← Option.some.inj hr]
        exact hx
      · cases hr

-- ---------------------------------------------------------------------------
-- Undo chains
-- ---------------------------------------------------------------------------

/-- Walking the undo chain of transaction `t` from the record at `l`, as
`TransactionManager::abort` and `RecoveryManager::undo` do, meets exactly the
UPDATE records `us`, in this order, and ends at the transaction's BEGIN. -/
inductive UndoChain (log : List Record) (t : Nat) : Nat → List Nat → Prop where
  | begin {l : Nat} {r : Record} : log[l]? = some r → r.txnId = t → r.body = .begin →
      UndoChain log t l []
  | update {l l' : Nat} {r : Record} {us : List Nat} : log[l]? = some r → r.txnId = t →
      (∃ p s o n k, r.body = .update p s o n k) → r.prevLsn = some l' → l' < l →
      UndoChain log t l' us → UndoChain log t l (l :: us)
  | clr {l l' : Nat} {r : Record} {us : List Nat} : log[l]? = some r → r.txnId = t →
      (∃ p s n, r.body = .clr p s n (some l')) → l' < l →
      UndoChain log t l' us → UndoChain log t l us
  | abort {l l' : Nat} {r : Record} {us : List Nat} : log[l]? = some r → r.txnId = t →
      r.body = .abort → r.prevLsn = some l' → l' < l →
      UndoChain log t l' us → UndoChain log t l us

theorem getElem?_append_of_some {α : Type} {a b : List α} {i : Nat} {x : α}
    (h : a[i]? = some x) : (a ++ b)[i]? = some x := by
  obtain ⟨hi, -⟩ := List.getElem?_eq_some_iff.mp h
  rw [List.getElem?_append_left hi]
  exact h

theorem UndoChain.append {log : List Record} {t : Nat} {l : Nat} {us : List Nat}
    (r : Record) (h : UndoChain log t l us) : UndoChain (log ++ [r]) t l us := by
  induction h with
  | begin hr ht hb => exact .begin (getElem?_append_of_some hr) ht hb
  | update hr ht hb hp hlt _ ih => exact .update (getElem?_append_of_some hr) ht hb hp hlt ih
  | clr hr ht hb hlt _ ih => exact .clr (getElem?_append_of_some hr) ht hb hlt ih
  | abort hr ht hb hp hlt _ ih => exact .abort (getElem?_append_of_some hr) ht hb hp hlt ih

/-- The newest UPDATE on a chain is where the chain itself goes on. -/
theorem UndoChain.head {log : List Record} {t : Nat} {l u : Nat} {us : List Nat}
    (h : UndoChain log t l (u :: us)) :
    ∃ r l', log[u]? = some r ∧ r.txnId = t ∧ (∃ p s o n k, r.body = .update p s o n k) ∧
      r.prevLsn = some l' ∧ l' < u ∧ UndoChain log t l' us := by
  generalize hx : u :: us = xs at h
  induction h with
  | begin => simp at hx
  | @update l l' r us' hr ht hb hp hlt hrest _ =>
    obtain ⟨rfl, rfl⟩ := List.cons.inj hx
    exact ⟨r, l', hr, ht, hb, hp, hlt, hrest⟩
  | clr _ _ _ _ _ ih => exact ih hx
  | abort _ _ _ _ _ _ ih => exact ih hx

/-- A chain starts at a record of its transaction. -/
theorem UndoChain.record {log : List Record} {t : Nat} {l : Nat} {us : List Nat}
    (h : UndoChain log t l us) : ∃ r, log[l]? = some r ∧ r.txnId = t := by
  cases h with
  | begin hr ht => exact ⟨_, hr, ht⟩
  | update hr ht => exact ⟨_, hr, ht⟩
  | clr hr ht => exact ⟨_, hr, ht⟩
  | abort hr ht => exact ⟨_, hr, ht⟩

theorem UndoChain.lt_length {log : List Record} {t : Nat} {l : Nat} {us : List Nat}
    (h : UndoChain log t l us) : l < log.length := by
  obtain ⟨r, hr, -⟩ := h.record
  exact (List.getElem?_eq_some_iff.mp hr).1

-- ---------------------------------------------------------------------------
-- Histories of transactions
-- ---------------------------------------------------------------------------

/-- What the lifecycle rule guarantees about one open transaction. -/
structure TxnInv (log : List Record) (t : Nat) (v : TxnView) : Prop where
  chain  : UndoChain log t v.last v.pend
  sorted : v.pend.Pairwise (· > ·)
  updates : ∀ u ∈ v.pend, ∃ r, log[u]? = some r ∧ r.txnId = t ∧
    ∃ p s o n k, r.body = .update p s o n k
  isOpen : ∀ u ∈ v.pend, fate t (log.drop (u + 1)) = none
  all    : v.rolling = false → ∀ (i : Nat) (r : Record), log[i]? = some r → r.txnId = t →
    (∃ p s o n k, r.body = .update p s o n k) → fate t (log.drop (i + 1)) = none → i ∈ v.pend

theorem TxnInv.pend_lt {log : List Record} {t : Nat} {v : TxnView} (h : TxnInv log t v)
    {u : Nat} (hu : u ∈ v.pend) : u < log.length := by
  obtain ⟨r, hr, -⟩ := h.updates u hu
  exact (List.getElem?_eq_some_iff.mp hr).1

theorem drop_append_one {log : List Record} {r : Record} {u : Nat} (h : u < log.length) :
    (log ++ [r]).drop (u + 1) = log.drop (u + 1) ++ [r] :=
  List.drop_append_of_le_length (by omega)

/-- A record of another transaction leaves a view's guarantees alone. -/
theorem TxnInv.append_ne {log : List Record} {r : Record} {t : Nat} {v : TxnView}
    (h : TxnInv log t v) (hne : r.txnId ≠ t) : TxnInv (log ++ [r]) t v where
  chain := h.chain.append r
  sorted := h.sorted
  updates u hu := by
    obtain ⟨x, hx, rest⟩ := h.updates u hu
    exact ⟨x, getElem?_append_of_some hx, rest⟩
  isOpen u hu := by
    rw [drop_append_one (h.pend_lt hu), fate_append, h.isOpen u hu]
    simp [fate, hne]
  all hroll i x hx hxt hbody hopen := by
    rcases Nat.lt_or_ge i log.length with hi | hi
    · rw [List.getElem?_append_left hi] at hx
      rw [drop_append_one hi, fate_append] at hopen
      exact h.all hroll i x hx hxt hbody (by
        cases hf : fate t (log.drop (i + 1)) with
        | none => rfl
        | some b => rw [hf] at hopen; simp at hopen)
    · rw [List.getElem?_append_right hi, List.getElem?_singleton] at hx
      split at hx
      · exact absurd (Option.some.inj hx ▸ hxt) hne
      · simp at hx

/-- A view of the transaction's own next record that is neither its BEGIN nor
its end: the obligations that do not depend on which kind it is. -/
theorem TxnInv.append_self {log : List Record} {r : Record} {v w : TxnView}
    (h : TxnInv log r.txnId v) (hfate : fate r.txnId [r] = none)
    (hchain : UndoChain (log ++ [r]) r.txnId w.last w.pend)
    (hsorted : w.pend.Pairwise (· > ·))
    (hpend : ∀ u ∈ w.pend, u ∈ v.pend ∨
      (u = log.length ∧ ∃ p s o n k, r.body = .update p s o n k))
    (hall : w.rolling = false → v.rolling = false ∧ (∀ u ∈ v.pend, u ∈ w.pend) ∧
      ((∃ p s o n k, r.body = .update p s o n k) → log.length ∈ w.pend)) :
    TxnInv (log ++ [r]) r.txnId w where
  chain := hchain
  sorted := hsorted
  updates u hu := by
    rcases hpend u hu with hu | ⟨rfl, hb⟩
    · obtain ⟨x, hx, rest⟩ := h.updates u hu
      exact ⟨x, getElem?_append_of_some hx, rest⟩
    · exact ⟨r, by simp, rfl, hb⟩
  isOpen u hu := by
    rcases hpend u hu with hu | ⟨rfl, hb⟩
    · rw [drop_append_one (h.pend_lt hu), fate_append, h.isOpen u hu, hfate]
      rfl
    · simp [fate]
  all hroll i x hx hxt hbody hopen := by
    obtain ⟨hv, hsub, hnew⟩ := hall hroll
    rcases Nat.lt_or_ge i log.length with hi | hi
    · rw [List.getElem?_append_left hi] at hx
      rw [drop_append_one hi, fate_append, hfate, Option.or_none] at hopen
      exact hsub i (h.all hv i x hx hxt hbody hopen)
    · rw [List.getElem?_append_right hi, List.getElem?_singleton] at hx
      split at hx
      · rename_i hz
        obtain rfl : i = log.length := by omega
        exact hnew (Option.some.inj hx ▸ hbody)
      · simp at hx

/-- **The lifecycle invariant.** In a history LSNs are positions, and every
open transaction's undo chain meets exactly its uncompensated UPDATEs. -/
theorem History.lifecycle {rule : List Record → Record → Prop} {log : List Record}
    (hrule : ∀ l r, rule l r → Lifecycle l r) (h : History rule log) :
    (∀ (i : Nat) (r : Record), log[i]? = some r → r.lsn = i) ∧
    ∀ t v, active log t = some v → TxnInv log t v := by
  induction h with
  | nil => simp
  | @snoc log r _ hr ih =>
    obtain ⟨hlsn, hact⟩ := ih
    obtain ⟨hrl, hlife⟩ := hrule _ _ hr
    refine ⟨?_, ?_⟩
    · intro i x hx
      rcases Nat.lt_or_ge i log.length with hi | hi
      · exact hlsn i x (by rwa [List.getElem?_append_left hi] at hx)
      · rw [List.getElem?_append_right hi, List.getElem?_singleton] at hx
        split at hx
        · rw [← Option.some.inj hx, hrl]
          omega
        · simp at hx
    · intro t w hw
      by_cases ht : r.txnId = t
      · subst ht
        rw [active_append_one_self, stepTxn] at hw
        have hself : (log ++ [r])[log.length]? = some r := by simp
        have hvlast : ∀ {v}, active log r.txnId = some v → v.last < log.length :=
          fun hv => (hact _ _ hv).chain.lt_length
        cases hb : r.body with
        | begin =>
          rw [hb] at hw hlife
          obtain rfl := Option.some.inj hw
          rw [hrl]
          refine ⟨.begin hself rfl hb, List.Pairwise.nil, by simp, by simp, ?_⟩
          -- an UPDATE of an earlier instance was ended before this BEGIN
          intro _ i x hx hxt hbody hopen
          exfalso
          rcases Nat.lt_or_ge i log.length with hi | hi
          · rw [drop_append_one hi, fate_append] at hopen
            cases hf : fate r.txnId (log.drop (i + 1)) with
            | none => rw [hf] at hopen; simp [fate, hb] at hopen
            | some b => rw [hf] at hopen; simp at hopen
          · rw [List.getElem?_append_right hi, List.getElem?_singleton] at hx
            split at hx
            · obtain rfl := Option.some.inj hx
              obtain ⟨p, s, o, n, k, hbody⟩ := hbody
              rw [hb] at hbody
              cases hbody
            · simp at hx
        | update p s o n k =>
          rw [hb] at hw hlife
          obtain ⟨v, hv, hroll, hprev⟩ := hlife
          rw [hv] at hw
          obtain rfl := Option.some.inj hw
          have hinv := hact _ _ hv
          simp only [hrl]
          refine hinv.append_self (by simp [fate, hb]) ?_ ?_ ?_ ?_
          · exact .update hself rfl ⟨p, s, o, n, k, hb⟩ hprev (hvlast hv) (hinv.chain.append r)
          · exact List.pairwise_cons.mpr ⟨fun u hu => hinv.pend_lt hu, hinv.sorted⟩
          · intro u hu
            rcases List.mem_cons.mp hu with rfl | hu
            · exact Or.inr ⟨rfl, p, s, o, n, k, hb⟩
            · exact Or.inl hu
          · exact fun h => ⟨h, fun u hu => List.mem_cons_of_mem _ hu, fun _ => List.mem_cons_self⟩
        | commit => rw [hb] at hw; simp at hw
        | txnEnd => rw [hb] at hw; simp at hw
        | abort =>
          rw [hb] at hw hlife
          obtain ⟨v, hv, hroll, hprev⟩ := hlife
          rw [hv] at hw
          obtain rfl := Option.some.inj hw
          have hinv := hact _ _ hv
          simp only [hrl]
          refine hinv.append_self (by simp [fate, hb]) ?_ hinv.sorted (fun u hu => Or.inl hu) ?_
          · exact .abort hself rfl hb hprev (hvlast hv) (hinv.chain.append r)
          · intro h
            simp at h
        | clr p s n un =>
          rw [hb] at hw hlife
          obtain ⟨v, u, us, ru, hv, hpend, hprev, hru, -, hun⟩ := hlife
          rw [hv] at hw
          obtain rfl := Option.some.inj hw
          have hinv := hact _ _ hv
          have hchain := hinv.chain
          rw [hpend] at hchain
          obtain ⟨ru', l', hru', -, -, hp', hlt, hrest⟩ := hchain.head
          rw [hru] at hru'
          obtain rfl := Option.some.inj hru'
          have hul : u < log.length := (List.getElem?_eq_some_iff.mp hru).1
          simp only [hrl, hpend, List.tail_cons]
          refine hinv.append_self (by simp [fate, hb]) ?_ ?_ ?_ ?_
          · exact .clr hself rfl ⟨p, s, n, by rw [hb, hun, hp']⟩ (Nat.lt_trans hlt hul) (hrest.append r)
          · have hs := hinv.sorted
            rw [hpend] at hs
            exact (List.pairwise_cons.mp hs).2
          · intro x hx
            exact Or.inl (by rw [hpend]; exact List.mem_cons_of_mem _ hx)
          · intro h
            simp at h
        | checkpointBegin =>
          rw [hb] at hw
          refine (hact _ _ hw).append_self (by simp [fate, hb]) ((hact _ _ hw).chain.append r)
            (hact _ _ hw).sorted (fun u hu => Or.inl hu) fun h => ⟨h, fun u hu => hu, ?_⟩
          rintro ⟨p, s, o, n, k, h⟩
          rw [hb] at h
          cases h
        | checkpointEnd att dpt =>
          rw [hb] at hw
          refine (hact _ _ hw).append_self (by simp [fate, hb]) ((hact _ _ hw).chain.append r)
            (hact _ _ hw).sorted (fun u hu => Or.inl hu) fun h => ⟨h, fun u hu => hu, ?_⟩
          rintro ⟨p, s, o, n, k, h⟩
          rw [hb] at h
          cases h
      · rw [active_append_one_ne ht] at hw
        exact (hact t w hw).append_ne ht

end PersistX
