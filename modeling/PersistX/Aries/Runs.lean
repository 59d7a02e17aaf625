import PersistX.Aries.Correctness

/-!
# PersistX — runs without checkpoints

The runs of transactions, flushes, evictions, crashes and recoveries in which
no checkpoint is taken (`Plain`). Their logs hold no CHECKPOINT_END, so
analysis starts at the first record and a crash may leave any image of a page
that was ever written.

`protocolCheck` and `undoRoomCheck` decide the rules, for runs that are
executed.
-/

namespace PersistX

open PageOps LawfulPageOps Transition

variable {P : Type}

/-- The log has grown by records that are no CHECKPOINT_END. -/
def Grows (a b : List Record) : Prop := ∃ l, b = a ++ l ∧ NoEnd l

theorem Grows.refl (a : List Record) : Grows a a :=
  ⟨[], (List.append_nil a).symm, fun r hr => by cases hr⟩

theorem Grows.of_eq {a b : List Record} (h : b = a) : Grows a b := h ▸ Grows.refl a

theorem Grows.noEnd {a b : List Record} (h : Grows a b) (ha : NoEnd a) : NoEnd b := by
  obtain ⟨l, rfl, hl⟩ := h
  intro r hr
  rcases List.mem_append.mp hr with hr | hr
  · exact ha r hr
  · exact hl r hr

section Log

variable [PageOps P]

theorem Grows.append (lm : LogManager) (t : Nat) (pr : Option Nat) {b : RecordBody}
    (hb : b.isCheckpointEnd = false) : Grows lm.log (lm.append t pr b).1.log := by
  refine ⟨_, LogManager.append_log _ _ _, fun r hr => ?_⟩
  rw [List.mem_singleton.mp hr]
  exact hb

theorem Sys.abortStep_log {s s' : Sys P} {t : Nat} (hs : s.abortStep t = some s') :
    Grows s.log s'.log := by
  have hflush : s.lm.flushAll.log = s.lm.log := LogManager.flushAll_log
  have happ : ∀ t pr (b : RecordBody), b.isCheckpointEnd = false →
      Grows s.lm.log (s.lm.flushAll.append t pr b).1.log := by
    intro t pr b hb
    rw [← hflush]
    exact .append _ t pr hb
  rw [Sys.abortStep] at hs
  split at hs
  · simp only [LogManager.readRecordAtLsn] at hs
    split at hs
    · obtain rfl := Option.some.inj hs
      exact .of_eq hflush
    · split at hs
      · obtain rfl := Option.some.inj hs
        exact .of_eq hflush
      · obtain rfl := Option.some.inj hs
        exact happ _ _ _ rfl
      · obtain rfl := Option.some.inj hs
        exact .of_eq hflush
      · obtain rfl := Option.some.inj hs
        exact .of_eq hflush
  · obtain rfl := Option.some.inj hs
    exact .refl _
  · cases hs

/-- Flushing a page writes out the log buffer or leaves the log alone. -/
theorem flushPage_lm (s : Sys P) (p : Nat) : ((s.flushPage p).lm = s.lm ∨
    (s.flushPage p).lm = s.lm.flushAll) ∧ (s.flushPage p).mode = s.mode := by
  rw [Sys.flushPage]
  split
  · exact ⟨LogManager.flush_eq _, rfl⟩
  · exact ⟨Or.inl rfl, rfl⟩

theorem evict_lm (s : Sys P) (p : Nat) : ((s.evict p).lm = s.lm ∨
    (s.evict p).lm = s.lm.flushAll) ∧ (s.evict p).mode = s.mode := by
  rw [Sys.evict]
  split
  · rename_i f hf
    cases hd : f.dirty with
    | true => exact flushPage_lm s p
    | false => exact ⟨Or.inl rfl, rfl⟩
  · exact ⟨Or.inl rfl, rfl⟩

theorem flushPage_tm (s : Sys P) (p : Nat) : (s.flushPage p).tm = s.tm := by
  rw [Sys.flushPage]
  split <;> rfl

theorem evict_tm (s : Sys P) (p : Nat) : (s.evict p).tm = s.tm := by
  rw [Sys.evict]
  split
  · rename_i f hf
    cases hd : f.dirty with
    | true => exact flushPage_tm s p
    | false => rfl
  · rfl

theorem flushPage_ckpt (s : Sys P) (p : Nat) : (s.flushPage p).ckpt = s.ckpt := by
  rw [Sys.flushPage]
  split <;> rfl

theorem evict_ckpt (s : Sys P) (p : Nat) : (s.evict p).ckpt = s.ckpt := by
  rw [Sys.evict]
  split
  · rename_i f hf
    cases hd : f.dirty with
    | true => exact flushPage_ckpt s p
    | false => rfl
  · rfl

theorem LogManager.log_eq_of_flush {lm lm' : LogManager} (h : lm' = lm ∨ lm' = lm.flushAll) :
    lm'.log = lm.log := by
  rcases h with rfl | rfl
  · rfl
  · exact LogManager.flushAll_log

/-- A step of a run without checkpoints, by the protocol and with room for what it undoes. -/
def Plain (s : Sys P) (e : Event P) : Prop :=
  Protocol s e ∧ UndoRoom s e ∧ e.isCkpt = false

end Log

section Invariant

variable [LawfulPageOps P]

/-- No event but those of a checkpoint logs a CHECKPOINT_END. -/
theorem Inv.step_log {strict : Prop} {s s' : Sys P} {e : Event P} (hinv : Inv strict s)
    (he : e.isCkpt = false) (hcrash : ∀ choice, e ≠ .crash choice)
    (hs : PersistX.step s e = some s') : Grows s.log s'.log := by
  cases e with
  | begin =>
    simp only [PersistX.step, Option.ite_none_right_eq_some] at hs
    obtain rfl := Option.some.inj hs.2
    exact .append s.lm _ _ rfl
  | update t p op key =>
    simp only [PersistX.step, Option.ite_none_right_eq_some, Sys.update] at hs
    obtain ⟨-, hs⟩ := hs
    split at hs
    · rw [Option.map_eq_some_iff] at hs
      obtain ⟨x, -, rfl⟩ := hs
      exact .append s.lm _ _ rfl
    · cases hs
  | commitLog t =>
    simp only [PersistX.step, Option.ite_none_right_eq_some, Sys.commitLog] at hs
    obtain ⟨-, hs⟩ := hs
    split at hs
    · obtain rfl := Option.some.inj hs
      exact .append s.lm _ _ rfl
    · cases hs
  | commitForce t =>
    simp only [PersistX.step, Option.ite_none_right_eq_some, Sys.commitForce] at hs
    obtain ⟨-, hs⟩ := hs
    split at hs
    · obtain rfl := Option.some.inj hs
      exact .of_eq (LogManager.flush_log _)
    · cases hs
  | commitEnd t =>
    simp only [PersistX.step, Option.ite_none_right_eq_some, Sys.commitEnd] at hs
    obtain ⟨-, hs⟩ := hs
    split at hs
    · obtain rfl := Option.some.inj hs
      exact .append s.lm _ _ rfl
    · cases hs
  | abortLog t =>
    simp only [PersistX.step, Option.ite_none_right_eq_some, Sys.abortLog] at hs
    obtain ⟨-, hs⟩ := hs
    split at hs
    · obtain rfl := Option.some.inj hs
      exact .append s.lm _ _ rfl
    · cases hs
  | abortStep t =>
    simp only [PersistX.step, Option.ite_none_right_eq_some] at hs
    exact Sys.abortStep_log hs.2
  | abortEnd t =>
    simp only [PersistX.step, Option.ite_none_right_eq_some, Sys.abortEnd] at hs
    obtain ⟨-, hs⟩ := hs
    split at hs
    · obtain rfl := Option.some.inj hs
      exact .append s.lm _ _ rfl
    · cases hs
  | newPage p d =>
    simp only [PersistX.step, Option.ite_none_right_eq_some] at hs
    obtain rfl := Option.some.inj hs.2
    exact .refl _
  | flushPage p =>
    simp only [PersistX.step, Option.ite_none_right_eq_some] at hs
    obtain rfl := Option.some.inj hs.2
    exact .of_eq (LogManager.log_eq_of_flush (flushPage_lm s p).1)
  | evict p =>
    simp only [PersistX.step, Option.ite_none_right_eq_some] at hs
    obtain rfl := Option.some.inj hs.2
    exact .of_eq (LogManager.log_eq_of_flush (evict_lm s p).1)
  | flushLog =>
    simp only [PersistX.step, Option.ite_none_right_eq_some] at hs
    obtain rfl := Option.some.inj hs.2
    exact .of_eq LogManager.flushAll_log
  | crash choice => exact absurd rfl (hcrash choice)
  | recoverStep =>
    simp only [PersistX.step, Option.ite_none_left_eq_some] at hs
    obtain rfl := Option.some.inj hs.2
    obtain ⟨l, hl, hundo⟩ := hinv.recoverStep_log
    exact ⟨l, hl, hundo.noEnd⟩
  | ckptBegin => cases he
  | ckptSnapshot => cases he
  | ckptEnd => cases he
  | ckptForce p => cases he
  | ckptWrite => cases he
  | ckptFinish => cases he

/-- A log without CHECKPOINT_END stays one. -/
theorem NoEnd.step {strict : Prop} {s s' : Sys P} {e : Event P} (h : NoEnd s.log)
    (hinv : Inv strict s) (he : e.isCkpt = false) (hs : PersistX.step s e = some s') :
    NoEnd s'.log := by
  by_cases hcrash : ∃ choice, e = .crash choice
  · obtain ⟨choice, rfl⟩ := hcrash
    obtain rfl := Option.some.inj hs
    show NoEnd (s.lm.file ++ [])
    rw [List.append_nil]
    exact fun r hr => h r (List.mem_append_left _ hr)
  · exact (hinv.step_log he (fun choice hc => hcrash ⟨choice, hc⟩) hs).noEnd h

theorem Plain.ok {s : Sys P} {e : Event P} (h : Plain s e) (hno : NoEnd s.log) : Ok True s e := by
  obtain ⟨hprot, hroom, hck⟩ := h
  refine ⟨hprot, hroom, Or.inl ?_, fun _ _ => Or.inl trivial, fun _ => ?_⟩
  · rw [lastCheckpoint_eq_none]
    exact fun r hr => hno r (List.mem_append_left _ hr)
  · cases e <;> trivial

/-- **The invariant of runs without checkpoints.** -/
theorem plain_inv {s : Sys P} (h : Steps step Plain Sys.init s) : Inv True s ∧ NoEnd s.log := by
  refine h.invariant (I := fun s => Inv True s ∧ NoEnd s.log) ?_
    ⟨Inv.init, fun r hr => by cases hr⟩
  rintro s e s' ⟨hinv, hno⟩ hok hs
  exact ⟨hinv.step (hok.ok hno) hs, hno.step hinv hok.2.2 hs⟩

end Invariant

/-- What was written last is an image written earlier, or zeros. -/
theorem BufferManager.readPage_mem {P : Type} [PageOps P] (bm : BufferManager P) (p : Nat) :
    bm.readPage p ∈ bm.images p ∨ bm.readPage p = zero := by
  rw [BufferManager.readPage]
  cases bm.images p with
  | nil => exact Or.inr rfl
  | cons x l => exact Or.inl List.mem_cons_self

/-- A step of transactions that keep to the protocol, without checkpoints. -/
def Transactions [PageOps P] (s : Sys P) (e : Event P) : Prop := Protocol s e ∧ e.isCkpt = false

-- ---------------------------------------------------------------------------
-- Deciding the rules
-- ---------------------------------------------------------------------------

/-- An id that no record carries is not open. -/
theorem active_eq_none {log : List Record} {t : Nat} (h : ∀ r ∈ log, r.txnId ≠ t) :
    active log t = none := by
  induction log using List.reverseRecOn with
  | nil => rfl
  | append_singleton l r ih =>
    rw [active_append_one_ne (h r (by simp)), ih fun x hx => h x (List.mem_append_left _ hx)]

theorem not_heldByOther {log : List Record} {t : Nat} (h : ∀ r ∈ log, r.txnId = t) (p slot : Nat) :
    ¬ HeldByOther log t p slot := by
  rintro ⟨t', v, u, o, hne, hv, -⟩
  rw [active_eq_none fun r hr heq => hne (heq.symm.trans (h r hr))] at hv
  cases hv

/-- Whether another open transaction still has to undo something on this slot. -/
def heldByOther (log : List Record) (t p slot : Nat) : Bool :=
  (log.map (·.txnId)).any fun t' => t' != t && ((active log t').elim [] (·.pend)).any fun u =>
    match log[u]?.map Record.body with
    | some (.update p' slot' _ _ _) => p' == p && slot' == slot
    | _ => false

theorem not_heldByOther_of_check {log : List Record} {t p slot : Nat}
    (h : heldByOther log t p slot = false) : ¬ HeldByOther log t p slot := by
  rintro ⟨t', v, u, o, hne, hv, hu, r, n, k, hr, hb⟩
  rw [heldByOther, List.any_eq_false] at h
  have hmem : t' ∈ log.map (·.txnId) := by
    by_contra hno
    rw [active_eq_none fun r hr heq => hno (List.mem_map.mpr ⟨r, hr, heq⟩)] at hv
    cases hv
  have := h t' hmem
  simp only [hv, Option.elim_some, Bool.and_eq_true, bne_iff_ne, List.any_eq_true, not_and,
    not_exists] at this
  exact this hne u hu (by simp [hr, hb])

/-- The protocol of a run up to a crash, decided. -/
def protocolCheck [PageOps P] (s : Sys P) : Event P → Bool
  | .update t p op _ => inited (s.bm.page p) &&
      match op.run (s.bm.page p) with
      | some (_, slot, _, _) => !heldByOther s.log t p slot
      | none => true
  | .newPage p _ => s.log.all (·.body.page? != some p) && !decide (p ∈ s.bm.frames)
  | .ckptBegin => s.tm.att.entries.all fun e =>
      match e.2.phase with
      | .committing _ => false
      | .committed _ => false
      | _ => true
  | .crash _ => false
  | _ => true

theorem protocol_of_check [PageOps P] {s : Sys P} {e : Event P} (h : protocolCheck s e = true) :
    Protocol s e := by
  cases e with
  | update t p op k =>
    simp only [protocolCheck, Bool.and_eq_true] at h
    refine ⟨h.1, fun x slot old new hop => not_heldByOther_of_check ?_⟩
    have := h.2
    rw [hop] at this
    simpa using this
  | newPage p d =>
    simp only [protocolCheck, Bool.and_eq_true, List.all_eq_true, bne_iff_ne, Bool.not_eq_true',
      decide_eq_false_iff_not] at h
    exact h
  | ckptBegin =>
    simp only [protocolCheck, List.all_eq_true] at h
    intro t prev c
    constructor
    · intro hl
      have := h _ (AList.mem_lookup_iff.mp hl)
      simp at this
    · intro hl
      have := h _ (AList.mem_lookup_iff.mp hl)
      simp at this
  | crash choice => cases h
  | _ => trivial

/-- `RoomAt`, decided. -/
def roomAtCheck [PageOps P] (s : Sys P) (u : Nat) : Bool :=
  match s.log[u]?.map Record.body with
  | some (.update p slot old new _) => undoFits (s.bm.page p) slot old new
  | _ => true

theorem roomAt_of_check [PageOps P] {s : Sys P} {u : Nat} (h : roomAtCheck s u = true) :
    RoomAt s u := by
  intro r p slot old new k hr hb
  rw [roomAtCheck, hr, Option.map_some, hb] at h
  exact h

/-- `UndoRoom`, decided. -/
def undoRoomCheck [PageOps P] (s : Sys P) : Event P → Bool
  | .abortStep t =>
    match s.tm.att.lookup t with
    | some ⟨_, .aborting (some u)⟩ => roomAtCheck s u
    | _ => true
  | .recoverStep =>
    match s.mode with
    | .undo toUndo _ => toUndo.max.elim true (roomAtCheck s)
    | _ => true
  | _ => true

theorem undoRoom_of_check [PageOps P] {s : Sys P} {e : Event P} (h : undoRoomCheck s e = true) :
    UndoRoom s e := by
  cases e with
  | abortStep t =>
    intro last u hl
    rw [undoRoomCheck, hl] at h
    exact roomAt_of_check h
  | recoverStep =>
    intro toUndo att u hmode hmax
    rw [undoRoomCheck, hmode] at h
    simp only [hmax] at h
    exact roomAt_of_check h
  | _ => trivial

/-- Recovery that has come to its end stays there. -/
theorem recoverStep_iterate_of_normal [PageOps P] {s : Sys P} (h : s.mode = .normal) (n : Nat) :
    Sys.recoverStep^[n] s = s := by
  induction n with
  | zero => rfl
  | succ n ih => rw [Function.iterate_succ_apply', ih, Sys.recoverStep, h]

/-- The undo steps of a recovery that takes `n` steps have room. -/
theorem undoRoom_of_normal [PageOps P] {s : Sys P} {n : Nat}
    (hn : (Sys.recoverStep^[n] s).mode = .normal)
    (h : ∀ i < n, undoRoomCheck (Sys.recoverStep^[i] s) .recoverStep = true) (i : Nat) :
    UndoRoom (Sys.recoverStep^[i] s) .recoverStep := by
  rcases Nat.lt_or_ge i n with hi | hi
  · exact undoRoom_of_check (h i hi)
  · rw [← Nat.sub_add_cancel hi, Function.iterate_add_apply, recoverStep_iterate_of_normal hn]
    intro toUndo att u hmode
    rw [hn] at hmode
    cases hmode

theorem Mode.eq_normal {m : Mode} (h : m.isNormal = true) : m = .normal := by
  cases m with
  | normal => rfl
  | _ => cases h

/-- `Plain`, decided, up to a crash. -/
def plainCheck [PageOps P] (s : Sys P) (e : Event P) : Bool :=
  protocolCheck s e && undoRoomCheck s e && !e.isCkpt

theorem plain_of_check [PageOps P] (s : Sys P) (e : Event P) (h : plainCheck s e = true) :
    Plain s e := by
  simp only [plainCheck, Bool.and_eq_true, Bool.not_eq_true'] at h
  exact ⟨protocol_of_check h.1.1, undoRoom_of_check h.1.2, h.2⟩

/-- `CkptSafe`, decided: `enforce_wal` writes nothing, or no dirty page misses
more than its last update. -/
def ckptSafeCheck [PageOps P] (s : Sys P) : Event P → Bool
  | .ckptForce p =>
    (s.bm.frames.lookup p).all fun f =>
      s.lm.buffer.isEmpty || s.lm.flushedLsn.any (pageLsn f.page ≤ ·) ||
      s.bm.frames.entries.all fun e => !e.2.dirty || s.log.zipIdx.all fun x =>
        !(x.1.body.page? == some e.1) || decide (x.2 ≤ pageLsn (s.bm.readPage e.1)) ||
          decide (pageLsn e.2.page ≤ x.2)
  | _ => true

theorem ckptSafe_of_check [PageOps P] {s : Sys P} {e : Event P} (h : ckptSafeCheck s e = true) :
    CkptSafe s e := by
  cases e with
  | ckptForce p =>
    intro f hf hforce q g hg hdirty j r hr hp hmiss
    rw [ckptSafeCheck, hf, Option.all_some, Bool.or_eq_true, Bool.or_eq_true] at h
    rcases h with (h | h) | h
    · exact absurd (List.isEmpty_iff.mp h) hforce.1
    · cases hl : s.lm.flushedLsn with
      | none => simp [hl] at h
      | some l =>
        have := hforce.2 l hl
        simp only [hl, Option.any_some, decide_eq_true_eq] at h
        omega
    · have hq := List.all_eq_true.mp h ⟨q, g⟩ (AList.mem_lookup_iff.mp hg)
      simp only [hdirty, Bool.not_true, Bool.false_or, List.all_eq_true] at hq
      have := hq (r, j) (List.mem_zipIdx_iff_getElem?.mpr hr)
      simp only [hp, beq_self_eq_true, Bool.not_true, Bool.false_or, Bool.or_eq_true,
        decide_eq_true_eq] at this
      omega
  | _ => trivial

end PersistX
