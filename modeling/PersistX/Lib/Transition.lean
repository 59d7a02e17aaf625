import Mathlib.Logic.Function.Iterate

/-!
# Runs of a partial transition function

A machine is a function `step : S → E → Option S` (`none`: the event is not
enabled), and `ok : S → E → Prop` says which events a run may take from which
states. `Steps` is the runs, `Steps.invariant` the induction rule, and
`exists_iterate` the termination rule for a total step that makes a measure
smaller until it is done. `run` executes a list of events; `Steps.of_run` turns
an execution that a decision procedure for `ok` accepts into a run. `answers` is
for machines that answer calls; `answers_eq_of_map` compares two of them.
-/

namespace Transition

variable {S E : Type} {step : S → E → Option S} {ok ok' : S → E → Prop} {a b c : S}

/-- `Steps step ok a b`: a run of allowed events leads from `a` to `b`. -/
inductive Steps (step : S → E → Option S) (ok : S → E → Prop) (a : S) : S → Prop where
  | refl : Steps step ok a a
  | snoc {b c : S} {e : E} : Steps step ok a b → ok b e → step b e = some c → Steps step ok a c

/-- What every allowed step keeps holds at the end of every run. -/
theorem Steps.invariant {I : S → Prop} (hstep : ∀ s e s', I s → ok s e → step s e = some s' → I s')
    (ha : I a) (h : Steps step ok a b) : I b := by
  induction h with
  | refl => exact ha
  | snoc _ hok hs ih => exact hstep _ _ _ ih hok hs

/-- One event more. -/
theorem Steps.next (h : Steps step ok a b) (e : E) (hok : ok b e) (hs : step b e = some c) :
    Steps step ok a c :=
  h.snoc hok hs

theorem Steps.trans (h : Steps step ok a b) (h' : Steps step ok b c) : Steps step ok a c := by
  induction h' with
  | refl => exact h
  | snoc _ hok hs ih => exact ih.snoc hok hs

/-- A run under one rule is a run under another one that an invariant makes weaker. -/
theorem Steps.mono {I : S → Prop} (hI : ∀ s e s', I s → ok s e → step s e = some s' → I s')
    (hok : ∀ s e, I s → ok s e → ok' s e) (ha : I a) (h : Steps step ok a b) :
    Steps step ok' a b := by
  induction h with
  | refl => exact .refl
  | snoc hrun he hs ih => exact ih.snoc (hok _ _ (hrun.invariant hI ha) he) hs

/-- A run under one rule is a run under a weaker one. -/
theorem Steps.imp (hok : ∀ s e, ok s e → ok' s e) (h : Steps step ok a b) : Steps step ok' a b :=
  h.mono (I := fun _ => True) (fun _ _ _ _ _ _ => trivial) (fun s e _ => hok s e) trivial

/-- One machine runs wherever another one does that follows each of its steps. -/
theorem Steps.simulated {F : Type} {step₂ : S → F → Option S} {ok₂ : S → F → Prop}
    (hstep : ∀ s e s', ok s e → step s e = some s' → Steps step₂ ok₂ s s') (h : Steps step ok a b) :
    Steps step₂ ok₂ a b := by
  induction h with
  | refl => exact .refl
  | snoc _ hok hs ih => exact ih.trans (hstep _ _ _ hok hs)

/-- Execute events, up to the first that is not enabled or not accepted. -/
def run (step : S → E → Option S) (check : S → E → Bool) (s : S) : List E → S × Bool
  | [] => (s, true)
  | e :: es =>
    match check s e, step s e with
    | true, some s' => run step check s' es
    | _, _ => (s, false)

/-- A checked execution is a run. -/
theorem Steps.of_run {check : S → E → Bool} (hcheck : ∀ s e, check s e = true → ok s e)
    {es : List E} (h : (run step check a es).2 = true) :
    Steps step ok a (run step check a es).1 := by
  induction es generalizing a with
  | nil => exact .refl
  | cons e es ih =>
    rw [run] at h ⊢
    split at h
    · rename_i s' hc hs
      exact (Steps.refl.snoc (hcheck a e hc) hs).trans (ih h)
    · cases h

/-- What a machine that answers every call says to a list of them. -/
def answers {A : Type} (call : S → E → S × A) : S → List E → List A
  | _, [] => []
  | s, e :: es => (call s e).2 :: answers call (call s e).1 es

/-- One machine answers like another one that it is mapped to. -/
theorem answers_eq_of_map {T A : Type} {call : S → E → S × A} {call' : T → E → T × A} (f : S → T)
    (h : ∀ s e, f (call s e).1 = (call' (f s) e).1 ∧ (call s e).2 = (call' (f s) e).2) (s : S)
    (es : List E) : answers call s es = answers call' (f s) es := by
  induction es generalizing s with
  | nil => rfl
  | cons e es ih => rw [answers, answers, (h s e).2, ih, (h s e).1]

/-- A total step that keeps `I` and makes `μ` smaller until `done` gets there. -/
theorem exists_iterate {f : S → S} (I done : S → Prop) (μ : S → Nat)
    (hI : ∀ s, I s → ¬ done s → I (f s)) (hμ : ∀ s, I s → ¬ done s → μ (f s) < μ s) :
    ∀ s, I s → ∃ n, done (f^[n] s) ∧ ∀ i < n, ¬ done (f^[i] s) := by
  intro s
  generalize hm : μ s = m
  induction m using Nat.strongRecOn generalizing s with
  | ind m ih =>
    intro hs
    by_cases hd : done s
    · exact ⟨0, hd, fun i hi => absurd hi (Nat.not_lt_zero i)⟩
    · obtain ⟨n, hn, hlt⟩ := ih (μ (f s)) (hm ▸ hμ s hs hd) (f s) rfl (hI s hs hd)
      refine ⟨n + 1, by rwa [Function.iterate_succ_apply], fun i hi => ?_⟩
      cases i with
      | zero => exact hd
      | succ i =>
        rw [Function.iterate_succ_apply]
        exact hlt i (Nat.lt_of_succ_lt_succ hi)

end Transition
