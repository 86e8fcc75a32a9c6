import Mathlib.Logic.Relation

/-!
# Transition systems and their invariants

A `System` is a set of initial states and a step relation.
`Reachable.invariant` turns a step lemma into a fact about every reachable
state.
-/

namespace AccessPath.Library

universe u v

/-- Initial states and one-step transitions. -/
structure System (σ : Type u) where
  init : σ → Prop
  step : σ → σ → Prop

/-- The states some run of the system passes through. -/
inductive System.Reachable {σ : Type u} (S : System σ) : σ → Prop
  | init {s : σ} : S.init s → S.Reachable s
  | step {s s' : σ} : S.Reachable s → S.step s s' → S.Reachable s'

variable {σ : Type u} {τ : Type v} {S : System σ} {T : System τ}

/-- What holds initially and is kept by every step from a reachable state
holds in every reachable state. -/
theorem System.Reachable.invariant {Inv : σ → Prop} (initial : ∀ s, S.init s → Inv s)
    (preserved : ∀ s s', S.Reachable s → Inv s → S.step s s' → Inv s')
    {s : σ} (ran : S.Reachable s) : Inv s := by
  induction ran with
  | init start => exact initial _ start
  | step old next ih => exact preserved _ _ old ih next

/-! ## Systems given by a step function -/

universe w

/-- An operation that cannot be issued in a state gives `none`. -/
structure Machine (σ : Type u) (ι : Type w) where
  init : σ → Prop
  step : σ → ι → Option σ

variable {ι : Type w} {M : Machine σ ι}

/-- The runs of a machine in which every operation meets a condition when it is
issued. -/
def Machine.guarded (M : Machine σ ι) (condition : σ → ι → Prop) : System σ where
  init := M.init
  step := fun s s' => ∃ op, condition s op ∧ M.step s op = some s'

/-- All runs of a machine. -/
abbrev Machine.system (M : Machine σ ι) : System σ := M.guarded fun _ _ => True

/-- A step that is guarded by a condition on something that must be there. -/
theorem exists_of_guard {o : Option τ} {P : τ → Prop} [DecidablePred P] {f : τ → Option σ} {s : σ}
    (run : (o.bind fun e => if P e then f e else none) = some s) :
    ∃ e, o = some e ∧ P e ∧ f e = some s := by
  obtain ⟨e, present, run⟩ := Option.bind_eq_some_iff.mp run
  split at run
  · rename_i holds
    exact ⟨e, present, holds, run⟩
  · cases run

section

variable (condition : σ → ι → Prop) [∀ s op, Decidable (condition s op)]

/-- Issue a list of operations in turn, each only if it meets the condition. -/
def Machine.run (M : Machine σ ι) : σ → List ι → Option σ
  | s, [] => some s
  | s, op :: ops =>
    if condition s op then (M.step s op).bind fun s' => M.run s' ops else none

variable {condition}

theorem Machine.reachable_of_run {s s' : σ} {ops : List ι}
    (reached : (M.guarded condition).Reachable s) (ran : M.run condition s ops = some s') :
    (M.guarded condition).Reachable s' := by
  induction ops generalizing s with
  | nil =>
    cases ran
    exact reached
  | cons op ops ih =>
    unfold Machine.run at ran
    split at ran
    · rename_i met
      obtain ⟨_, stepped, rest⟩ := Option.bind_eq_some_iff.mp ran
      exact ih (.step reached ⟨op, met, stepped⟩) rest
    · cases ran

/-- A list of operations that leads to a state with a given property. -/
theorem Machine.exists_reachable_of_run (M : Machine σ ι) (cond : σ → ι → Prop)
    [∀ s op, Decidable (cond s op)] {s : σ} {P : σ → Prop} [DecidablePred P] (ops : List ι)
    (reached : (M.guarded cond).Reachable s)
    (ran : (M.run cond s ops).any (fun s' => decide (P s')) = true) :
    ∃ s', (M.guarded cond).Reachable s' ∧ P s' := by
  cases leads : M.run cond s ops with
  | none =>
    rw [leads] at ran
    cases ran
  | some s' =>
    rw [leads] at ran
    exact ⟨s', Machine.reachable_of_run reached leads, of_decide_eq_true ran⟩

end

end AccessPath.Library
