import Mathlib.Tactic

/-!
# Run-length lists

A run stands for a number of equal values; a missing value says nothing about
the run that it is in. A reader may take a run of length zero as one of length
one; by `restores_rows_iff` this goes wrong exactly if such a run is followed by
another one.
-/

namespace AccessPath.Library

open List Nat

universe u

/-- A value and how often it is repeated. -/
structure Run (V : Type u) where
  value : V
  count : Nat

variable {V : Type u}

/-- The number of values that a list of runs stands for. -/
def total (runs : List (Run V)) : Nat := (runs.map Run.count).sum

/-- The values in the order in which a reader takes them that takes at least one from
each run. -/
def expanded (runs : List (Run V)) : List V :=
  runs.flatMap fun run => replicate (max run.count 1) run.value

/-- The values agree wherever the second list has one, and the lengths agree. -/
def Restores (read : List V) (values : List (Option V)) : Prop :=
  List.Forall₂ (fun x value => ∀ v ∈ value, x = v) read values

/-- The runs stand for the values, and a run of length zero comes only at the end or
before a run that starts with a different value. -/
def Covers : List (Run V) → List (Option V) → Prop
  | [], values => values = []
  | run :: runs, values =>
    run.count ≤ values.length ∧ (∀ o ∈ values.take run.count, ∀ v ∈ o, run.value = v) ∧
      (run.count = 0 → ∀ next ∈ runs.head?,
        0 < next.count ∧ ∃ v, values.head? = some (some v) ∧ run.value ≠ v) ∧
      Covers runs (values.drop run.count)

/-- No run except the last has length zero. -/
def NoneEmpty : List (Run V) → Prop
  | [] => True
  | run :: runs => (run.count = 0 → runs = []) ∧ NoneEmpty runs

theorem total_cons (run : Run V) (runs : List (Run V)) :
    total (run :: runs) = run.count + total runs := by
  rw [total, map_cons, sum_cons]
  rfl

theorem total_append (runs runs' : List (Run V)) :
    total (runs ++ runs') = total runs + total runs' := by
  rw [total, map_append, List.sum_append]
  rfl

theorem rows_cons (run : Run V) (runs : List (Run V)) :
    expanded (run :: runs) = replicate (max run.count 1) run.value ++ expanded runs := rfl

theorem total_le_length_expanded (runs : List (Run V)) : total runs ≤ (expanded runs).length := by
  induction runs with
  | nil => exact le_refl 0
  | cons run runs ih =>
    rw [total_cons, rows_cons, length_append, length_replicate]
    have := le_max_left run.count 1
    omega

/-! ## Restoring -/

variable {vs : List (Option V)}

theorem restores_append_iff {read read' : List V} : Restores (read ++ read') vs ↔
      Restores read (vs.take read.length) ∧ Restores read' (vs.drop read.length) := by
  induction read generalizing vs with
  | nil => exact ⟨fun restores => ⟨.nil, restores⟩, fun restores => restores.2⟩
  | cons x read ih =>
    cases vs with
    | nil =>
      constructor
      · intro restores
        cases restores
      · intro restores
        cases restores.1
    | cons v vs =>
      rw [cons_append, length_cons, take_succ_cons, drop_succ_cons,
        Restores, Restores, forall₂_cons, forall₂_cons, and_assoc]
      exact and_congr_right fun _ => ih

theorem restores_replicate {n : Nat} {x : V}
    (len : vs.length = n) (same : ∀ o ∈ vs, ∀ v ∈ o, x = v) : Restores (replicate n x) vs := by
  induction vs generalizing n with
  | nil =>
    cases len
    exact .nil
  | cons value vs ih =>
    cases len
    exact .cons (same value mem_cons_self) (ih rfl fun o got => same o (mem_cons_of_mem _ got))

theorem Covers.cons {run : Run V} {runs : List (Run V)} {b vs : List (Option V)}
    (len : b.length = run.count) (same : ∀ o ∈ b, ∀ v ∈ o, run.value = v)
    (sep : run.count = 0 → ∀ next ∈ runs.head?,
      0 < next.count ∧ ∃ v, vs.head? = some (some v) ∧ run.value ≠ v)
    (cover : Covers runs vs) : Covers (run :: runs) (b ++ vs) := by
  refine ⟨?_, ?_, ?_, ?_⟩
  · rw [length_append, len]
    omega
  · rw [← len, take_left]
    exact same
  · intro emp
    rw [eq_nil_of_length_eq_zero (len.trans emp)]
    exact sep emp
  · rw [← len, drop_left]
    exact cover

theorem Covers.append {runs runs' : List (Run V)} (cover : Covers (runs ++ runs') vs) :
    total runs ≤ vs.length ∧ Covers runs' (vs.drop (total runs)) := by
  induction runs generalizing vs with
  | nil => exact ⟨zero_le _, cover⟩
  | cons run runs ih =>
    obtain ⟨_, -, -, rest⟩ := cover
    obtain ⟨fits, rest⟩ := ih rest
    rw [length_drop] at fits
    rw [drop_drop] at rest
    rw [total_cons]
    exact ⟨by omega, rest⟩

/-- A reader of the first runs gets them right exactly if none of them is empty. -/
theorem restores_rows_iff {runs runs' : List (Run V)} (cover : Covers (runs ++ runs') vs) :
    Restores ((expanded runs).take (total runs)) (vs.take (total runs)) ↔ NoneEmpty runs := by
  induction runs generalizing vs with
  | nil => exact ⟨fun _ => trivial, fun _ => .nil⟩
  | cons run runs ih =>
    obtain ⟨inside, same, sep, rest⟩ := cover
    have restIff := ih rest
    have fits := (Covers.append rest).1
    rw [length_drop] at fits
    rw [total_cons, rows_cons, NoneEmpty]
    by_cases empty : run.count = 0
    · cases runs with
      | nil =>
        rw [empty]
        exact ⟨fun _ => ⟨fun _ => rfl, trivial⟩, fun _ => .nil⟩
      | cons next runs =>
        -- the reader gets the value of the empty run first
        obtain ⟨_, v, fst, differ⟩ := sep empty next rfl
        refine ⟨fun restores => absurd ?_ differ,
          fun noneEmpty => absurd (noneEmpty.1 empty) (cons_ne_nil _ _)⟩
        obtain ⟨n, some_left⟩ : ∃ n, run.count + total (next :: runs) = n + 1 := by
          rw [total_cons]
          exact ⟨run.count + (next.count + total runs) - 1, by omega⟩
        obtain ⟨vs, rfl⟩ := head?_eq_some_iff.mp fst
        rw [some_left, empty, take_succ_cons] at restores
        exact (forall₂_cons.mp restores).1 v rfl
    · have positive : max run.count 1 = run.count := by omega
      have read : (replicate run.count run.value ++ expanded runs).take (run.count + total runs) =
            replicate run.count run.value ++ (expanded runs).take (total runs) := by
        rw [take_append, length_replicate, Nat.add_sub_cancel_left, take_of_length_le]
        rw [length_replicate]
        omega
      have here : Restores (replicate run.count run.value) (vs.take run.count) :=
        restores_replicate (length_take_of_le inside) same
      rw [positive, read, restores_append_iff, length_replicate, take_take,
        min_eq_left (le_add_right _ _), drop_take, Nat.add_sub_cancel_left, restIff]
      exact ⟨fun restores => ⟨fun zero => absurd zero empty, restores.2⟩,
        fun noneEmpty => ⟨here, noneEmpty.2⟩⟩

theorem restores_flatMap_iff {ps : List (List (Run V))} (cover : Covers ps.flatten vs) :
    Restores (ps.flatMap fun runs => (expanded runs).take (total runs)) vs ↔
      ∀ runs ∈ ps, NoneEmpty runs := by
  induction ps generalizing vs with
  | nil =>
    have empty : vs = [] := cover
    rw [empty]
    exact ⟨fun _ runs found => (by cases found), fun _ => .nil⟩
  | cons runs ps ih =>
    rw [flatten_cons] at cover
    have len : ((expanded runs).take (total runs)).length = total runs :=
      length_take_of_le (total_le_length_expanded runs)
    rw [flatMap_cons, restores_append_iff, len, restores_rows_iff cover,
      ih (Covers.append cover).2, forall_mem_cons]

end AccessPath.Library
