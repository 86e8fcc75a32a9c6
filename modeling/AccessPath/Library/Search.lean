import Mathlib.Data.List.Infix

/-!
# Searching for segments

The first occurrence of a sequence in another one, and of several segments one after the other.
Looking for the first occurrence of each segment is enough, as what matches after a later one also
matches after an earlier one.
-/

namespace AccessPath.Library

open List

variable {α : Type} [DecidableEq α] {pat hay : List α}

/-- The position of the first occurrence. -/
def firstOccurrence (needle : List α) : List α → Option Nat
  | [] => if needle = [] then some 0 else none
  | a :: rest =>
    if needle <+: a :: rest then some 0 else (firstOccurrence needle rest).map (· + 1)

/-- The first occurrence is where the needle is, and it is nowhere before. -/
theorem firstOccurrence_eq_some {k : Nat} (got : firstOccurrence pat hay = some k) :
    pat <+: hay.drop k ∧ ∀ j < k, ¬pat <+: hay.drop j := by
  induction hay generalizing k with
  | nil =>
    rw [firstOccurrence] at got
    split_ifs at got with emp
    cases got
    exact ⟨emp ▸ nil_prefix, fun j less => absurd less (Nat.not_lt_zero j)⟩
  | cons a rest ih =>
    rw [firstOccurrence] at got
    split_ifs at got with here
    · cases got
      exact ⟨here, fun j less => absurd less (Nat.not_lt_zero j)⟩
    · obtain ⟨_, fst, rfl⟩ := Option.map_eq_some_iff.mp got
      obtain ⟨there, pre⟩ := ih fst
      refine ⟨there, fun j less => ?_⟩
      cases j with
      | zero => exact here
      | succ j => exact pre j (Nat.lt_of_succ_lt_succ less)

theorem firstOccurrence_eq_none (gone : firstOccurrence pat hay = none) (k : Nat) :
    ¬pat <+: hay.drop k := by
  induction hay generalizing k with
  | nil =>
    rw [firstOccurrence] at gone
    split_ifs at gone with emp
    rw [drop_nil, prefix_nil]
    exact emp
  | cons a rest ih =>
    rw [firstOccurrence] at gone
    split_ifs at gone with here
    cases k with
    | zero => exact here
    | succ k => exact ih (Option.map_eq_none_iff.mp gone) k

theorem firstOccurrence_eq_of {r : Option Nat}
    (got : ∀ k ∈ r, pat <+: hay.drop k ∧ ∀ j < k, ¬pat <+: hay.drop j)
    (gone : r = none → ∀ k, ¬pat <+: hay.drop k) :
    firstOccurrence pat hay = r := by
  cases fst : firstOccurrence pat hay with
  | none =>
    cases r with
    | none => rfl
    | some k => exact absurd (got k rfl).1 (firstOccurrence_eq_none fst k)
  | some j =>
    obtain ⟨there, pre⟩ := firstOccurrence_eq_some fst
    cases r with
    | none => exact absurd there (gone rfl j)
    | some k =>
      obtain ⟨there', pre'⟩ := got k rfl
      rcases Nat.lt_trichotomy j k with less | rfl | greater
      · exact absurd there (pre' j less)
      · rfl
      · exact absurd there' (pre k greater)

/-! ## Segments with gaps -/

/-- A sequence has a gap, a segment, a gap, and so on, and what is left after the last segment
satisfies a condition. -/
def MatchesGaps (final : List α → Prop) : List (List α) → List α → Prop
  | [], s => final s
  | segment :: segments, s =>
    ∃ before after, s = before ++ (segment ++ after) ∧ MatchesGaps final segments after

omit [DecidableEq α] in
theorem matchesGaps_append (final : List α → Prop) (segs segs' : List (List α))
    (s : List α) : MatchesGaps final (segs ++ segs') s ↔
      MatchesGaps (MatchesGaps final segs') segs s := by
  induction segs generalizing s with
  | nil => rfl
  | cons seg segs ih =>
    rw [cons_append, MatchesGaps, MatchesGaps]
    simp only [ih]

omit [DecidableEq α] in
theorem matchesGaps_congr {final final' : List α → Prop} (same : ∀ s, final s ↔ final' s)
    (segs : List (List α)) (s : List α) :
    MatchesGaps final segs s ↔ MatchesGaps final' segs s := by
  rw [show final = final' from funext fun s => propext (same s)]

/-- A condition that remains true if something is put in front. -/
def AllowsGap (final : List α → Prop) : Prop := ∀ before s, final s → final (before ++ s)

omit [DecidableEq α] in
theorem MatchesGaps.append {final : List α → Prop} {segs : List (List α)} {s : List α}
    (gap : segs ≠ [] ∨ AllowsGap final) (matches' : MatchesGaps final segs s)
    (old : List α) : MatchesGaps final segs (old ++ s) := by
  cases segs with
  | nil => exact gap.resolve_left (· rfl) old s matches'
  | cons seg segs =>
    obtain ⟨gap, aft, rfl, rest⟩ := matches'
    exact ⟨old ++ gap, aft, (append_assoc _ _ _).symm, rest⟩

/-- The first occurrence of a segment is as good as any other one. -/
theorem matchesGaps_cons {final : List α → Prop} {seg : List α} {segs : List (List α)}
    {s : List α} (gap : segs ≠ [] ∨ AllowsGap final) :
    MatchesGaps final (seg :: segs) s ↔ ∃ k, firstOccurrence seg s = some k ∧
        MatchesGaps final segs (s.drop (k + seg.length)) := by
  constructor
  · rintro ⟨pre, aft, rfl, rest⟩
    have occurs : seg <+: (pre ++ (seg ++ aft)).drop pre.length := by
      rw [drop_left]
      exact prefix_append _ _
    cases fst : firstOccurrence seg (pre ++ (seg ++ aft)) with
    | none => exact absurd occurs (firstOccurrence_eq_none fst _)
    | some k =>
      have he : k ≤ pre.length :=
        Nat.le_of_not_lt fun less => (firstOccurrence_eq_some fst).2 _ less occurs
      refine ⟨k, rfl, ?_⟩
      have split : (pre ++ (seg ++ aft)).drop (k + seg.length) =
          (pre ++ seg).drop (k + seg.length) ++ aft := by
        rw [← append_assoc, drop_append_of_le_length]
        rw [length_append]
        omega
      rw [split]
      exact rest.append gap _
  · rintro ⟨k, fst, rest⟩
    obtain ⟨⟨aft, occurs⟩, -⟩ := firstOccurrence_eq_some fst
    refine ⟨s.take k, aft, ?_, ?_⟩
    · rw [occurs, take_append_drop]
    · rwa [← drop_drop, ← occurs, drop_left] at rest

end AccessPath.Library
