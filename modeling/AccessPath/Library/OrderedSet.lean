import Mathlib.Order.Lattice
import Mathlib.Data.List.TakeWhile

/-!
# Ordered sets

A set as the ascending list of its elements: what `std::set` is to a program that takes the first
element, walks from the last one backwards, or removes all elements from a bound on.
-/

namespace AccessPath.Library

open List

universe u

variable {α : Type u} [LinearOrder α]

/-- Put an element into an ascending list, unless it is there. -/
def insertAscending (a : α) : List α → List α
  | [] => [a]
  | b :: rest =>
    if a < b then a :: b :: rest else if a = b then b :: rest else b :: insertAscending a rest

theorem mem_insertAscending {a b : α} {l : List α} : b ∈ insertAscending a l ↔ b = a ∨ b ∈ l := by
  induction l with
  | nil => exact mem_singleton.trans (or_iff_left not_mem_nil).symm
  | cons c l ih =>
    rw [insertAscending]
    split_ifs with less same
    · exact mem_cons
    · rw [same, mem_cons]
      exact ⟨.inr, fun either => either.elim .inl id⟩
    · rw [mem_cons, ih, mem_cons]
      exact or_left_comm

theorem length_insertAscending_le (a : α) (l : List α) :
    (insertAscending a l).length ≤ l.length + 1 := by
  induction l with
  | nil => exact le_rfl
  | cons b l ih =>
    rw [insertAscending]
    split_ifs with less same
    · exact le_rfl
    · exact Nat.le_succ _
    · exact Nat.succ_le_succ ih

theorem insertAscending_pairwise {a : α} {l : List α} (asc : l.Pairwise (· < ·)) :
    (insertAscending a l).Pairwise (· < ·) := by
  induction l with
  | nil => exact pairwise_singleton _ _
  | cons b l ih =>
    obtain ⟨hi, rest⟩ := pairwise_cons.mp asc
    rw [insertAscending]
    split_ifs with less same
    · refine pairwise_cons.mpr ⟨fun c mem => ?_, asc⟩
      rcases mem_cons.mp mem with rfl | mem
      · exact less
      · exact less.trans (hi c mem)
    · exact asc
    · refine pairwise_cons.mpr ⟨fun c mem => ?_, ih rest⟩
      rcases mem_insertAscending.mp mem with rfl | mem
      · exact lt_of_le_of_ne (le_of_not_gt less) (Ne.symm same)
      · exact hi c mem

/-- A set with its elements in ascending order. -/
structure OrderedSet (α : Type u) [LinearOrder α] where
  elements : List α
  ascending : elements.Pairwise (· < ·)

namespace OrderedSet

instance : Membership α (OrderedSet α) := ⟨fun s a => a ∈ s.elements⟩

instance (a : α) (s : OrderedSet α) : Decidable (a ∈ s) :=
  inferInstanceAs (Decidable (a ∈ s.elements))

def empty : OrderedSet α := ⟨[], List.Pairwise.nil⟩

def insert (s : OrderedSet α) (a : α) : OrderedSet α :=
  ⟨insertAscending a s.elements, insertAscending_pairwise s.ascending⟩

def size (s : OrderedSet α) : Nat := s.elements.length

/-- The first element, if there is one. -/
def first (s : OrderedSet α) : Option α := s.elements.head?

/-- The set without its first element. -/
def dropFirst (s : OrderedSet α) : OrderedSet α := ⟨s.elements.tail, s.ascending.tail⟩

/-- The elements below a bound. -/
def below (s : OrderedSet α) (bound : α) : OrderedSet α :=
  ⟨s.elements.takeWhile (· < bound), s.ascending.sublist (takeWhile_sublist _)⟩

/-- The set with all elements of another one. -/
def insertAll (s other : OrderedSet α) : OrderedSet α := other.elements.foldl insert s

variable {s : OrderedSet α} {a b : α}

@[simp] theorem not_mem_empty : a ∉ (empty : OrderedSet α) := not_mem_nil

theorem mem_insert : b ∈ s.insert a ↔ b = a ∨ b ∈ s := mem_insertAscending

theorem mem_insertAll {o : OrderedSet α} : b ∈ s.insertAll o ↔ b ∈ s ∨ b ∈ o := by
  have folded : ∀ (l : List α) (s : OrderedSet α), b ∈ l.foldl insert s ↔ b ∈ s ∨ b ∈ l := by
    intro l
    induction l with
    | nil => exact fun s => (or_iff_left not_mem_nil).symm
    | cons a l ih =>
      intro s
      rw [foldl_cons, ih, mem_insert, mem_cons, or_assoc]
      exact or_left_comm
  exact folded o.elements s

theorem size_insertAll_le (s o : OrderedSet α) : (s.insertAll o).size ≤ s.size + o.size := by
  have folded : ∀ (l : List α) (s : OrderedSet α), (l.foldl insert s).size ≤ s.size + l.length := by
    intro l
    induction l with
    | nil => exact fun s => le_rfl
    | cons a l ih =>
      intro s
      refine (ih (s.insert a)).trans ?_
      have inserted : (s.insert a).size ≤ s.size + 1 := length_insertAscending_le a s.elements
      rw [length_cons]
      omega
  exact folded o.elements s

theorem mem_of_first (got : s.first = some a) : a ∈ s := mem_of_head? got

theorem not_mem_of_first (gone : s.first = none) : b ∉ s := by
  have none := head?_eq_none_iff.mp gone
  intro mem
  have mem' : b ∈ s.elements := mem
  rw [none] at mem'
  cases mem'

theorem mem_dropFirst (got : s.first = some a) : b ∈ s.dropFirst ↔ b ∈ s ∧ b ≠ a := by
  obtain ⟨_, asc⟩ := s
  obtain ⟨rest, rfl⟩ := head?_eq_some_iff.mp got
  have hi := (pairwise_cons.mp asc).1
  change b ∈ rest ↔ b ∈ a :: rest ∧ b ≠ a
  rw [mem_cons]
  constructor
  · intro mem
    exact ⟨.inr mem, (hi b mem).ne'⟩
  · rintro ⟨either, o⟩
    exact either.resolve_left o

theorem mem_below {le : α} : b ∈ s.below le ↔ b ∈ s ∧ b < le := by
  obtain ⟨xs, asc⟩ := s
  change b ∈ xs.takeWhile (· < le) ↔ b ∈ xs ∧ b < le
  constructor
  · intro mem
    have less := mem_takeWhile_imp mem
    exact ⟨(takeWhile_sublist _).subset mem, of_decide_eq_true less⟩
  · rintro ⟨mem, less⟩
    induction xs with
    | nil => cases mem
    | cons a xs ih =>
      obtain ⟨hi, rest⟩ := pairwise_cons.mp asc
      have first : a < le := by
        rcases mem_cons.mp mem with rfl | mem
        · exact less
        · exact (hi b mem).trans less
      rw [takeWhile_cons, if_pos (decide_eq_true first), mem_cons]
      exact (mem_cons.mp mem).imp_right (ih rest)

end OrderedSet

end AccessPath.Library
