import Mathlib.Data.List.TakeWhile
import Mathlib.Tactic

/-!
# Lists of keyed values in ascending order

A map kept as a list of key-value pairs with strictly ascending keys, read with
`List.lookup`. The lemmas say how `lookup` sees the pieces that cursor loops cut
such a list into.
-/

namespace AccessPath.Library

open List

universe u v

variable {K : Type u} {V : Type v} [LinearOrder K]

/-- Strictly ascending keys. -/
def Ascending (l : List (K × V)) : Prop := l.Pairwise fun a b => a.1 < b.1

theorem lookup_cons_ite (k : K) (e : K × V) (l : List (K × V)) :
    (e :: l).lookup k = if k = e.1 then some e.2 else l.lookup k := by
  rw [lookup_cons]
  by_cases eq : k = e.1
  · rw [if_pos eq, beq_iff_eq.mpr eq]
  · rw [if_neg eq, beq_eq_false_iff_ne.mpr eq]

variable {l : List (K × V)} {k : K}

theorem lookup_eq_none_of_ne (absent : ∀ e ∈ l, e.1 ≠ k) : l.lookup k = none := by
  induction l with
  | nil => rfl
  | cons e l ih =>
    rw [lookup_cons_ite, if_neg (absent e mem_cons_self).symm]
    exact ih fun o got => absent o (mem_cons_of_mem _ got)

theorem mem_keys_iff : k ∈ l.map Prod.fst ↔ (l.lookup k).isSome = true := by
  induction l with
  | nil => simp
  | cons e l ih =>
    rw [map_cons, mem_cons, lookup_cons_ite, ih]
    split <;> simp_all

theorem lookup_eq_none_iff : l.lookup k = none ↔ k ∉ l.map Prod.fst := by
  rw [mem_keys_iff, Bool.not_eq_true, Option.isSome_eq_false_iff, Option.isNone_iff_eq_none]

theorem lookup_map_pair {A : Type*} (key : A → K) (f : A → V) (l : List A) (k : K) :
    (l.map fun a => (key a, f a)).lookup k = (l.find? (key · = k)).map f := by
  induction l with
  | nil => rfl
  | cons a l ih =>
    rw [map_cons, lookup_cons_ite, find?_cons, ih]
    by_cases eq : key a = k
    · rw [if_pos eq.symm, decide_eq_true eq]
      rfl
    · rw [if_neg (Ne.symm eq), decide_eq_false eq]

theorem lookup_map_keys (f : K → V) (l : List (K × V)) (k : K) :
    (l.map fun e => (e.1, f e.1)).lookup k = if k ∈ l.map Prod.fst then some (f k) else none := by
  induction l with
  | nil => rfl
  | cons e l ih =>
    rw [map_cons, lookup_cons_ite, ih, map_cons]
    by_cases eq : k = e.1
    · rw [if_pos eq, if_pos (eq ▸ mem_cons_self), eq]
    · rw [if_neg eq]
      refine if_congr ?_ rfl rfl
      rw [mem_cons, or_iff_right eq]

/-! ## Maps without an order -/

/-- Remove a key. -/
def eraseKey (k : K) (l : List (K × V)) : List (K × V) := l.filter (·.1 != k)

/-- Give a key a value. -/
def setKey (k : K) (x : V) (l : List (K × V)) : List (K × V) := (k, x) :: eraseKey k l

theorem lookup_eraseKey (k r : K) (l : List (K × V)) :
    (eraseKey k l).lookup r = if r = k then none else l.lookup r := by
  induction l with
  | nil => exact (ite_self _).symm
  | cons e l ih =>
    rw [eraseKey] at ih ⊢
    rcases eq_or_ne e.1 k with rfl | o
    · rw [filter_cons_of_neg (by simp), ih, lookup_cons_ite]
      split_ifs
      · rfl
      · rfl
    · rw [filter_cons_of_pos (by simpa), lookup_cons_ite, ih, lookup_cons_ite]
      split_ifs with got hm
      · exact absurd (got.symm.trans hm) o
      · rfl
      · rfl
      · rfl

theorem lookup_setKey (k r : K) (x : V) (l : List (K × V)) :
    (setKey k x l).lookup r = if r = k then some x else l.lookup r := by
  rw [setKey, lookup_cons_ite, lookup_eraseKey]
  split_ifs
  · rfl
  · rfl

variable {k r : K}

theorem mem_keys_eraseKey : r ∈ (eraseKey k l).map Prod.fst ↔ r ∈ l.map Prod.fst ∧ r ≠ k := by
  rw [mem_keys_iff, mem_keys_iff, lookup_eraseKey]
  split_ifs with eq
  · exact iff_of_false Bool.false_ne_true fun kept => kept.2 eq
  · exact (and_iff_left eq).symm

theorem mem_keys_setKey {x : V} : r ∈ (setKey k x l).map Prod.fst ↔ r = k ∨ r ∈ l.map Prod.fst := by
  rw [setKey, map_cons, mem_cons, mem_keys_eraseKey]
  rcases eq_or_ne r k with eq | o
  · exact iff_of_true (.inl eq) (.inl eq)
  · rw [and_iff_left o]

theorem length_setKey_le (k : K) (x : V) (l : List (K × V)) :
    (setKey k x l).length ≤ l.length + 1 :=
  Nat.succ_le_succ (length_filter_le _ _)

theorem length_setKey_of_mem (x : V) (mem : k ∈ l.map Prod.fst) :
    (setKey k x l).length ≤ l.length := by
  obtain ⟨e, mem, eq⟩ := List.mem_map.mp mem
  refine length_filter_lt_length_iff_exists.mpr ⟨e, mem, ?_⟩
  rw [eq, bne_self_eq_false]
  exact Bool.false_ne_true

theorem nodup_keys_eraseKey (nd : (l.map Prod.fst).Nodup) :
    ((eraseKey k l).map Prod.fst).Nodup :=
  nd.sublist (filter_sublist.map Prod.fst)

theorem nodup_keys_setKey {x : V}
    (nd : (l.map Prod.fst).Nodup) : ((setKey k x l).map Prod.fst).Nodup := by
  rw [setKey, map_cons, nodup_cons]
  exact ⟨fun mem => (mem_keys_eraseKey.mp mem).2 rfl, nodup_keys_eraseKey nd⟩

section

variable {l : List (K × V)} (asc : Ascending l)
include asc

theorem Ascending.lookup_mem {e : K × V} (mem : e ∈ l) : l.lookup e.1 = some e.2 := by
  induction l with
  | nil => cases mem
  | cons head l ih =>
    obtain ⟨lo, xs⟩ := pairwise_cons.mp asc
    rw [lookup_cons_ite]
    rcases mem_cons.mp mem with rfl | mem
    · exact if_pos rfl
    · rw [if_neg (lo e mem).ne']
      exact ih xs mem

theorem Ascending.le_of_dropWhile {en : K × V}
    (got : en ∈ l.dropWhile fun e => e.1 < k) : k ≤ en.1 := by
  induction l with
  | nil => cases got
  | cons head l ih =>
    obtain ⟨lo, xs⟩ := pairwise_cons.mp asc
    rw [dropWhile_cons] at got
    split_ifs at got with past
    · exact ih xs got
    · have le : k ≤ head.1 := le_of_not_gt (by simpa using past)
      rcases mem_cons.mp got with rfl | got
      · exact le
      · exact le.trans (lo en got).le

theorem Ascending.dropWhile (p : K × V → Bool) : Ascending (l.dropWhile p) :=
  List.Pairwise.sublist (dropWhile_sublist p) asc

theorem Ascending.lookup_dropWhile (le : k ≤ r) :
    (l.dropWhile fun e => e.1 < k).lookup r = l.lookup r := by
  induction l with
  | nil => rfl
  | cons head l ih =>
    rw [dropWhile_cons]
    split_ifs with hsm
    · have lt : head.1 < k := by simpa using hsm
      rw [ih (pairwise_cons.mp asc).2, lookup_cons_ite, if_neg (lt.trans_le le).ne']
    · rfl

omit asc in
theorem lookup_takeWhile_of_le (le : k ≤ r) : (l.takeWhile fun e => e.1 < k).lookup r = none := by
  refine lookup_eq_none_of_ne fun en got => ?_
  have lt : en.1 < k := by simpa using mem_takeWhile_imp got
  exact (lt.trans_le le).ne

theorem Ascending.lookup_takeWhile (lt : r < k) :
    (l.takeWhile fun e => e.1 < k).lookup r = l.lookup r := by
  induction l with
  | nil => rfl
  | cons head l ih =>
    obtain ⟨lo, xs⟩ := pairwise_cons.mp asc
    rw [takeWhile_cons]
    split_ifs with past
    · rw [lookup_cons_ite, lookup_cons_ite, ih xs]
    · have le : k ≤ head.1 := le_of_not_gt (by simpa using past)
      symm
      refine lookup_eq_none_of_ne fun en got => ?_
      rcases mem_cons.mp got with rfl | got
      · exact (lt.trans_le le).ne'
      · exact (lt.trans_le (le.trans (lo en got).le)).ne'

/-- A list cut at a key, with another tail: below the key the list is read, from there
on the tail. -/
theorem Ascending.lookup_cut (x : K × V) (xs : List (K × V)) (r : K) :
    ((l.takeWhile fun e => e.1 < x.1) ++ x :: xs).lookup r =
      if r < x.1 then (l.lookup r).or (xs.lookup r)
      else if r = x.1 then some x.2 else xs.lookup r := by
  rw [lookup_append, lookup_cons_ite]
  by_cases lo : r < x.1
  · rw [asc.lookup_takeWhile lo, if_neg lo.ne, if_pos lo]
  · rw [lookup_takeWhile_of_le (le_of_not_gt lo), if_neg lo]
    rfl

theorem Ascending.cut (x : K × V) {xs : List (K × V)} (srt : Ascending xs)
    (hi : ∀ en ∈ xs, x.1 < en.1) :
    Ascending ((l.takeWhile fun e => e.1 < x.1) ++ x :: xs) := by
  have lo {en : K × V} (ht : en ∈ l.takeWhile fun e => e.1 < x.1) : en.1 < x.1 := by
    simpa using mem_takeWhile_imp ht
  refine pairwise_append.mpr ⟨asc.sublist (takeWhile_sublist _), ?_, ?_⟩
  · exact pairwise_cons.mpr ⟨hi, srt⟩
  · intro en ht o hf
    rcases mem_cons.mp hf with rfl | hf
    · exact lo ht
    · exact (lo ht).trans (hi o hf)

end

theorem exists_of_lookup {r : K} (ne : l.lookup r ≠ none) : ∃ x, (r, x) ∈ l := by
  rw [ne_eq, lookup_eq_none_iff, not_not] at ne
  obtain ⟨e, isEntry, rfl⟩ := List.mem_map.mp ne
  exact ⟨e.2, isEntry⟩

/-- What holds of every key that is found holds of every key. -/
theorem forall_keys_of_lookup {P : K → Prop}
    (got : ∀ r, l.lookup r ≠ none → P r) : ∀ e ∈ l, P e.1 := by
  intro e isEntry
  refine got _ fun absent => ?_
  exact lookup_eq_none_iff.mp absent (List.mem_map_of_mem isEntry)

end AccessPath.Library
