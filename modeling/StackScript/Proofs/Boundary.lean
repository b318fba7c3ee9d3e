import Mathlib
import StackScript.Boundary

/-!
# What a search for a boundary finds

A search stays in its range.  Over the items of a list of which those with a property come
first, it counts the items that have the property (`boundary_eq_countP`).
-/

namespace StackScript

theorem boundary_le (holds : Nat → Bool) (low high : Nat) (le : low ≤ high) :
    boundary holds low high ≤ high := by
  fun_induction boundary holds low high with
  | case1 low high lt middle found ih => exact ih (by omega)
  | case2 low high lt middle missing ih => exact (ih (by omega)).trans (by omega)
  | case3 => exact le

theorem le_boundary (holds : Nat → Bool) (low high : Nat) : low ≤ boundary holds low high := by
  fun_induction boundary holds low high with
  | case1 low high lt middle found ih => omega
  | case2 low high lt middle missing ih => exact ih
  | case3 => exact Nat.le_refl _

/-- Where a search begins at an index that has the property, it ends behind this index. -/
theorem lt_boundary {holds : Nat → Bool} {low high : Nat} (lt : low < high)
    (first : holds low = true) : low < boundary holds low high := by
  fun_induction boundary holds low high with
  | case1 low high less middle there ih =>
      have le := le_boundary holds (middle + 1) high
      omega
  | case2 low high less middle fails ih =>
      -- The middle is not the first index, for that has the property.
      have other : low ≠ middle := fun same => fails (same ▸ first)
      exact ih (by omega) first
  | case3 => omega

/-- A search for the boundary of a property finds where the property ends. -/
theorem boundary_eq {holds : Nat → Bool} {low high k : Nat} (above : low ≤ k) (below : k ≤ high)
    (before : ∀ i, low ≤ i → i < k → holds i = true)
    (behind : ∀ i, k ≤ i → i < high → holds i = false) : boundary holds low high = k := by
  fun_induction boundary holds low high with
  | case1 low high lt middle found ih =>
      have past : middle < k := by
        by_contra under
        rw [behind middle (by omega) (by omega)] at found
        cases found
      exact ih past below (fun i _ => before i (by omega)) behind
  | case2 low high lt middle missing ih =>
      have under : k ≤ middle := by
        by_contra past
        exact missing (before middle (by omega) (by omega))
      exact ih above under before fun i _ _ => behind i (by omega) (by omega)
  | case3 => omega

section

variable {α : Type} {p : α → Bool} {items : List α}

/-- The items that have a property come first. -/
def Leading (p : α → Bool) (items : List α) : Prop := items.Pairwise fun a b => p b → p a

/-- Where the items that have a property come first, their number is the index at which the
others begin. -/
theorem Leading.getElem_iff (leading : Leading p items) {i : Nat} (lt : i < items.length) :
    p items[i] ↔ i < items.countP p := by
  induction items generalizing i with
  | nil => exact absurd lt (Nat.not_lt_zero i)
  | cons a items ih =>
      obtain ⟨first, rest⟩ := List.pairwise_cons.mp leading
      by_cases has : p a
      · rw [List.countP_cons_of_pos has]
        cases i with
        | zero => simp [has]
        | succ i =>
            have there : i < items.length := Nat.lt_of_succ_lt_succ lt
            rw [List.getElem_cons_succ, ih rest there, Nat.succ_lt_succ_iff]
      · -- an item without the property has no item with it behind it
        have none : items.countP p = 0 :=
          List.countP_eq_zero.mpr fun b mem later => has (first b mem later)
        rw [List.countP_cons_of_neg has, none]
        constructor
        · intro later
          rcases List.mem_cons.mp (List.getElem_mem lt) with same | mem
          · exact absurd (same ▸ later) has
          · exact absurd (first _ mem later) has
        · intro none
          exact absurd none (Nat.not_lt_zero i)

/-- The items that have a property, where they come first. -/
theorem Leading.filter_eq_take (leading : Leading p items) :
    items.filter p = items.take (items.countP p) := by
  induction items with
  | nil => rfl
  | cons a items ih =>
      obtain ⟨first, rest⟩ := List.pairwise_cons.mp leading
      by_cases has : p a
      · rw [List.filter_cons_of_pos has, List.countP_cons_of_pos has, List.take_succ_cons, ih rest]
      · have none : ∀ b ∈ items, ¬p b := fun b mem later => has (first b mem later)
        rw [List.filter_cons_of_neg has, List.countP_cons_of_neg has,
          List.filter_eq_nil_iff.mpr none, List.countP_eq_zero.mpr none, List.take_zero]

/-- A search through a list of which the items with a property come first counts these. -/
theorem boundary_eq_countP {holds : Nat → Bool} (leading : Leading p items)
    (agrees : ∀ i, (lt : i < items.length) → holds i = p items[i]) :
    boundary holds 0 items.length = items.countP p := by
  apply boundary_eq (Nat.zero_le _) (List.countP_le_length)
  · intro i _ lt
    have inside : i < items.length := Nat.lt_of_lt_of_le lt List.countP_le_length
    rw [agrees i inside, leading.getElem_iff inside]
    exact lt
  · intro i ge lt
    rw [agrees i lt, Bool.eq_false_iff, ne_eq, leading.getElem_iff lt]
    omega

end

end StackScript
