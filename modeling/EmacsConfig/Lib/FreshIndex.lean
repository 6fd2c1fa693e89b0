import Mathlib.Order.Bounds.Defs
import Mathlib.Data.List.Nodup
import Mathlib.Data.List.Perm.Subperm

/-!
# The least free number

Names are numbered, and a search counts up until it comes to a name that is not
used. Every used name stops it at most once, so it ends (`firstFree_le`), and it
ends at the least number that is free (`firstFree_isLeast`).
-/

namespace EmacsConfig.FreshIndex

/-- Names that tell their numbers. -/
structure Numbering (α : Type*) where
  name : Nat → α
  index : α → Nat
  index_name : ∀ i, index (name i) = i

variable {α : Type*} (ν : Numbering α)

theorem Numbering.name_injective {i j : Nat} (h : ν.name i = ν.name j) : i = j := by
  rw [← ν.index_name i, h, ν.index_name]

/-- How many used names have a number from `i` on. -/
def remaining (used : List α) (i : Nat) : Nat := used.countP fun a => decide (i ≤ ν.index a)

/-- Past a used name, there is one less. -/
theorem remaining_lt {used : List α} {i : Nat} (h : ν.name i ∈ used) :
    remaining ν used (i + 1) < remaining ν used i := by
  have hle (l : List α) : remaining ν l (i + 1) ≤ remaining ν l i := by
    apply List.countP_mono_left
    intro a _ ha
    rw [decide_eq_true_eq] at ha ⊢
    exact Nat.le_of_succ_le ha
  obtain ⟨before, after, rfl⟩ := List.append_of_mem h
  have hbefore := hle before
  have hafter := hle after
  unfold remaining at hbefore hafter ⊢
  rw [List.countP_append, List.countP_append, List.countP_cons_of_neg, List.countP_cons_of_pos]
  · omega
  · simp [ν.index_name]
  · simp [ν.index_name]

variable [DecidableEq α]

/-- The first number from `i` on whose name is not used. -/
def firstFree (used : List α) (i : Nat) : Nat :=
  if ν.name i ∈ used then firstFree used (i + 1) else i
termination_by remaining ν used i
decreasing_by exact remaining_lt ν ‹_›

theorem firstFree_isLeast (used : List α) (i : Nat) :
    IsLeast {j | i ≤ j ∧ ν.name j ∉ used} (firstFree ν used i) := by
  induction i using firstFree.induct ν used with
  | case1 i hused ih =>
    rw [firstFree, if_pos hused]
    obtain ⟨⟨hle, hfree⟩, hleast⟩ := ih
    refine ⟨⟨Nat.le_of_succ_le hle, hfree⟩, fun j ⟨hj, hfreej⟩ => hleast ⟨?_, hfreej⟩⟩
    apply Nat.lt_of_le_of_ne hj
    rintro rfl
    exact hfreej hused
  | case2 i hfree =>
    rw [firstFree, if_neg hfree]
    exact ⟨⟨Nat.le_refl i, hfree⟩, fun j hj => hj.1⟩

/-- By the pigeonhole principle: the names before the first free one are all used. -/
theorem firstFree_le (used : List α) (i : Nat) : firstFree ν used i ≤ i + used.length := by
  have hleast := firstFree_isLeast ν used i
  have hsub : (List.range' i (firstFree ν used i - i)).map ν.name ⊆ used := by
    rintro a ha
    obtain ⟨j, hj, rfl⟩ := List.mem_map.1 ha
    rw [List.mem_range'_1] at hj
    by_contra hfree
    have := hleast.2 ⟨hj.1, hfree⟩
    omega
  have hnodup : ((List.range' i (firstFree ν used i - i)).map ν.name).Nodup :=
    List.Nodup.map (fun _ _ h => ν.name_injective h) List.nodup_range'
  have hlen := (hnodup.subperm hsub).length_le
  rw [List.length_map, List.length_range'] at hlen
  omega

end EmacsConfig.FreshIndex
