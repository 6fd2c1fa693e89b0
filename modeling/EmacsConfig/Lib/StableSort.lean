import Mathlib.Data.List.Nodup
import Mathlib.Data.List.Pairwise
import Mathlib.Tactic.Common

/-!
# Sorting a reversed list again

A stable sort keeps the order of what it does not tell apart. So a sorted list that is
reversed and sorted again comes back exactly when no two of its elements are ties.
-/

namespace EmacsConfig.StableSort

variable {α : Type*} {le : α → α → Bool} {l : List α}

/-- Without repetitions no two elements stand in both orders. -/
theorem not_both_orders (h : l.Nodup) {a b : α} (hab : [a, b].Sublist l) :
    ¬ [b, a].Sublist l := by
  induction l with
  | nil => cases hab
  | cons c l ih =>
    rw [List.nodup_cons] at h
    intro hba
    cases hab with
    | cons _ hab =>
      cases hba with
      | cons _ hba => exact ih h.2 hab hba
      | cons_cons _ hba => exact h.1 (hab.subset (by simp))
    | cons_cons _ hab =>
      cases hba with
      | cons _ hba => exact h.1 (hba.subset (by simp))
      | cons_cons _ hba => exact h.1 (hab.subset (by simp))

theorem mergeSort_reverse_iff (trans : ∀ a b c, le a b → le b c → le a c)
    (total : ∀ a b, le a b || le b a) (hsorted : l.Pairwise fun a b => le a b) (hnodup : l.Nodup) :
    l.reverse.mergeSort le = l ↔ l.Pairwise fun a b => ¬ le b a := by
  constructor
  · intro heq
    rw [List.pairwise_iff_forall_sublist]
    intro a b hab htie
    have hba : [b, a].Sublist l.reverse := List.reverse_sublist.2 hab
    have hstable := List.pair_sublist_mergeSort trans total htie hba
    rw [heq] at hstable
    exact not_both_orders hnodup hab hstable
  · intro hties
    have happart : l.Pairwise fun a b => ¬ (le a b ∧ le b a) := hties.imp fun h hboth => h hboth.2
    have hsymm : Std.Symm fun a b => ¬ (le a b ∧ le b a) := ⟨fun a b h hboth => h hboth.symm⟩
    refine List.Perm.eq_of_pairwise ?_ (List.pairwise_mergeSort trans total _) hsorted
      ((List.mergeSort_perm _ _).trans (List.reverse_perm l))
    intro a b ha hb hab hba
    by_contra hne
    rw [List.mem_mergeSort, List.mem_reverse] at ha
    exact happart.forall ha hb hne ⟨hab, hba⟩

end EmacsConfig.StableSort
