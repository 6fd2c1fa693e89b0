import Mathlib.Data.List.Basic
import Mathlib.Data.List.TakeWhile

/-!
# Texts cut at separators

What comes before the first separator is determined by the text
(`cut_unique`), and so are fields joined by a separator they do not have
(`intercalate_injective`). `afterLast c s` is what follows the last `c`.
-/

namespace EmacsConfig.Fields

variable {α : Type*} {c : α}

theorem cut_unique {a a' b b' : List α} (ha : c ∉ a) (ha' : c ∉ a')
    (h : a ++ c :: b = a' ++ c :: b') : a = a' ∧ b = b' := by
  induction a generalizing a' with
  | nil =>
    cases a' with
    | nil => simpa using h
    | cons x a' =>
      obtain ⟨rfl, -⟩ := List.cons.inj h
      exact absurd List.mem_cons_self ha'
  | cons x a ih =>
    cases a' with
    | nil =>
      obtain ⟨rfl, -⟩ := List.cons.inj h
      exact absurd List.mem_cons_self ha
    | cons y a' =>
      rw [List.mem_cons, not_or] at ha ha'
      obtain ⟨rfl, htail⟩ := List.cons.inj h
      obtain ⟨rfl, rfl⟩ := ih ha.2 ha'.2 htail
      exact ⟨rfl, rfl⟩

/-- Fields without the character a separator begins with can be read back. -/
theorem intercalate_injective {sep : List α} {xs ys : List (List α)}
    (hxs : ∀ x ∈ xs, c ∉ x) (hys : ∀ y ∈ ys, c ∉ y) (hx : xs ≠ []) (hy : ys ≠ [])
    (h : (c :: sep).intercalate xs = (c :: sep).intercalate ys) : xs = ys := by
  induction xs generalizing ys with
  | nil => exact absurd rfl hx
  | cons x xs ih =>
    obtain ⟨y, ys, rfl⟩ := List.exists_cons_of_ne_nil hy
    rw [List.forall_mem_cons] at hxs hys
    -- a single field has no separator, several fields have one
    rcases xs with _ | ⟨x', xs⟩ <;> rcases ys with _ | ⟨y', ys⟩
    · simpa using h
    · rw [List.intercalate_singleton, List.intercalate_cons_cons, List.append_assoc] at h
      exact absurd (h ▸ List.mem_append_right y List.mem_cons_self) hxs.1
    · rw [List.intercalate_singleton, List.intercalate_cons_cons, List.append_assoc] at h
      exact absurd (h.symm ▸ List.mem_append_right x List.mem_cons_self) hys.1
    · rw [List.intercalate_cons_cons, List.intercalate_cons_cons, List.append_assoc,
        List.append_assoc, List.cons_append, List.cons_append] at h
      obtain ⟨rfl, hrest⟩ := cut_unique hxs.1 hys.1 h
      rw [ih hxs.2 hys.2 (List.cons_ne_nil _ _) (List.cons_ne_nil _ _)
        (List.append_cancel_left hrest)]

theorem mem_intercalate {sep : List α} {xs : List (List α)} (h : c ∈ sep.intercalate xs) :
    c ∈ sep ∨ ∃ x ∈ xs, c ∈ x := by
  induction xs with
  | nil => cases h
  | cons x xs ih =>
    cases xs with
    | nil => exact .inr ⟨x, List.mem_cons_self, by simpa using h⟩
    | cons y xs =>
      rw [List.intercalate_cons_cons, List.mem_append, List.mem_append] at h
      rcases h with (h | h) | h
      · exact .inr ⟨x, List.mem_cons_self, h⟩
      · exact .inl h
      · rcases ih h with h | ⟨z, hz, h⟩
        · exact .inl h
        · exact .inr ⟨z, List.mem_cons_of_mem _ hz, h⟩

theorem mem_intercalate_of_mem {sep x : List α} {xs : List (List α)} (hx : x ∈ xs) (h : c ∈ x) :
    c ∈ sep.intercalate xs := by
  induction xs with
  | nil => cases hx
  | cons y xs ih =>
    cases xs with
    | nil =>
      obtain rfl : x = y := by simpa using hx
      simpa using h
    | cons z xs =>
      rw [List.intercalate_cons_cons, List.mem_append, List.mem_append]
      rcases List.mem_cons.1 hx with rfl | hx
      · exact .inl (.inl h)
      · exact .inr (ih hx)

/-- Cut at the last `c`. -/
theorem eq_append_cons_last {s : List α} (h : c ∈ s) : ∃ a b, s = a ++ c :: b ∧ c ∉ b := by
  obtain ⟨b, a, hrev, hb⟩ := List.eq_append_cons_of_mem (List.mem_reverse.2 h)
  refine ⟨a.reverse, b.reverse, ?_, by simpa using hb⟩
  simpa using congrArg List.reverse hrev

variable [DecidableEq α]

/-- What follows the last `c`; the whole list if there is none. -/
def afterLast (c : α) (s : List α) : List α := (s.reverse.takeWhile (· != c)).reverse

theorem afterLast_of_notMem {s : List α} (h : c ∉ s) : afterLast c s = s := by
  have hall : ∀ x ∈ s.reverse, (x != c) = true := fun x hx => by
    simpa using ne_of_mem_of_not_mem (List.mem_reverse.1 hx) h
  rw [afterLast, List.takeWhile_eq_self_iff.2 hall, List.reverse_reverse]

theorem afterLast_append_of_notMem (s : List α) {t : List α} (h : c ∉ t) :
    afterLast c (s ++ t) = afterLast c s ++ t := by
  have hall : ∀ x ∈ t.reverse, (x != c) = true := fun x hx => by
    simpa using ne_of_mem_of_not_mem (List.mem_reverse.1 hx) h
  rw [afterLast, List.reverse_append, List.takeWhile_append_of_pos hall, List.reverse_append,
    List.reverse_reverse]
  rfl

theorem afterLast_append_cons (s : List α) {t : List α} (h : c ∉ t) :
    afterLast c (s ++ c :: t) = t := by
  have hsplit : s ++ c :: t = (s ++ [c]) ++ t := by simp
  rw [hsplit, afterLast_append_of_notMem _ h]
  simp [afterLast]

theorem notMem_afterLast (s : List α) : c ∉ afterLast c s := by
  intro h
  have := List.mem_takeWhile_imp (List.mem_reverse.1 h)
  simp at this

theorem afterLast_suffix (s : List α) : afterLast c s <:+ s := by
  rw [← List.reverse_prefix, afterLast, List.reverse_reverse]
  exact List.takeWhile_prefix _

/-- The last `c` is in the second part if there is one there. -/
theorem afterLast_append_of_mem (s : List α) {t : List α} (h : c ∈ t) :
    afterLast c (s ++ t) = afterLast c t := by
  obtain ⟨a, b, rfl, hb⟩ := eq_append_cons_last h
  rw [← List.append_assoc, afterLast_append_cons _ hb, afterLast_append_cons _ hb]

end EmacsConfig.Fields
