import Mathlib.Data.Int.ModEq
import Mathlib.Order.Defs.LinearOrder
import Mathlib.Tactic.Common

/-!
# Stepping around a sorted list

From an element of a strictly sorted list to the nearest one above or below it, past the
end to the other end. A run of steps moves by their sum, modulo the length.
-/

namespace EmacsConfig.Cyclic

variable {α : Type*}

inductive Dir where
  | forward | backward
  deriving DecidableEq, Repr

def Dir.sign : Dir → ℤ
  | .forward => 1
  | .backward => -1

/-- The element with the index `i`, counted around the list. -/
def around (l : List α) (i : ℤ) : Option α := l[(i % l.length).toNat]?

theorem around_natCast {l : List α} {k : ℕ} (hk : k < l.length) : around l k = l[k]? := by
  rw [around, Int.emod_eq_of_lt (by omega) (by omega), Int.toNat_natCast]

theorem around_add_mul (l : List α) (i q : ℤ) : around l (i + q * l.length) = around l i := by
  rw [around, around, Int.add_mul_emod_self_right]

/-- Where an index stands in the list. -/
theorem exists_split {l : List α} {i : ℤ} {x : α} (h : around l i = some x) :
    ∃ pre post, l = pre ++ x :: post ∧ ∃ q : ℤ, i = pre.length + q * l.length := by
  obtain ⟨hk, rfl⟩ := List.getElem?_eq_some_iff.1 h
  refine ⟨l.take (i % l.length).toNat, l.drop ((i % l.length).toNat + 1), ?_, i / l.length, ?_⟩
  · rw [List.getElem_cons_drop, List.take_append_drop]
  · have hpos : 0 ≤ i % (l.length : ℤ) := Int.emod_nonneg i (by omega)
    rw [List.length_take_of_le (by omega), Int.toNat_of_nonneg hpos, mul_comm, Int.emod_add_mul_ediv]

theorem around_succ (pre post : List α) (x : α) :
    around (pre ++ x :: post) (pre.length + 1) = post.head?.or (pre ++ x :: post).head? := by
  cases post with
  | nil =>
    have hlen : ((pre.length : ℤ) + 1) = 0 + 1 * ((pre ++ [x]).length : ℕ) := by simp
    rw [hlen, around_add_mul, List.head?_nil, Option.none_or, List.head?_eq_getElem?]
    exact around_natCast (by simp)
  | cons y post =>
    have hcast : ((pre.length : ℤ) + 1) = (pre.length + 1 : ℕ) := by omega
    rw [hcast, around_natCast (by simp), List.head?_cons, Option.some_or]
    simp

theorem around_pred (pre post : List α) (x : α) :
    around (pre ++ x :: post) (pre.length - 1) = pre.getLast?.or (pre ++ x :: post).getLast? := by
  rcases pre.eq_nil_or_concat with rfl | ⟨pre, y, rfl⟩
  · have hlen : (([] : List α).length : ℤ) - 1 =
        (post.length : ℕ) + (-1) * (([] ++ x :: post).length : ℕ) := by simp
    rw [hlen, around_add_mul, around_natCast (by simp), List.getLast?_nil, Option.none_or,
      List.getLast?_eq_getElem?]
    simp
  · have hcast : ((pre ++ [y]).length : ℤ) - 1 = (pre.length : ℕ) := by simp
    rw [List.concat_eq_append, hcast, around_natCast (by simp)]
    simp

section

variable [LinearOrder α]

/-- The least element above `x`, else the first one. -/
def after (l : List α) (x : α) : Option α := (l.find? (x < ·)).or l.head?

/-- The greatest element below `x`, else the last one. -/
def before (l : List α) (x : α) : Option α := (l.reverse.find? (· < x)).or l.getLast?

def neighbour : Dir → List α → α → Option α
  | .forward => after
  | .backward => before

variable {pre post : List α} {x : α}

theorem find?_above (h : (pre ++ x :: post).Pairwise (· < ·)) :
    (pre ++ x :: post).find? (x < ·) = post.head? := by
  rw [List.pairwise_append, List.pairwise_cons] at h
  have hpre : pre.find? (x < ·) = none := by
    rw [List.find?_eq_none]
    intro y hy
    simpa using (h.2.2 y hy x List.mem_cons_self).le
  rw [List.find?_append, hpre, Option.none_or, List.find?_cons_of_neg (by simp)]
  cases post with
  | nil => rfl
  | cons y post =>
    rw [List.find?_cons_of_pos (by simpa using h.2.1.1 y List.mem_cons_self), List.head?_cons]

theorem find?_below (h : (pre ++ x :: post).Pairwise (· < ·)) :
    (pre ++ x :: post).reverse.find? (· < x) = pre.getLast? := by
  rw [List.pairwise_append, List.pairwise_cons] at h
  have hpost : post.reverse.find? (· < x) = none := by
    rw [List.find?_eq_none]
    intro y hy
    simpa using (h.2.1.1 y (List.mem_reverse.1 hy)).le
  rw [List.reverse_append, List.reverse_cons, List.append_assoc, List.find?_append, hpost,
    Option.none_or, List.singleton_append, List.find?_cons_of_neg (by simp)]
  rcases pre.eq_nil_or_concat with rfl | ⟨pre, y, rfl⟩
  · rfl
  · have hlt := h.2.2 y (by simp) x List.mem_cons_self
    rw [List.concat_eq_append, List.reverse_append, List.reverse_singleton, List.singleton_append,
      List.find?_cons_of_pos (by simpa using hlt)]
    simp

/-- **A step** moves by one around the list. -/
theorem neighbour_around {l : List α} (hl : l.Pairwise (· < ·)) (d : Dir) {i : ℤ}
    (hi : around l i = some x) : neighbour d l x = around l (i + d.sign) := by
  obtain ⟨pre, post, rfl, q, rfl⟩ := exists_split hi
  rw [add_right_comm, around_add_mul]
  cases d with
  | forward => rw [neighbour, after, find?_above hl, Dir.sign, around_succ]
  | backward => rw [neighbour, before, find?_below hl, Dir.sign, ← sub_eq_add_neg, around_pred]

end

end EmacsConfig.Cyclic
