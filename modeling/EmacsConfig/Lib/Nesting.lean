import Mathlib.Data.List.Basic

/-!
# Properly nested words

`Nested B s`: the brackets of the word `s` are properly nested. `scan` looks
for the end of a bracketed group by counting the depth, whatever kinds the
brackets have; on nested words it finds the matching bracket (`scan_pair`).
`Pair B s i j` says that the brackets at `i` and `j` match. Reading a word
backwards swaps the two kinds (`Nested.reverse`), so each fact about closing
brackets is one about opening brackets.
-/

namespace EmacsConfig.Nesting

/-- Opening and closing brackets over an alphabet, and which of them match. -/
structure Brackets (α : Type*) where
  isOpen : α → Bool
  isClose : α → Bool
  pairs : α → α → Bool
  not_both : ∀ a, isOpen a = true → isClose a = false
  pairs_open : ∀ o c, pairs o c = true → isOpen o = true
  pairs_close : ∀ o c, pairs o c = true → isClose c = true

variable {α : Type*}

/-- The brackets read backwards. -/
def Brackets.swap (B : Brackets α) : Brackets α where
  isOpen := B.isClose
  isClose := B.isOpen
  pairs o c := B.pairs c o
  not_both a h := by
    by_contra ho
    simp [B.not_both a (by simpa using ho)] at h
  pairs_open o c h := B.pairs_close c o h
  pairs_close o c h := B.pairs_open c o h

@[simp] theorem Brackets.swap_swap (B : Brackets α) : B.swap.swap = B := rfl

inductive Nested (B : Brackets α) : List α → Prop where
  | nil : Nested B []
  | plain {a : α} {t : List α} : B.isOpen a = false → B.isClose a = false → Nested B t →
      Nested B (a :: t)
  | pair {o c : α} {s t : List α} : B.pairs o c = true → Nested B s → Nested B t →
      Nested B (o :: (s ++ c :: t))

variable {B : Brackets α}

theorem Nested.append {s t : List α} (hs : Nested B s) (ht : Nested B t) : Nested B (s ++ t) := by
  induction hs with
  | nil => exact ht
  | plain ho hc _ ih => exact .plain ho hc ih
  | pair hp hs _ _ ih => simpa using Nested.pair hp hs ih

theorem Nested.reverse {s : List α} (h : Nested B s) : Nested B.swap s.reverse := by
  induction h with
  | nil => exact .nil
  | plain ho hc _ ih =>
    rw [List.reverse_cons]
    exact ih.append (.plain hc ho .nil)
  | @pair o c s t hp _ _ ihs iht =>
    have hrev : (o :: (s ++ c :: t)).reverse = t.reverse ++ (c :: (s.reverse ++ [o])) := by simp
    rw [hrev]
    exact iht.append (.pair (B := B.swap) hp ihs .nil)

/-! ## Scanning for the end of a group -/

/-- The number of characters up to the point where the depth, `d` at the start,
falls to zero; `none` when it never does. -/
def scan (up down : α → Bool) : List α → Nat → Option Nat
  | [], _ => none
  | a :: s, d =>
    if up a then (scan up down s (d + 1)).map (· + 1)
    else if down a then
      match d with
      | 0 => none
      | 1 => some 1
      | d + 2 => (scan up down s (d + 1)).map (· + 1)
    else (scan up down s d).map (· + 1)

/-- A nested word leaves the depth as it was. -/
theorem scan_nested {s : List α} (h : Nested B s) (rest : List α) (d : Nat) :
    scan B.isOpen B.isClose (s ++ rest) (d + 1) =
      (scan B.isOpen B.isClose rest (d + 1)).map (· + s.length) := by
  induction h generalizing rest d with
  | nil => simp
  | plain ho hc _ ih =>
    simp only [List.cons_append, scan, ho, hc, Bool.false_eq_true, if_false, ih, Option.map_map,
      List.length_cons]
    rfl
  | @pair o c s t hp _ _ ihs iht =>
    have ho := B.pairs_open o c hp
    have hc := B.pairs_close o c hp
    have hco : B.isOpen c = false := by
      by_contra h
      simp [B.not_both c (by simpa using h)] at hc
    simp only [List.cons_append, List.append_assoc, scan, ho, if_true, ihs, hco, hc, iht,
      Bool.false_eq_true, if_false, Option.map_map, List.length_cons, List.length_append]
    congr 1
    funext n
    simp only [Function.comp]
    omega

/-- From an opening bracket the scan ends just after the matching one. -/
theorem scan_pair {o c : α} {s : List α} (hp : B.pairs o c = true) (hs : Nested B s)
    (rest : List α) :
    scan B.isOpen B.isClose (o :: (s ++ c :: rest)) 0 = some (s.length + 2) := by
  have ho := B.pairs_open o c hp
  have hc := B.pairs_close o c hp
  have hco : B.isOpen c = false := by
    by_contra h
    simp [B.not_both c (by simpa using h)] at hc
  simp only [scan, ho, if_true, scan_nested hs, hco, hc, Bool.false_eq_true, if_false,
    Option.map_some, Option.some.injEq]
  omega

/-! ## Matching pairs -/

/-- The brackets at positions `i` and `j` of `s` match. -/
def Pair (B : Brackets α) (s : List α) (i j : Nat) : Prop :=
  ∃ a o m c b, s = a ++ o :: (m ++ c :: b) ∧ B.pairs o c = true ∧ Nested B m ∧
    i = a.length ∧ j = a.length + m.length + 1

theorem Pair.lt {s : List α} {i j : Nat} (h : Pair B s i j) : i < j := by
  obtain ⟨a, o, m, c, b, -, -, -, rfl, rfl⟩ := h
  omega

theorem Pair.isOpen {s : List α} {i j : Nat} (h : Pair B s i j) :
    ∃ o, s[i]? = some o ∧ B.isOpen o = true := by
  obtain ⟨a, o, m, c, b, rfl, hp, -, rfl, -⟩ := h
  exact ⟨o, by simp, B.pairs_open o c hp⟩

theorem Pair.isClose {s : List α} {i j : Nat} (h : Pair B s i j) :
    ∃ c, s[j]? = some c ∧ B.isClose c = true := by
  obtain ⟨a, o, m, c, b, rfl, hp, -, -, rfl⟩ := h
  refine ⟨c, ?_, B.pairs_close o c hp⟩
  rw [List.getElem?_append_right (by omega),
    show a.length + m.length + 1 - a.length = m.length + 1 by omega]
  simp

theorem exists_match_of_open {s : List α} (h : Nested B s) :
    ∀ {a b : List α} {x : α}, s = a ++ x :: b → B.isOpen x = true →
      ∃ m c t, b = m ++ c :: t ∧ B.pairs x c = true ∧ Nested B m := by
  induction h with
  | nil => intro a b x he; simp at he
  | plain ho _ _ ih =>
    intro a b x he hx
    cases a with
    | nil =>
      simp only [List.nil_append, List.cons.injEq] at he
      rw [he.1, hx] at ho
      cases ho
    | cons y a =>
      simp only [List.cons_append, List.cons.injEq] at he
      exact ih he.2 hx
  | @pair o c s t hp hs _ ihs iht =>
    intro a b x he hx
    cases a with
    | nil =>
      simp only [List.nil_append, List.cons.injEq] at he
      obtain ⟨rfl, rfl⟩ := he
      exact ⟨s, c, t, rfl, hp, hs⟩
    | cons y a =>
      simp only [List.cons_append, List.cons.injEq] at he
      rcases List.append_eq_append_iff.1 he.2 with ⟨u, rfl, hu⟩ | ⟨u, rfl, hu⟩
      · -- `x` is the closing bracket or comes after it
        cases u with
        | nil =>
          simp only [List.nil_append, List.cons.injEq] at hu
          have hc := B.pairs_close o c hp
          rw [hu.1, B.not_both x hx] at hc
          cases hc
        | cons z u =>
          simp only [List.cons_append, List.cons.injEq] at hu
          exact iht hu.2 hx
      · -- `x` is inside the group, or is the closing bracket
        cases u with
        | nil =>
          simp only [List.nil_append, List.cons.injEq] at hu
          have hc := B.pairs_close o c hp
          rw [← hu.1, B.not_both x hx] at hc
          cases hc
        | cons z u =>
          simp only [List.cons_append, List.cons.injEq] at hu
          obtain ⟨rfl, rfl⟩ := hu
          obtain ⟨m, c', t', rfl, hp', hm⟩ := ihs rfl hx
          exact ⟨m, c', t' ++ c :: t, by simp, hp', hm⟩

theorem split_at {s : List α} {i : Nat} {x : α} (hi : s[i]? = some x) :
    ∃ a b, s = a ++ x :: b ∧ i = a.length := by
  obtain ⟨hlt, hx⟩ := List.getElem?_eq_some_iff.1 hi
  refine ⟨s.take i, s.drop (i + 1), ?_, by simp; omega⟩
  rw [← hx, ← List.drop_eq_getElem_cons hlt, List.take_append_drop]

theorem exists_pair_of_open {s : List α} (h : Nested B s) {i : Nat} {x : α}
    (hi : s[i]? = some x) (hx : B.isOpen x = true) : ∃ j, Pair B s i j := by
  obtain ⟨a, b, rfl, rfl⟩ := split_at hi
  obtain ⟨m, c, t, rfl, hp, hm⟩ := exists_match_of_open h rfl hx
  exact ⟨_, a, x, m, c, t, rfl, hp, hm, rfl, rfl⟩

theorem exists_pair_of_close {s : List α} (h : Nested B s) {j : Nat} {x : α}
    (hj : s[j]? = some x) (hx : B.isClose x = true) : ∃ i, Pair B s i j := by
  obtain ⟨a, b, rfl, rfl⟩ := split_at hj
  -- backwards, the closing bracket opens the group
  obtain ⟨m, c, t, ha, hp, hm⟩ :=
    exists_match_of_open h.reverse (a := b.reverse) (b := a.reverse) (by simp) hx
  have ha' : a = t.reverse ++ c :: m.reverse := by
    rw [← List.reverse_reverse a, ha]; simp
  subst ha'
  refine ⟨t.length, t.reverse, c, m.reverse, x, b, by simp, hp, by simpa using hm.reverse,
    by simp, by simp; omega⟩

/-- Forwards from the opening bracket. -/
theorem Pair.scan_forward {s : List α} {i j : Nat} (h : Pair B s i j) :
    scan B.isOpen B.isClose (s.drop i) 0 = some (j + 1 - i) := by
  obtain ⟨a, o, m, c, b, rfl, hp, hm, rfl, rfl⟩ := h
  rw [List.drop_left, scan_pair hp hm]
  congr 1
  omega

/-- Backwards from just after the closing bracket. -/
theorem Pair.scan_backward {s : List α} {i j : Nat} (h : Pair B s i j) :
    scan B.isClose B.isOpen (s.take (j + 1)).reverse 0 = some (j + 1 - i) := by
  obtain ⟨a, o, m, c, b, rfl, hp, hm, rfl, rfl⟩ := h
  have htake : (a ++ o :: (m ++ c :: b)).take (a.length + m.length + 1 + 1) =
      a ++ o :: (m ++ [c]) := by
    rw [show a ++ o :: (m ++ c :: b) = (a ++ o :: (m ++ [c])) ++ b by simp]
    exact List.take_left' (by simp; omega)
  have hrev : (a ++ o :: (m ++ [c])).reverse = c :: (m.reverse ++ o :: a.reverse) := by simp
  rw [htake, hrev]
  have := scan_pair (B := B.swap) hp hm.reverse a.reverse
  rw [List.length_reverse] at this
  exact this.trans (by congr 1; omega)

end EmacsConfig.Nesting
