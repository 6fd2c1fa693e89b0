import EmacsConfig.Lib.Nesting

/-!
# `goto-match-paren`

Positions count the characters before point. The command tries four clauses in
order: before an opening bracket, after a closing one, before a closing one,
after an opening one. A position can satisfy several; the first clause decides,
so between `)` and `(` the command always goes forward.
-/

namespace EmacsConfig.MatchParen

open EmacsConfig.Nesting

def isOpen (c : Char) : Bool := c = '[' || c = '(' || c = '{'

def isClose (c : Char) : Bool := c = ']' || c = ')' || c = '}'

def pairs (o c : Char) : Bool :=
  (o = '[' && c = ']') || (o = '(' && c = ')') || (o = '{' && c = '}')

/-- The brackets ( ) [ ] and the braces. -/
def parens : Brackets Char where
  isOpen := isOpen
  isClose := isClose
  pairs := pairs
  not_both a h := by
    simp only [isOpen, Bool.or_eq_true, decide_eq_true_eq] at h
    rcases h with (rfl | rfl) | rfl <;> decide
  pairs_open o c h := by
    simp only [pairs, Bool.or_eq_true, Bool.and_eq_true, decide_eq_true_eq] at h
    rcases h with (⟨rfl, -⟩ | ⟨rfl, -⟩) | ⟨rfl, -⟩ <;> decide
  pairs_close o c h := by
    simp only [pairs, Bool.or_eq_true, Bool.and_eq_true, decide_eq_true_eq] at h
    rcases h with (⟨-, rfl⟩ | ⟨-, rfl⟩) | ⟨-, rfl⟩ <;> decide

/-- `looking-at` a character of a class. -/
def lookingAt (cls : Char → Bool) (text : List Char) (p : Nat) : Bool := text[p]?.any cls

/-- `looking-back` at a character of a class. -/
def lookingBack (cls : Char → Bool) (text : List Char) : Nat → Bool
  | 0 => false
  | p + 1 => text[p]?.any cls

/-- `forward-sexp` before an opening bracket, the one place it is called from;
`none` is a scan error. -/
def forwardSexp (text : List Char) (p : Nat) : Option Nat :=
  (scan isOpen isClose (text.drop p) 0).map (p + ·)

/-- `backward-sexp` after a closing bracket. -/
def backwardSexp (text : List Char) (p : Nat) : Option Nat :=
  (scan isClose isOpen (text.take p).reverse 0).map (p - ·)

/-- `goto-match-paren`: the new position, or `none` for an error. -/
def gotoMatchParen (text : List Char) (p : Nat) : Option Nat :=
  if lookingAt isOpen text p then forwardSexp text p
  else if lookingBack isClose text p then backwardSexp text p
  else if lookingAt isClose text p then backwardSexp text (p + 1)
  else if lookingBack isOpen text p then forwardSexp text (p - 1)
  else some p

/-- There is a bracket on one side of `p`. -/
def NextToBracket (text : List Char) (p : Nat) : Prop :=
  lookingAt isOpen text p ∨ lookingAt isClose text p ∨
    lookingBack isOpen text p ∨ lookingBack isClose text p

/-- The outer edge of the pair `i`, `j` that is not `p`. -/
def otherEdge (i j p : Nat) : Nat := if p = i then j + 1 else i

section
variable {text : List Char} {i j : Nat}

theorem lookingAt_iff {cls : Char → Bool} {p : Nat} :
    lookingAt cls text p = true ↔ ∃ x, text[p]? = some x ∧ cls x = true := by
  simp [lookingAt, Option.any_eq_true]

theorem lookingAt_open_pair (h : Pair parens text i j) : lookingAt isOpen text i = true :=
  lookingAt_iff.2 h.isOpen

theorem lookingAt_close_pair (h : Pair parens text i j) : lookingAt isClose text j = true :=
  lookingAt_iff.2 h.isClose

theorem not_open_of_close {p : Nat} (h : lookingAt isClose text p = true) :
    lookingAt isOpen text p = false := by
  obtain ⟨x, hx, hc⟩ := lookingAt_iff.1 h
  have hno : isOpen x = false := parens.swap.not_both x hc
  simpa [lookingAt, hx] using hno

theorem forwardSexp_pair (h : Pair parens text i j) : forwardSexp text i = some (j + 1) := by
  have hlt := h.lt
  have hs : scan isOpen isClose (text.drop i) 0 = some (j + 1 - i) := h.scan_forward
  rw [forwardSexp, hs, Option.map_some, Option.some.injEq]
  omega

theorem backwardSexp_pair (h : Pair parens text i j) : backwardSexp text (j + 1) = some i := by
  have hlt := h.lt
  have hs : scan isClose isOpen (text.take (j + 1)).reverse 0 = some (j + 1 - i) := h.scan_backward
  rw [backwardSexp, hs, Option.map_some, Option.some.injEq]
  omega

/-! ## One clause after the other -/

theorem goto_before_open (h : Pair parens text i j) : gotoMatchParen text i = some (j + 1) := by
  rw [gotoMatchParen, if_pos (lookingAt_open_pair h), forwardSexp_pair h]

theorem goto_after_close (h : Pair parens text i j) (hno : lookingAt isOpen text (j + 1) = false) :
    gotoMatchParen text (j + 1) = some i := by
  have hback : lookingBack isClose text (j + 1) = true := lookingAt_close_pair h
  rw [gotoMatchParen, hno, if_neg Bool.false_ne_true, if_pos hback, backwardSexp_pair h]

theorem goto_before_close (h : Pair parens text i j) (hback : lookingBack isClose text j = false) :
    gotoMatchParen text j = some i := by
  have hclose := lookingAt_close_pair h
  rw [gotoMatchParen, not_open_of_close hclose, if_neg Bool.false_ne_true, hback,
    if_neg Bool.false_ne_true, if_pos hclose, backwardSexp_pair h]

theorem goto_after_open (h : Pair parens text i j) (hno : lookingAt isOpen text (i + 1) = false)
    (hback : lookingBack isClose text (i + 1) = false)
    (hnc : lookingAt isClose text (i + 1) = false) :
    gotoMatchParen text (i + 1) = some (j + 1) := by
  have hopen : lookingBack isOpen text (i + 1) = true := lookingAt_open_pair h
  rw [gotoMatchParen, hno, if_neg Bool.false_ne_true, hback, if_neg Bool.false_ne_true, hnc,
    if_neg Bool.false_ne_true, if_pos hopen, Nat.add_sub_cancel, forwardSexp_pair h]

end

section
variable {text : List Char} (h : Nested parens text)
include h

theorem exists_pair_open {i : Nat} (hi : lookingAt isOpen text i = true) :
    ∃ j, Pair parens text i j := by
  obtain ⟨x, hx, ho⟩ := lookingAt_iff.1 hi
  exact exists_pair_of_open h hx ho

theorem exists_pair_close {j : Nat} (hj : lookingAt isClose text j = true) :
    ∃ i, Pair parens text i j := by
  obtain ⟨x, hx, hc⟩ := lookingAt_iff.1 hj
  exact exists_pair_of_close h hx hc

/-- The first call: it acts on a pair with a bracket next to point. From an
outer edge of that pair it goes to the other one. -/
theorem goto_first {p : Nat} (hp : NextToBracket text p) :
    ∃ i j p', Pair parens text i j ∧ (p = i ∨ p = i + 1 ∨ p = j ∨ p = j + 1) ∧
      gotoMatchParen text p = some p' ∧ (p' = i ∨ p' = j + 1) ∧
      ((p = i ∨ p = j + 1) → otherEdge i j p' = p) := by
  by_cases h1 : lookingAt isOpen text p = true
  · obtain ⟨j, hpair⟩ := exists_pair_open h h1
    have hlt := hpair.lt
    refine ⟨p, j, j + 1, hpair, .inl rfl, goto_before_open hpair, .inr rfl, fun _ => ?_⟩
    rw [otherEdge, if_neg (by omega)]
  have h1 : lookingAt isOpen text p = false := by simpa using h1
  by_cases h2 : lookingBack isClose text p = true
  · obtain _ | q := p
    · cases h2
    obtain ⟨i, hpair⟩ := exists_pair_close h h2
    refine ⟨i, q, i, hpair, .inr (.inr (.inr rfl)), goto_after_close hpair h1, .inl rfl,
      fun _ => ?_⟩
    rw [otherEdge, if_pos rfl]
  have h2 : lookingBack isClose text p = false := by simpa using h2
  by_cases h3 : lookingAt isClose text p = true
  · obtain ⟨i, hpair⟩ := exists_pair_close h h3
    have hlt := hpair.lt
    refine ⟨i, p, i, hpair, .inr (.inr (.inl rfl)), goto_before_close hpair h2, .inl rfl, ?_⟩
    omega
  have h3 : lookingAt isClose text p = false := by simpa using h3
  by_cases h4 : lookingBack isOpen text p = true
  · obtain _ | q := p
    · cases h4
    obtain ⟨j, hpair⟩ := exists_pair_open h h4
    have hlt := hpair.lt
    refine ⟨q, j, j + 1, hpair, .inr (.inl rfl), goto_after_open hpair h1 h2 h3, .inr rfl, ?_⟩
    -- `q + 1` is inside the pair, or the pair is empty and `h3` rules it out
    rintro (hq | hq) <;> omega
  · simp [NextToBracket, h1, h2, h3, h4] at hp

/-- The second call, from an outer edge of the pair: it goes to the other outer
edge unless another pair opens right after this one. -/
theorem goto_second {i j p' : Nat} (hpair : Pair parens text i j) (hp' : p' = i ∨ p' = j + 1) :
    gotoMatchParen text p' = some (otherEdge i j p') ↔
      ¬ (p' = j + 1 ∧ lookingAt isOpen text (j + 1) = true) := by
  have hlt := hpair.lt
  rcases hp' with rfl | rfl
  · rw [otherEdge, if_pos rfl]
    exact iff_of_true (goto_before_open hpair) (by omega)
  · rw [otherEdge, if_neg (by omega)]
    by_cases ho : lookingAt isOpen text (j + 1) = true
    · obtain ⟨k, hk⟩ := exists_pair_open h ho
      have hk' := hk.lt
      rw [goto_before_open hk, Option.some.injEq]
      exact iff_of_false (by omega) (by simp [ho])
    · exact iff_of_true (goto_after_close hpair (by simpa using ho)) (by simp [ho])

/-- **`goto-match-paren` on nested brackets.** The first call signals no error
and goes to an outer edge of a pair next to point; the second one goes to the
other outer edge (back to the start, if the start was an outer edge of the
pair) unless the first one ended between a closing and an opening bracket. -/
theorem gotoMatchParen_twice {p : Nat} (hp : NextToBracket text p) :
    ∃ i j p', Pair parens text i j ∧ (p = i ∨ p = i + 1 ∨ p = j ∨ p = j + 1) ∧
      gotoMatchParen text p = some p' ∧ (p' = i ∨ p' = j + 1) ∧
      (gotoMatchParen text p' = some (otherEdge i j p') ↔
        ¬ (p' = j + 1 ∧ lookingAt isOpen text (j + 1) = true)) ∧
      ((p = i ∨ p = j + 1) → otherEdge i j p' = p) := by
  obtain ⟨i, j, p', hpair, hnext, hgo, hedge, hback⟩ := goto_first h hp
  exact ⟨i, j, p', hpair, hnext, hgo, hedge, goto_second h hpair hedge, hback⟩

end

/-- A pair that is followed by another one, both in a third, from its left edge: the
second call does not come back. -/
theorem gotoMatchParen_twice_nested :
    let text := ['[', '(', ')', '[', 'x', ']', ']']
    ∃ i j p', Pair parens text i j ∧ (1 = i ∨ 1 = i + 1 ∨ 1 = j ∨ 1 = j + 1) ∧
      gotoMatchParen text 1 = some p' ∧ (p' = i ∨ p' = j + 1) ∧
      (gotoMatchParen text p' = some (otherEdge i j p') ↔
        ¬ (p' = j + 1 ∧ lookingAt isOpen text (j + 1) = true)) ∧
      ((1 = i ∨ 1 = j + 1) → otherEdge i j p' = 1) := by
  intro text
  have hx : Nested parens ['x'] := .plain (by decide) (by decide) .nil
  have hinner : Nested parens ['(', ')', '[', 'x', ']'] :=
    .pair (s := []) (by decide) .nil (.pair (s := ['x']) (by decide) hx .nil)
  have htext : Nested parens text :=
    .pair (s := ['(', ')', '[', 'x', ']']) (by decide) hinner .nil
  exact gotoMatchParen_twice htext (.inl (by decide))

/-- In `()()` the second call, made between the pairs, goes on to the end of the
second one. -/
theorem not_gotoMatchParen_returns :
    ¬ ∀ (text : List Char) (_ : Nested parens text) (p : Nat) (_ : NextToBracket text p),
      ∃ i j p', Pair parens text i j ∧ (p = i ∨ p = i + 1 ∨ p = j ∨ p = j + 1) ∧
        gotoMatchParen text p = some p' ∧ (p' = i ∨ p' = j + 1) ∧
        gotoMatchParen text p' = some (otherEdge i j p') := by
  intro h
  obtain ⟨i, j, p', hpair, hnext, h1, hedge, h2⟩ := h ['(', ')', '(', ')']
    (.pair (s := []) (by decide) .nil (.pair (s := []) (by decide) .nil .nil)) 0 (.inl (by decide))
  have hlt := hpair.lt
  have hp' : 2 = p' := Option.some.inj ((by decide : gotoMatchParen _ 0 = some 2).symm.trans h1)
  subst hp'
  have h4 : 4 = otherEdge i j 2 :=
    Option.some.inj ((by decide : gotoMatchParen _ 2 = some 4).symm.trans h2)
  unfold otherEdge at h4
  split at h4 <;> omega

end EmacsConfig.MatchParen
