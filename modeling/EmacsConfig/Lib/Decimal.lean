import Mathlib.Algebra.GroupWithZero.Nat
import Mathlib.Tactic.Common

/-!
# Decimal numbers in a text

`putNumber` writes a number most significant digit first, `getNumber` reads the
digits at the head of a text and returns what follows them. A number that is
followed by no digit is read back, whatever comes after it.
-/

namespace EmacsConfig.Decimal

/-- The digits of `n`, least significant first; none for `0`. -/
def lowDigits (n : ℕ) : List Char :=
  if n = 0 then [] else (n % 10).digitChar :: lowDigits (n / 10)
termination_by n

def putNumber (n : ℕ) : List Char :=
  if n = 0 then ['0'] else (lowDigits n).reverse

def digitValue (c : Char) : ℕ := c.toNat - '0'.toNat

/-- Reads digits into `n` until something else comes. -/
def getNumber (n : ℕ) : List Char → ℕ × List Char
  | [] => (n, [])
  | c :: p => if c.isDigit then getNumber (n * 10 + digitValue c) p else (n, c :: p)

theorem lowDigits_eq (n : ℕ) (h : 0 < n) : (lowDigits n).reverse = Nat.toDigits 10 n := by
  induction n using lowDigits.induct with
  | case1 => omega
  | case2 n _ ih =>
    rw [lowDigits, if_neg (by omega), List.reverse_cons]
    rcases Nat.lt_or_ge n 10 with hlt | hge
    · have hdiv : n / 10 = 0 := by omega
      rw [hdiv, lowDigits, if_pos rfl, Nat.toDigits_of_lt_base hlt, Nat.mod_eq_of_lt hlt]
      rfl
    · rw [ih (by omega), Nat.toDigits_of_base_le (by omega) hge]

theorem putNumber_eq (n : ℕ) : putNumber n = Nat.toDigits 10 n := by
  unfold putNumber
  split
  · rename_i h
    rw [h, Nat.toDigits_zero]
  · exact lowDigits_eq n (by omega)

theorem isDigit_of_mem {n : ℕ} {c : Char} (h : c ∈ putNumber n) : c.isDigit := by
  rw [putNumber_eq] at h
  exact Nat.isDigit_of_mem_toDigits (by omega) (by omega) h

theorem putNumber_ne_nil (n : ℕ) : putNumber n ≠ [] := by
  rw [putNumber_eq]
  exact Nat.toDigits_ne_nil

/-- A written number starts with a digit. -/
theorem exists_cons (n : ℕ) : ∃ c p, putNumber n = c :: p ∧ c.isDigit := by
  obtain ⟨c, p, h⟩ := List.exists_cons_of_ne_nil (putNumber_ne_nil n)
  exact ⟨c, p, h, isDigit_of_mem (n := n) (by simp [h])⟩

theorem putNumber_of_lt {n : ℕ} (h : n < 10) : putNumber n = [n.digitChar] := by
  rw [putNumber_eq, Nat.toDigits_of_lt_base h]

theorem digitValue_digitChar {n : ℕ} (h : n < 10) : digitValue n.digitChar = n :=
  Nat.toNat_digitChar_sub_48_of_lt_ten h

theorem length_putNumber_le {n k : ℕ} (hk : 0 < k) : (putNumber n).length ≤ k ↔ n < 10 ^ k := by
  rw [putNumber_eq, Nat.length_toDigits_le_iff (by omega) hk]

/-- Reading stops at the end of the digits `l`. -/
theorem getNumber_append {l : List Char} (hl : ∀ c ∈ l, c.isDigit) {p : List Char}
    (hp : ∀ c ∈ p.head?, ¬ c.isDigit) (n : ℕ) :
    getNumber n (l ++ p) = (Nat.ofDigitChars 10 l n, p) := by
  induction l generalizing n with
  | nil =>
    cases p with
    | nil => simp [getNumber]
    | cons c p => simp [getNumber, hp c (by simp)]
  | cons c l ih =>
    rw [List.cons_append, getNumber, if_pos (hl c (by simp)), Nat.ofDigitChars_cons,
      ih (fun d hd => hl d (by simp [hd])), Nat.mul_comm n 10]
    rfl

/-- **A written number is read back.** -/
theorem getNumber_putNumber (n : ℕ) {p : List Char} (hp : ∀ c ∈ p.head?, ¬ c.isDigit) :
    getNumber 0 (putNumber n ++ p) = (n, p) := by
  rw [getNumber_append (fun c hc => isDigit_of_mem hc) hp, putNumber_eq,
    Nat.ofDigitChars_ten_toDigits]

theorem length_getNumber_le (n : ℕ) (p : List Char) : (getNumber n p).2.length ≤ p.length := by
  induction p generalizing n with
  | nil => simp [getNumber]
  | cons c p ih =>
    unfold getNumber
    split
    · have := ih (n * 10 + digitValue c)
      simp only [List.length_cons]
      omega
    · simp

end EmacsConfig.Decimal
