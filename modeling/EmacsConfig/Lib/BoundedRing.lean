import Mathlib.Data.List.Basic

/-!
# Rings

A ring of Emacs' `ring.el`: at most `size` elements, newest first. Indices are
taken modulo the length; inserting into a full ring drops the oldest element.
-/

namespace EmacsConfig

structure BoundedRing (α : Type*) (size : Nat) where
  items : List α
  length_le : items.length ≤ size

variable {α : Type*} {size : Nat}

namespace BoundedRing

/-- `make-ring` -/
def empty : BoundedRing α size := ⟨[], Nat.zero_le size⟩

def isEmpty (r : BoundedRing α size) : Bool := r.items.isEmpty

def length (r : BoundedRing α size) : Nat := r.items.length

/-- `ring-ref` -/
def ref (r : BoundedRing α size) (index : Nat) : Option α := r.items[index % r.length]?

/-- `ring-remove` -/
def remove (r : BoundedRing α size) (index : Nat) : BoundedRing α size :=
  ⟨r.items.eraseIdx (index % r.length),
    Nat.le_trans (List.eraseIdx_sublist ..).length_le r.length_le⟩

/-- `ring-insert` -/
def insert (r : BoundedRing α size) (a : α) : BoundedRing α size :=
  ⟨(a :: r.items).take size, List.length_take_le _ _⟩

@[simp] theorem remove_items (r : BoundedRing α size) (i : Nat) :
    (r.remove i).items = r.items.eraseIdx (i % r.length) := rfl

theorem ref_of_lt {r : BoundedRing α size} {i : Nat} (h : i < r.length) :
    r.ref i = r.items[i]? := by
  rw [ref, Nat.mod_eq_of_lt h]

theorem remove_items_of_lt {r : BoundedRing α size} {i : Nat} (h : i < r.length) :
    (r.remove i).items = r.items.eraseIdx i := by
  rw [remove_items, Nat.mod_eq_of_lt h]

/-- What `ring-ref` finds at a wrapped index is an element of the ring. -/
theorem ref_eq_some {r : BoundedRing α size} {i : Nat} {a : α} (h : r.ref i = some a) :
    r.items[i % r.length]? = some a ∧ a ∈ r.items :=
  ⟨h, List.mem_of_getElem? h⟩

/-! ## Removing what a predicate selects -/

/-- From index `idx` on, `n` times: remove the element at the index if `p`
selects it, then go to the next index. After a removal the next element has
moved down and is passed over until the indices wrap round. -/
def removeLoop (r : BoundedRing α size) (p : α → Bool) (idx : Nat) : Nat → BoundedRing α size
  | 0 => r
  | n + 1 =>
    if r.isEmpty then r
    else removeLoop (if (r.ref idx).any p then r.remove idx else r) p (idx + 1) n

/-- A front part without selected elements stays. -/
theorem removeLoop_front {p : α → Bool} {front : List α} (hp : ∀ a ∈ front, p a = false) :
    ∀ (n idx : Nat) {r : BoundedRing α size} {rest : List α}, r.items = front ++ rest →
      ∃ rest', (r.removeLoop p idx n).items = front ++ rest' := by
  intro n
  induction n with
  | zero => exact fun _ _ rest hr => ⟨rest, hr⟩
  | succ n ih =>
    intro idx r rest hr
    rw [removeLoop]
    split
    · exact ⟨rest, hr⟩
    · split
      · next hsel =>
        obtain ⟨a, ha, hpa⟩ := (Option.any_eq_true ..).1 hsel
        have hk : front.length ≤ idx % r.length := by
          by_contra hlt
          have hlt := Nat.lt_of_not_le hlt
          rw [ref, hr, List.getElem?_append_left hlt] at ha
          simp [hp a (List.mem_of_getElem? ha)] at hpa
        have hrem : (r.remove idx).items =
            front ++ rest.eraseIdx (idx % r.length - front.length) := by
          rw [remove_items, hr, List.eraseIdx_append_of_length_le hk]
        exact ih (idx + 1) hrem
      · exact ih (idx + 1) hr

theorem removeLoop_none {p : α → Bool} :
    ∀ (n idx : Nat) {r : BoundedRing α size}, (∀ a ∈ r.items, p a = false) →
      r.removeLoop p idx n = r := by
  intro n
  induction n with
  | zero => exact fun _ _ _ => rfl
  | succ n ih =>
    intro idx r hp
    have hsel : ¬ (r.ref idx).any p = true := by
      intro hsel
      obtain ⟨a, ha, hpa⟩ := (Option.any_eq_true ..).1 hsel
      simp [hp a (ref_eq_some ha).2] at hpa
    rw [removeLoop, if_neg hsel, ih (idx + 1) hp, ite_self]

/-- A single selected element is found before the indices run out. -/
theorem removeLoop_single {p : α → Bool} {a b : List α} {x : α} (ha : ∀ y ∈ a, p y = false)
    (hx : p x = true) (hb : ∀ y ∈ b, p y = false) :
    ∀ (n idx : Nat) {r : BoundedRing α size}, r.items = a ++ x :: b → idx ≤ a.length →
      a.length < idx + n → (r.removeLoop p idx n).items = a ++ b := by
  intro n
  induction n with
  | zero => intro idx r _ h1 h2; omega
  | succ n ih =>
    intro idx r hr hle hlt
    have hlen : r.length = a.length + b.length + 1 := by simp [length, hr]; omega
    have hne : r.isEmpty = false := by simp [isEmpty, hr]
    rw [removeLoop, hne, if_neg Bool.false_ne_true, ref_of_lt (by omega), hr]
    rcases Nat.lt_or_eq_of_le hle with hidx | rfl
    · have hnot : p a[idx] = false := ha _ (List.getElem_mem hidx)
      rw [List.getElem?_append_left hidx, List.getElem?_eq_getElem hidx, Option.any_some, hnot,
        if_neg Bool.false_ne_true]
      exact ih (idx + 1) hr hidx (by omega)
    · have hrem : (r.remove a.length).items = a ++ b := by
        rw [remove_items_of_lt (by omega), hr, List.eraseIdx_append_of_length_le (Nat.le_refl _)]
        simp
      have hnone : ∀ y ∈ (r.remove a.length).items, p y = false := by
        rw [hrem]
        exact fun y hy => (List.mem_append.1 hy).elim (ha y) (hb y)
      simp only [List.getElem?_append_right (Nat.le_refl _), Nat.sub_self, List.getElem?_cons_zero,
        Option.any_some, hx, if_true]
      rw [removeLoop_none n _ hnone, hrem]

/-- When at most one element is selected, the loop over all the indices removes
exactly the selected elements. -/
theorem removeLoop_filter {p : α → Bool} {r : BoundedRing α size}
    (h : r.items.Pairwise fun a b => ¬ (p a = true ∧ p b = true)) :
    (r.removeLoop p 0 size).items = r.items.filter fun a => !p a := by
  by_cases hsel : ∃ x ∈ r.items, p x = true
  · obtain ⟨x, hmem, hx⟩ := hsel
    obtain ⟨a, b, hr⟩ := List.append_of_mem hmem
    rw [hr, List.pairwise_append, List.pairwise_cons] at h
    obtain ⟨-, ⟨hb, -⟩, ha⟩ := h
    have ha : ∀ y ∈ a, p y = false := fun y hy => by
      have := ha y hy x List.mem_cons_self
      simpa [hx] using this
    have hb : ∀ y ∈ b, p y = false := fun y hy => by simpa [hx] using hb y hy
    have hlen := r.length_le
    rw [hr, List.length_append, List.length_cons] at hlen
    rw [removeLoop_single ha hx hb size 0 hr (Nat.zero_le _) (by omega), hr, List.filter_append,
      List.filter_cons_of_neg (by simp [hx]), List.filter_eq_self.2 (by simpa using ha),
      List.filter_eq_self.2 (by simpa using hb)]
  · have hnone : ∀ a ∈ r.items, p a = false := fun a ha => by
      by_contra hpa
      exact hsel ⟨a, ha, by simpa using hpa⟩
    rw [removeLoop_none size 0 hnone, List.filter_eq_self.2 (by simpa using hnone)]

end BoundedRing

end EmacsConfig
