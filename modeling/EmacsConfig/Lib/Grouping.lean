import Mathlib.Data.List.Forall2
import Mathlib.Data.List.Nodup
import Mathlib.Data.List.Perm.Basic
import Mathlib.Tactic.Common

/-!
# Lists grouped by a key

`addTo` appends a value to the group of its key. A list is, up to order, the parts with
each of its keys one after the other.
-/

namespace EmacsConfig.Grouping

variable {α β γ κ : Type*} [DecidableEq κ]

/-- A new key comes last. -/
def addTo (k : κ) (v : β) : List (κ × List β) → List (κ × List β)
  | [] => [(k, [v])]
  | (k', vs) :: groups => if k' = k then (k', vs ++ [v]) :: groups else (k', vs) :: addTo k v groups

def valuesOf (k : κ) : List (κ × List β) → List β
  | [] => []
  | (k', vs) :: groups => if k' = k then vs else valuesOf k groups

theorem valuesOf_addTo (k k' : κ) (v : β) (groups : List (κ × List β)) :
    valuesOf k (addTo k' v groups) =
      if k' = k then valuesOf k groups ++ [v] else valuesOf k groups := by
  induction groups with
  | nil => simp [addTo, valuesOf]
  | cons group groups ih =>
    obtain ⟨key, vs⟩ := group
    simp only [addTo]
    by_cases hkey : key = k'
    · subst hkey
      rw [if_pos rfl, valuesOf, valuesOf]
      split_ifs <;> rfl
    · rw [if_neg hkey, valuesOf, valuesOf, ih]
      by_cases hk : key = k
      · subst hk
        rw [if_pos rfl, if_pos rfl, if_neg (Ne.symm hkey)]
      · rw [if_neg hk, if_neg hk]

theorem mem_keys_addTo {k k' : κ} {v : β} {groups : List (κ × List β)}
    (h : k ∈ (addTo k' v groups).map (·.1)) : k = k' ∨ k ∈ groups.map (·.1) := by
  induction groups with
  | nil => exact .inl (by simpa [addTo] using h)
  | cons group groups ih =>
    obtain ⟨key, vs⟩ := group
    rw [addTo] at h
    split_ifs at h with hkey
    · exact .inr h
    · rcases List.mem_cons.1 h with rfl | h
      · exact .inr List.mem_cons_self
      · exact (ih h).imp id (List.mem_cons_of_mem _)

theorem nodup_addTo {groups : List (κ × List β)} (h : (groups.map (·.1)).Nodup) (k : κ) (v : β) :
    ((addTo k v groups).map (·.1)).Nodup := by
  induction groups with
  | nil => simp [addTo]
  | cons group groups ih =>
    obtain ⟨key, vs⟩ := group
    rw [addTo]
    split_ifs with hkey
    · exact h
    · rw [List.map_cons, List.nodup_cons] at h ⊢
      exact ⟨fun hmem => (mem_keys_addTo hmem).elim hkey h.1, ih h.2⟩

theorem mem_keys_foldl {key : α → κ} {val : α → β} {l : List α} {groups : List (κ × List β)} {k : κ}
    (h : k ∈ (l.foldl (fun groups a => addTo (key a) (val a) groups) groups).map (·.1)) :
    (∃ a ∈ l, key a = k) ∨ k ∈ groups.map (·.1) := by
  induction l generalizing groups with
  | nil => exact .inr h
  | cons a l ih =>
    rcases ih h with ⟨b, hb, hkey⟩ | hmem
    · exact .inl ⟨b, List.mem_cons_of_mem _ hb, hkey⟩
    · rcases mem_keys_addTo hmem with rfl | hmem
      · exact .inl ⟨a, List.mem_cons_self, rfl⟩
      · exact .inr hmem

/-- What the groups of a list have under `k`. -/
theorem valuesOf_foldl (key : α → κ) (val : α → β) (k : κ) (l : List α)
    (groups : List (κ × List β)) :
    valuesOf k (l.foldl (fun groups a => addTo (key a) (val a) groups) groups) =
      valuesOf k groups ++ (l.filter fun a => key a = k).map val := by
  induction l generalizing groups with
  | nil => simp
  | cons a l ih =>
    rw [List.foldl_cons, ih, valuesOf_addTo, List.filter_cons]
    by_cases hk : key a = k <;> simp [hk]

theorem nodup_foldl (key : α → κ) (val : α → β) (l : List α) {groups : List (κ × List β)}
    (h : (groups.map (·.1)).Nodup) :
    ((l.foldl (fun groups a => addTo (key a) (val a) groups) groups).map (·.1)).Nodup := by
  induction l generalizing groups with
  | nil => exact h
  | cons a l ih => exact ih (nodup_addTo h _ _)

theorem valuesOf_of_notMem {k : κ} {groups : List (κ × List β)} (h : k ∉ groups.map (·.1)) :
    valuesOf k groups = [] := by
  induction groups with
  | nil => rfl
  | cons group groups ih =>
    rw [List.map_cons, List.mem_cons, not_or] at h
    rw [valuesOf, if_neg (Ne.symm h.1), ih h.2]

/-- **One group of the output**: `f` turns a group into records under its key. -/
theorem filter_flatten {f : κ → List β → Option (List (κ × γ))}
    (hkey : ∀ k vs rs, f k vs = some rs → ∀ r ∈ rs, r.1 = k) {groups : List (κ × List β)}
    (hnodup : (groups.map (·.1)).Nodup) {rss : List (List (κ × γ))}
    (h : groups.mapM (fun group => f group.1 group.2) = some rss) {k : κ} (hnil : f k [] = some []) :
    f k (valuesOf k groups) = some (rss.flatten.filter fun r => r.1 = k) := by
  induction groups generalizing rss with
  | nil =>
    obtain rfl := Option.some.inj h
    exact hnil
  | cons group groups ih =>
    obtain ⟨key, vs⟩ := group
    rw [List.mapM_cons] at h
    obtain ⟨rs, hrs, h⟩ := Option.bind_eq_some_iff.1 h
    obtain ⟨later, hlater, h⟩ := Option.bind_eq_some_iff.1 h
    obtain rfl := Option.some.inj h
    rw [List.map_cons, List.nodup_cons] at hnodup
    rw [List.flatten_cons, List.filter_append, valuesOf]
    have hrest := ih hnodup.2 hlater
    have hin : ∀ r ∈ rs, r.1 = key := hkey key vs rs hrs
    split_ifs with hk
    · subst hk
      rw [valuesOf_of_notMem hnodup.1, hnil] at hrest
      rw [← Option.some.inj hrest, List.append_nil, List.filter_eq_self.2 (by simpa using hin)]
      exact hrs
    · rw [List.filter_eq_nil_iff.2, List.nil_append]
      · exact hrest
      · intro r hr
        rw [hin r hr, decide_eq_true_eq]
        exact hk

/-- What is in the order of the images can be taken in that order. -/
theorem exists_perm_of_perm_map {f : α → β} {l : List α} {l' : List β} (h : l'.Perm (l.map f)) :
    ∃ l₁ : List α, l₁.map f = l' ∧ l₁.Perm l := by
  have hmap : List.Forall₂ (fun b a => f a = b) (l.map f) l := by
    rw [List.forall₂_map_left_iff, List.forall₂_same]
    exact fun _ _ => rfl
  obtain ⟨l₁, hl₁, hperm⟩ := List.perm_comp_forall₂ h hmap
  refine ⟨l₁, ?_, hperm⟩
  clear h hperm
  induction hl₁ with
  | nil => rfl
  | cons hab _ ih => rw [List.map_cons, hab, ih]

/-- **A list by its keys.** -/
theorem perm_flatMap_filter (key : α → κ) {keys : List κ} (hnodup : keys.Nodup) {l : List α}
    (hkeys : ∀ a ∈ l, key a ∈ keys) :
    l.Perm (keys.flatMap fun k => l.filter fun a => key a = k) := by
  induction keys generalizing l with
  | nil =>
    cases l with
    | nil => exact .refl []
    | cons a l => exact absurd (hkeys a List.mem_cons_self) List.not_mem_nil
  | cons k keys ih =>
    rw [List.nodup_cons] at hnodup
    have hsplit := (List.filter_append_perm (fun a => decide (key a = k)) l).symm
    rw [List.flatMap_cons]
    refine hsplit.trans (List.Perm.append_left _ ?_)
    have hrest := ih hnodup.2 (l := l.filter fun a => !decide (key a = k)) (by
      intro a ha
      obtain ⟨ha, hne⟩ := List.mem_filter.1 ha
      exact (List.mem_cons.1 (hkeys a ha)).resolve_left (by simpa using hne))
    refine hrest.trans (.of_eq (List.flatMap_congr fun k' hk' => ?_))
    rw [List.filter_filter]
    refine List.filter_congr fun a _ => ?_
    have hne : k' ≠ k := by
      rintro rfl
      exact hnodup.1 hk'
    by_cases heq : key a = k' <;> simp [heq, hne]

omit [DecidableEq κ] in
/-- What only one of the lists has. -/
theorem filter_flatten_of_only {p : α → Bool} {ls : List (List α)} {i : ℕ} {l : List α}
    (hi : ls[i]? = some l) (h : ∀ j l', ls[j]? = some l' → j ≠ i → ∀ a ∈ l', ¬ p a) :
    ls.flatten.filter p = l.filter p := by
  have hnone : ∀ ls' : List (List α), (∀ l' ∈ ls', ∀ a ∈ l', ¬ p a) → ls'.flatten.filter p = [] := by
    intro ls' hls'
    rw [List.filter_eq_nil_iff]
    intro a ha
    obtain ⟨l', hl', ha⟩ := List.mem_flatten.1 ha
    exact hls' l' hl' a ha
  obtain ⟨hlt, rfl⟩ := List.getElem?_eq_some_iff.1 hi
  have hsplit : ls = ls.take i ++ ls[i] :: ls.drop (i + 1) := by
    rw [List.getElem_cons_drop, List.take_append_drop]
  conv_lhs => rw [hsplit]
  rw [List.flatten_append, List.flatten_cons, List.filter_append, List.filter_append, hnone, hnone,
    List.nil_append, List.append_nil]
  · intro l' hl'
    obtain ⟨k, hk, rfl⟩ := List.getElem_of_mem hl'
    rw [List.getElem_drop]
    exact h _ _ (List.getElem?_eq_getElem _) (by omega)
  · intro l' hl'
    obtain ⟨k, hk, rfl⟩ := List.getElem_of_mem hl'
    rw [List.length_take] at hk
    rw [List.getElem_take]
    exact h _ _ (List.getElem?_eq_getElem _) (by omega)

end EmacsConfig.Grouping
