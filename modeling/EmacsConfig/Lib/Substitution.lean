import Mathlib.Data.List.Chain

/-!
# Replacing placeholders one after the other

A template is a list of characters and placeholders. A placeholder is written
with a first character that comes only there and a mark twice after it. As long
as a template has no two marks next to each other, a search finds the
placeholders only (`text_prefix_iff`), and values without marks keep it so
(`apart_fillOne`). Then replacing one placeholder after the other, in whatever
order, is substituting all of them at once (`replace_render`, `fill_fillOne`).
-/

namespace EmacsConfig.Substitution

variable {α κ : Type*}

section
variable [DecidableEq α]

/-- `replaceFrom s new n t`: the first `n` characters have been matched already. -/
def replaceFrom (s new : List α) : Nat → List α → List α
  | _, [] => []
  | n + 1, _ :: t => replaceFrom s new n t
  | 0, c :: t =>
    if s.isPrefixOf (c :: t) then new ++ replaceFrom s new (s.length - 1) t
    else c :: replaceFrom s new 0 t

/-- Replaces each occurrence of `s` from left to right. -/
def replace (s new t : List α) : List α := replaceFrom s new 0 t

theorem replaceFrom_append (s new u t : List α) :
    replaceFrom s new u.length (u ++ t) = replace s new t := by
  induction u with
  | nil => rfl
  | cons c u ih => exact ih

theorem replace_cons {s new t : List α} {c : α} (h : ¬ s <+: c :: t) :
    replace s new (c :: t) = c :: replace s new t := by
  unfold replace
  rw [replaceFrom, if_neg (by rwa [List.isPrefixOf_iff_prefix])]

theorem replace_append_self {c : α} {s : List α} (new t : List α) :
    replace (c :: s) new ((c :: s) ++ t) = new ++ replace (c :: s) new t := by
  rw [List.cons_append, replace, replaceFrom, if_pos (by simp)]
  exact congrArg (new ++ ·) (replaceFrom_append (c :: s) new s t)

/-- A text without its first character is left alone. -/
theorem replace_append_of_notMem {c : α} {s u : List α} (hu : c ∉ u) (new t : List α) :
    replace (c :: s) new (u ++ t) = u ++ replace (c :: s) new t := by
  induction u with
  | nil => rfl
  | cons a u ih =>
    rw [List.mem_cons, not_or] at hu
    rw [List.cons_append, replace_cons (fun h => hu.1 (List.cons_prefix_cons.1 h).1), ih hu.2]
    rfl

end

/-! ## No two marks next to each other -/

/-- Pieces that have `m` only where they stand for `m` bring no two together. -/
theorem apart_flatMap {β γ : Type*} {m : β} {n : γ} {f : β → List γ}
    (hne : ∀ t, f t ≠ []) (hf : ∀ t, (f t).IsChain fun x y => ¬ (x = n ∧ y = n))
    (hmem : ∀ t, n ∈ f t → t = m) {ts : List β}
    (h : ts.IsChain fun t u => ¬ (t = m ∧ u = m)) :
    (ts.flatMap f).IsChain fun x y => ¬ (x = n ∧ y = n) := by
  rw [List.flatMap, List.isChain_flatten (by simpa using fun t _ => hne t), List.isChain_map]
  refine ⟨by simpa using fun t _ => hf t, h.imp fun t u htu x hx y hy hxy => htu ?_⟩
  obtain ⟨rfl, rfl⟩ := hxy
  exact ⟨hmem t (List.mem_of_getLast? hx), hmem u (List.mem_of_head? hy)⟩

theorem apart_of_notMem {β : Type*} {m : β} {ts : List β} (h : m ∉ ts) :
    ts.IsChain fun t u => ¬ (t = m ∧ u = m) := by
  refine List.Pairwise.isChain (List.pairwise_of_forall_mem_list fun t ht u _ => ?_)
  rintro ⟨rfl, -⟩
  exact h ht

/-! ## Templates -/

inductive Token (α κ : Type*) where
  | char (a : α)
  | slot (k : κ)
  deriving DecidableEq, Repr

/-- All placeholders at once. -/
def fill (σ : κ → List α) (ts : List (Token α κ)) : List α :=
  ts.flatMap fun
    | .char a => [a]
    | .slot k => σ k

/-- `v` for the placeholder `k`. -/
def fillOne [DecidableEq κ] (k : κ) (v : List α) (ts : List (Token α κ)) : List (Token α κ) :=
  ts.flatMap fun
    | .char a => [.char a]
    | .slot k' => if k' = k then v.map .char else [.slot k']

/-- How placeholders are written. -/
structure Marks (α κ : Type*) where
  first : α
  mark : α
  body : κ → List α
  first_ne : first ≠ mark
  first_notMem : ∀ k, first ∉ body k
  body_inj : ∀ k k' t, body k <+: body k' ++ t → k = k'

namespace Marks

variable (M : Marks α κ)

def text (k : κ) : List α := M.first :: M.mark :: M.mark :: M.body k

def render (ts : List (Token α κ)) : List α :=
  ts.flatMap fun
    | .char a => [a]
    | .slot k => M.text k

/-- No two marks next to each other. -/
def Apart (ts : List (Token α κ)) : Prop :=
  ts.IsChain fun t u => ¬ (t = .char M.mark ∧ u = .char M.mark)

instance [DecidableEq α] [DecidableEq κ] (ts : List (Token α κ)) : Decidable (M.Apart ts) :=
  inferInstanceAs (Decidable (List.IsChain _ ts))

theorem render_append (ts us : List (Token α κ)) :
    M.render (ts ++ us) = M.render ts ++ M.render us :=
  List.flatMap_append

@[simp] theorem render_slot (k : κ) : M.render [.slot k] = M.text k := List.append_nil _

theorem render_chars (v : List α) : M.render (v.map .char) = v := by
  simp [render, List.flatMap_map]

theorem text_prefix_iff {k : κ} {ts : List (Token α κ)} (h : M.Apart ts) :
    M.text k <+: M.render ts ↔ ∃ us, ts = .slot k :: us := by
  constructor
  · intro hprefix
    cases ts with
    | nil => exact absurd (List.prefix_nil.1 hprefix) (List.cons_ne_nil _ _)
    | cons t us =>
      cases t with
      | slot k' =>
        have hbody : M.body k <+: M.body k' ++ M.render us := by
          have htext : M.text k <+: M.text k' ++ M.render us := hprefix
          simpa [text] using htext
        rw [M.body_inj k k' _ hbody]
        exact ⟨us, rfl⟩
      | char a =>
        -- two marks would have to follow
        exfalso
        have hmarks : M.mark :: M.mark :: M.body k <+: M.render us :=
          (List.cons_prefix_cons.1 hprefix).2
        rcases us with _ | ⟨_ | k1, us⟩
        · exact absurd (List.prefix_nil.1 hmarks) (List.cons_ne_nil _ _)
        · obtain ⟨rfl, hmark⟩ := List.cons_prefix_cons.1 hmarks
          rcases us with _ | ⟨_ | k2, us⟩
          · exact absurd (List.prefix_nil.1 hmark) (List.cons_ne_nil _ _)
          · obtain ⟨rfl, -⟩ := List.cons_prefix_cons.1 hmark
            have hchain := (List.isChain_cons_cons.1 (List.isChain_cons_cons.1 h).2).1
            exact hchain ⟨rfl, rfl⟩
          · exact M.first_ne (List.cons_prefix_cons.1 hmark).1.symm
        · exact M.first_ne (List.cons_prefix_cons.1 hmarks).1.symm
  · rintro ⟨us, rfl⟩
    exact List.prefix_append _ _

section
variable [DecidableEq κ]

theorem slot_mem_fillOne {k k' : κ} {v : List α} {ts : List (Token α κ)}
    (h : .slot k' ∈ fillOne k v ts) : .slot k' ∈ ts ∧ k' ≠ k := by
  obtain ⟨t, ht, hmem⟩ := List.mem_flatMap.1 h
  cases t with
  | char a => simp at hmem
  | slot k1 =>
    dsimp only at hmem
    split at hmem
    · simp at hmem
    · next hne =>
      obtain rfl : k' = k1 := by simpa using hmem
      exact ⟨ht, hne⟩

/-- Values without a mark bring no marks together. -/
theorem apart_fillOne {k : κ} {v : List α} {ts : List (Token α κ)} (hv : v ≠ [])
    (hmark : M.mark ∉ v) (h : M.Apart ts) : M.Apart (fillOne k v ts) := by
  have hchars : Token.char M.mark ∉ v.map (.char : α → Token α κ) := by simpa using hmark
  refine apart_flatMap (fun t => ?_) (fun t => ?_) (fun t ht => ?_) h
  · cases t with
    | char a => exact List.cons_ne_nil _ _
    | slot k' =>
      dsimp only
      split
      · simpa using hv
      · exact List.cons_ne_nil _ _
  · cases t with
    | char a => exact List.isChain_singleton _
    | slot k' =>
      dsimp only
      split
      · exact apart_of_notMem hchars
      · exact List.isChain_singleton _
  · cases t with
    | char a => exact (List.mem_singleton.1 ht).symm
    | slot k' =>
      dsimp only at ht
      split at ht
      · exact absurd ht hchars
      · exact (List.mem_singleton.1 ht).symm

theorem replace_render [DecidableEq α] (k : κ) (v : List α) {ts : List (Token α κ)}
    (h : M.Apart ts) : replace (M.text k) v (M.render ts) = M.render (fillOne k v ts) := by
  induction ts with
  | nil => rfl
  | cons t ts ih =>
    have hprefix := M.text_prefix_iff (k := k) h
    have htail := ih h.tail
    cases t with
    | char a =>
      have hnot : ¬ M.text k <+: a :: M.render ts := by
        intro hp
        obtain ⟨us, hus⟩ := hprefix.1 hp
        cases hus
      show replace (M.text k) v (a :: M.render ts) = a :: M.render (fillOne k v ts)
      rw [replace_cons hnot, htail]
    | slot k' =>
      show replace (M.text k) v (M.text k' ++ M.render ts) =
        M.render ((if k' = k then v.map .char else [.slot k']) ++ fillOne k v ts)
      rw [render_append]
      split
      · next hk =>
        rw [hk, render_chars, ← htail]
        exact replace_append_self v (M.render ts)
      · next hk =>
        have hnot : ¬ M.text k <+: M.first :: (M.mark :: M.mark :: M.body k' ++ M.render ts) := by
          intro hp
          obtain ⟨us, hus⟩ := hprefix.1 hp
          cases hus
          exact hk rfl
        have hbody : M.first ∉ M.mark :: M.mark :: M.body k' := by
          simp [M.first_ne, M.first_notMem k']
        have hrest : replace (M.text k) v (M.mark :: M.mark :: M.body k' ++ M.render ts) =
            M.mark :: M.mark :: M.body k' ++ replace (M.text k) v (M.render ts) :=
          replace_append_of_notMem hbody v (M.render ts)
        rw [render_slot, ← htail]
        exact (replace_cons hnot).trans (congrArg (M.first :: ·) hrest)

theorem fill_fillOne (σ : κ → List α) (k : κ) (ts : List (Token α κ)) :
    fill σ (fillOne k (σ k) ts) = fill σ ts := by
  unfold fill fillOne
  rw [List.flatMap_assoc]
  refine List.flatMap_congr fun t _ => ?_
  cases t with
  | char a => simp
  | slot k' =>
    dsimp only
    split
    · next h => simp [h, List.flatMap_map]
    · simp

end

theorem render_eq_fill {σ : κ → List α} {ts : List (Token α κ)} (h : ∀ k, .slot k ∉ ts) :
    M.render ts = fill σ ts := by
  refine List.flatMap_congr fun t ht => ?_
  cases t with
  | char a => rfl
  | slot k => exact absurd ht (h k)

/-- No placeholder is in the result. -/
theorem not_infix_fill {σ : κ → List α} {ts : List (Token α κ)}
    (hσ : ∀ k, σ k ≠ [] ∧ M.mark ∉ σ k) (h : M.Apart ts) (k : κ) :
    ¬ M.text k <:+: fill σ ts := by
  intro hinfix
  have hfill : (fill σ ts).IsChain fun a b => ¬ (a = M.mark ∧ b = M.mark) := by
    refine apart_flatMap (fun t => ?_) (fun t => ?_) (fun t ht => ?_) h
    · cases t with
      | char a => exact List.cons_ne_nil _ _
      | slot k' => exact (hσ k').1
    · cases t with
      | char a => exact List.isChain_singleton _
      | slot k' => exact apart_of_notMem (hσ k').2
    · cases t with
      | char a => rw [← List.mem_singleton.1 ht]
      | slot k' => exact absurd ht (hσ k').2
  have htext := hfill.infix hinfix
  exact (List.isChain_cons_cons.1 htext.tail).1 ⟨rfl, rfl⟩

end Marks

end EmacsConfig.Substitution
