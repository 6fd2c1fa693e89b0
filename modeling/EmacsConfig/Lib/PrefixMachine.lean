import Mathlib.Data.List.Infix
import Mathlib.Tactic.Common

/-!
# Matching a word by its prefixes

A machine reads letters and keeps how much of the word it has just read. When the next letter
does not go on with the word, the machine falls back along its links, to shorter prefixes of
the word that it has just read as well. Whatever the links are, what it finds is there; it
finds the word in every text exactly when its links lose nothing.
-/

namespace EmacsConfig.PrefixMachine

variable {α : Type*} [DecidableEq α]

/-- Links from a prefix of `word` to shorter ones that it ends with. -/
structure Links (word : List α) where
  fail : ℕ → Option ℕ
  lt : ∀ {m k}, fail m = some k → k < m
  border : ∀ {m k}, fail m = some k → word.take k <:+ word.take m

variable {word : List α}

namespace Links

/-- The prefix after one more letter. -/
def step (links : Links word) (m : ℕ) (a : α) : ℕ :=
  if word[m]? = some a then m + 1
  else
    match h : links.fail m with
    | some k =>
      have := links.lt h
      links.step k a
    | none => if word[0]? = some a then 1 else 0
termination_by m

/-- The prefix after some letters; the machine stops when it has read the word. -/
def run (links : Links word) : ℕ → List α → ℕ
  | m, [] => m
  | m, a :: text => if m = word.length then m else links.run (links.step m a) text

/-- No longer prefix of the word has been read than the one the machine keeps. -/
def Exact (links : Links word) : Prop :=
  ∀ m < word.length, ∀ a, ∀ b ≤ word.length, word.take b <:+ word.take m ++ [a] → b ≤ links.step m a

end Links

/-! ## One step -/

variable {links : Links word}

theorem step_of_eq {m : ℕ} {a : α} (h : word[m]? = some a) : links.step m a = m + 1 := by
  rw [Links.step, if_pos h]

theorem step_of_fail {m k : ℕ} {a : α} (h : word[m]? ≠ some a) (hk : links.fail m = some k) :
    links.step m a = links.step k a := by
  rw [Links.step, if_neg h]
  split
  · next k' hk' =>
    obtain rfl : k' = k := Option.some.inj (hk'.symm.trans hk)
    rfl
  · next hnone => rw [hk] at hnone; cases hnone

theorem step_of_root {m : ℕ} {a : α} (h : word[m]? ≠ some a) (hk : links.fail m = none) :
    links.step m a = if word[0]? = some a then 1 else 0 := by
  rw [Links.step, if_neg h]
  split
  · next k hk' => rw [hk] at hk'; cases hk'
  · rfl

theorem step_le_succ (links : Links word) (m : ℕ) (a : α) : links.step m a ≤ m + 1 := by
  induction m using Nat.strong_induction_on with
  | h m ih =>
    by_cases h : word[m]? = some a
    · rw [step_of_eq h]
    · cases hk : links.fail m with
      | some k =>
        have hlt := links.lt hk
        have := ih k hlt
        rw [step_of_fail h hk]
        omega
      | none =>
        rw [step_of_root h hk]
        split_ifs <;> omega

omit [DecidableEq α] in
theorem take_succ_of_eq {m : ℕ} {a : α} (h : word[m]? = some a) :
    word.take (m + 1) = word.take m ++ [a] := by
  rw [List.take_add_one, h, Option.toList_some]

omit [DecidableEq α] in
theorem suffix_append_singleton {xs ys : List α} (h : xs <:+ ys) (a : α) :
    xs ++ [a] <:+ ys ++ [a] := by
  obtain ⟨pre, rfl⟩ := h
  exact ⟨pre, by rw [List.append_assoc]⟩

/-- What the machine keeps has been read. -/
theorem step_suffix (links : Links word) (m : ℕ) (a : α) :
    word.take (links.step m a) <:+ word.take m ++ [a] := by
  induction m using Nat.strong_induction_on with
  | h m ih =>
    by_cases h : word[m]? = some a
    · rw [step_of_eq h, take_succ_of_eq h]
    · cases hk : links.fail m with
      | some k =>
        rw [step_of_fail h hk]
        exact (ih k (links.lt hk)).trans (suffix_append_singleton (links.border hk) a)
      | none =>
        rw [step_of_root h hk]
        split_ifs with hroot
        · rw [take_succ_of_eq hroot, List.take_zero, List.nil_append]
          exact List.suffix_append _ _
        · rw [List.take_zero]
          exact List.nil_suffix

theorem step_le_length {m : ℕ} (hm : m < word.length) (a : α) :
    links.step m a ≤ word.length :=
  (step_le_succ links m a).trans hm

theorem step_of_not_mem {m : ℕ} {a : α} (h : a ∉ word) : links.step m a = 0 := by
  have hne : ∀ i, word[i]? ≠ some a := fun i hi => h (List.mem_of_getElem? hi)
  induction m using Nat.strong_induction_on with
  | h m ih =>
    cases hk : links.fail m with
    | some k => rw [step_of_fail (hne m) hk, ih k (links.lt hk)]
    | none => rw [step_of_root (hne m) hk, if_neg (hne 0)]

/-! ## Whole texts -/

/-- **What is found is there.** -/
theorem infix_of_run {m : ℕ} {read text : List α} (hread : word.take m <:+ read)
    (h : links.run m text = word.length) : word <:+: read ++ text := by
  induction text generalizing m read with
  | nil =>
    rw [Links.run] at h
    rw [h, List.take_length] at hread
    rw [List.append_nil]
    exact hread.isInfix
  | cons a text ih =>
    rw [Links.run] at h
    split_ifs at h with hm
    · rw [hm, List.take_length] at hread
      exact hread.isInfix.trans (List.prefix_append _ _).isInfix
    · have hstep := (step_suffix links m a).trans (suffix_append_singleton hread a)
      have := ih hstep h
      rwa [List.append_assoc, List.singleton_append] at this

theorem run_append {m : ℕ} (u v : List α) : links.run m (u ++ v) = links.run (links.run m u) v := by
  induction u generalizing m with
  | nil => rfl
  | cons a u ih =>
    rw [List.cons_append, Links.run, Links.run]
    split_ifs with hm
    · cases v with
      | nil => rfl
      | cons b v => rw [Links.run, if_pos hm]
    · exact ih

theorem run_take (links : Links word) {m k : ℕ} (hk : m + k < word.length) (text : List α) :
    links.run m ((word.drop m).take k ++ text) = links.run (m + k) text := by
  induction k generalizing m with
  | zero => rw [List.take_zero, List.nil_append, Nat.add_zero]
  | succ k ih =>
    have hm : m < word.length := by omega
    rw [List.drop_eq_getElem_cons hm, List.take_succ_cons, List.cons_append, Links.run,
      if_neg hm.ne, step_of_eq (List.getElem?_eq_getElem hm), ih (by omega)]
    congr 1
    omega

/-- The word is found in itself. -/
theorem run_word (links : Links word) : links.run 0 word = word.length := by
  rcases Nat.eq_zero_or_pos word.length with hnil | hpos
  · have hempty : links.run 0 word = links.run 0 [] := congrArg _ (List.length_eq_zero_iff.1 hnil)
    rw [hempty, hnil, Links.run]
  · have hlast : word.length - 1 < word.length := Nat.sub_lt hpos Nat.one_pos
    have hsplit : (word.drop 0).take (word.length - 1) ++ [word[word.length - 1]] = word := by
      rw [List.drop_zero, ← List.take_succ_eq_append_getElem hlast, Nat.sub_add_cancel hpos,
        List.take_length]
    have hrun := run_take links (show 0 + (word.length - 1) < word.length by omega)
      [word[word.length - 1]]
    rw [hsplit, Nat.zero_add, Links.run, if_neg hlast.ne,
      step_of_eq (List.getElem?_eq_getElem hlast), Links.run, Nat.sub_add_cancel hpos] at hrun
    exact hrun

theorem run_le (links : Links word) (m : ℕ) (text : List α) :
    links.run m text ≤ m + text.length := by
  induction text generalizing m with
  | nil => exact le_rfl
  | cons a text ih =>
    rw [Links.run]
    split_ifs
    · omega
    · have := ih (links.step m a)
      have := step_le_succ links m a
      rw [List.length_cons]
      omega

/-- Nothing longer than `m` has been read. -/
def Longest (word read : List α) (m : ℕ) : Prop :=
  ∀ b ≤ word.length, word.take b <:+ read → b ≤ m

omit [DecidableEq α] in
/-- A prefix of the word that the text ends with ended, without its last letter, the text before. -/
theorem longest_append {read : List α} {m b : ℕ} {a : α} (hread : word.take m <:+ read)
    (hlongest : Longest word read m) (hb : b ≤ word.length) (h : word.take b <:+ read ++ [a]) :
    word.take b <:+ word.take m ++ [a] := by
  cases b with
  | zero =>
    rw [List.take_zero]
    exact List.nil_suffix
  | succ b =>
    have hlt : b < word.length := hb
    rw [List.take_succ_eq_append_getElem hlt] at h ⊢
    obtain ⟨pre, hpre⟩ := h
    rw [← List.append_assoc] at hpre
    obtain ⟨hbefore, hlast⟩ := List.append_inj' hpre rfl
    have hsuffix : word.take b <:+ read := ⟨pre, hbefore⟩
    have hle : b ≤ m := hlongest b hlt.le hsuffix
    have hshort : (word.take b).length ≤ (word.take m).length := by
      rw [List.length_take, List.length_take]
      omega
    rw [hlast]
    exact suffix_append_singleton (List.suffix_of_suffix_length_le hsuffix hread hshort) a

/-- **What is there is found** when the links lose nothing. -/
theorem run_of_infix (hexact : links.Exact) {m : ℕ} {read text : List α} (hread : word.take m <:+ read)
    (hm : m ≤ word.length) (hlongest : Longest word read m) (hnot : m < word.length → ¬ word <:+: read)
    (h : word <:+: read ++ text) : links.run m text = word.length := by
  induction text generalizing m read with
  | nil =>
    rw [List.append_nil] at h
    rw [Links.run]
    by_contra hne
    exact hnot (lt_of_le_of_ne hm hne) h
  | cons a text ih =>
    rw [Links.run]
    split_ifs with heq
    · exact heq
    · have hlt : m < word.length := lt_of_le_of_ne hm heq
      have hstep := (step_suffix links m a).trans (suffix_append_singleton hread a)
      have hlongest' : Longest word (read ++ [a]) (links.step m a) := fun b hb hsuffix =>
        hexact m hlt a b hb (longest_append hread hlongest hb hsuffix)
      refine ih hstep (step_le_length hlt a) hlongest' (fun hlt' hinfix => ?_)
        (by rwa [List.append_assoc])
      -- the word would end here, and it is longer than what the machine keeps
      rcases List.infix_concat_iff.1 hinfix with hsuffix | hinfix
      · have := hlongest' word.length le_rfl (by rwa [List.take_length])
        omega
      · exact hnot hlt hinfix

/-- **The machine finds the word in every text** exactly when its links lose nothing. Texts of the
letters of the word are enough to tell. -/
theorem finds_all_iff (links : Links word) (hne : word ≠ []) (ok : α → Prop)
    (hok : ∀ a ∈ word, ok a) :
    (∀ text, (∀ a ∈ text, ok a) → (links.run 0 text = word.length ↔ word <:+: text)) ↔
      links.Exact := by
  have hpos := List.length_pos_iff.2 hne
  constructor
  · intro hfinds m hm a b hb hsuffix
    by_contra hlt
    rw [not_le] at hlt
    have hmem : ∀ c ∈ word.take b, c ∈ word := fun c hc => List.mem_of_mem_take hc
    have ha : a ∈ word := by
      obtain ⟨pre, hpre⟩ := hsuffix
      refine hmem a (List.mem_of_getLast? ?_)
      have hb' : word.take b ≠ [] := by
        rw [Ne, List.take_eq_nil_iff, not_or]
        exact ⟨by omega, hne⟩
      rw [← List.getLast?_append_of_ne_nil pre hb', hpre, List.getLast?_concat]
    set text := word.take m ++ a :: word.drop b with htext
    have hinfix : word <:+: text := by
      obtain ⟨pre, hpre⟩ := hsuffix
      refine ⟨pre, [], ?_⟩
      rw [List.append_nil, htext, ← List.singleton_append, ← List.append_assoc, ← hpre,
        List.append_assoc, List.take_append_drop]
    have hletters : ∀ c ∈ text, ok c := by
      intro c hc
      refine hok c ?_
      rcases List.mem_append.1 hc with hc | hc
      · exact List.mem_of_mem_take hc
      · rcases List.mem_cons.1 hc with rfl | hc
        · exact ha
        · exact List.mem_of_mem_drop hc
    have hrun := (hfinds text hletters).2 hinfix
    have htake := run_take links (show 0 + m < word.length by omega) (a :: word.drop b)
    rw [List.drop_zero, Nat.zero_add] at htake
    rw [htext, htake, Links.run, if_neg hm.ne] at hrun
    have hle := run_le links (links.step m a) (word.drop b)
    rw [List.length_drop] at hle
    omega
  · intro hexact text _
    have hnil : word.take 0 <:+ ([] : List α) := by rw [List.take_zero]
    constructor
    · intro h
      exact infix_of_run hnil h
    · intro h
      refine run_of_infix hexact hnil hpos.le (fun b hb hsuffix => ?_) (fun _ hinfix => ?_) h
      · rw [List.suffix_nil, List.take_eq_nil_iff] at hsuffix
        rcases hsuffix with rfl | hnil
        · exact le_rfl
        · exact absurd hnil hne
      · exact hne (List.infix_nil.1 hinfix)

/-- A word whose first letter does not come again needs no links. -/
theorem exact_of_head {a : α} {rest : List α} {links : Links (a :: rest)} (ha : a ∉ rest)
    (hfail : ∀ m, links.fail m = none) : links.Exact := by
  intro m hm d b hb hsuffix
  cases b with
  | zero => exact Nat.zero_le _
  | succ b =>
    rw [List.length_cons] at hm hb
    have hlen : (rest.take b).length = b := List.length_take_of_le (Nat.le_of_succ_le_succ hb)
    rw [List.take_succ_cons] at hsuffix
    -- a prefix that begins again is the first letter alone
    have hsingle : rest.take b = [] → a = d → b + 1 ≤ links.step m d := by
      rintro hnil rfl
      rw [hnil, List.length_nil] at hlen
      subst hlen
      by_cases hgo : (a :: rest)[m]? = some a
      · rw [step_of_eq hgo]
        omega
      · have hroot : (a :: rest)[0]? = some a := rfl
        rw [step_of_root hgo (hfail m), if_pos hroot]
    have hinside : ∀ {u : List α}, a ∉ u → a :: rest.take b <:+ u ++ [d] →
        b + 1 ≤ links.step m d := by
      rintro u hu ⟨pre, hpre⟩
      rcases (rest.take b).eq_nil_or_concat with hnil | ⟨init, l, hinit⟩
      · rw [hnil] at hpre
        exact hsingle hnil (List.singleton_inj.1 (List.append_inj' hpre rfl).2)
      · rw [hinit, List.concat_eq_append, ← List.cons_append, ← List.append_assoc] at hpre
        have hbefore := (List.append_inj' hpre rfl).1
        exact absurd (hbefore ▸ List.mem_append_right pre List.mem_cons_self) hu
    cases m with
    | zero =>
      rw [List.take_zero] at hsuffix
      exact hinside List.not_mem_nil hsuffix
    | succ m =>
      rw [List.take_succ_cons, List.cons_append, List.suffix_cons_iff] at hsuffix
      rcases hsuffix with heq | hsuffix
      · have htake := (List.cons.inj heq).2
        have hbm : b = m + 1 := by
          have := congrArg List.length htake
          rw [hlen, List.length_append, List.length_take_of_le (by omega)] at this
          exact this
        have hgo : (a :: rest)[m + 1]? = some d := by
          have hget := congrArg (·[m]?) htake
          simpa [hbm, List.length_take_of_le (show m ≤ rest.length by omega)] using hget
        rw [step_of_eq hgo, hbm]
      · exact hinside (fun hmem => ha (List.mem_of_mem_take hmem)) hsuffix

end EmacsConfig.PrefixMachine
