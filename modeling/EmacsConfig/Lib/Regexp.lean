import Mathlib.Data.List.Forall2

/-!
# Backtracking regular expressions

`outcomes` lists the ways a regular expression can match from a point on, in the
order a backtracking matcher tries them; a group keeps what its last repetition
has matched. `Consumes` says which words an expression matches, and the matcher
finds exactly these (`consumes_of_mem_outcomes`, `exists_outcome`).
-/

namespace EmacsConfig.Regexp

universe u

variable {α : Type u}

inductive Re (α : Type u) where
  | empty
  | one (p : α → Bool)
  | seq (r s : Re α)
  | alt (r s : Re α)
  | star (r : Re α)
  | group (n : Nat) (r : Re α)
  /-- The end of the text. -/
  | eos

/-- Where a match has come to; the newest entry of `groups` first. -/
structure Cursor (α : Type u) where
  pos : Nat
  rest : List α
  groups : List (Nat × Nat × Nat)
  deriving DecidableEq, Repr

/-- As often as possible first, and never without getting on. -/
def starLoop (step : Cursor α → List (Cursor α)) : Nat → Cursor α → List (Cursor α)
  | 0, c => [c]
  | n + 1, c =>
    ((step c).filter fun c' => c'.rest.length < c.rest.length).flatMap (starLoop step n) ++ [c]

def outcomes : Re α → Cursor α → List (Cursor α)
  | .empty, c => [c]
  | .one p, c =>
    match c.rest with
    | [] => []
    | a :: rest => if p a then [{ c with pos := c.pos + 1, rest := rest }] else []
  | .seq r s, c => (outcomes r c).flatMap (outcomes s)
  | .alt r s, c => outcomes r c ++ outcomes s c
  | .star r, c => starLoop (outcomes r) c.rest.length c
  | .group n r, c => (outcomes r c).map fun c' => { c' with groups := (n, c.pos, c'.pos) :: c'.groups }
  | .eos, c => if c.rest.isEmpty then [c] else []

/-- Where the match begins, and the cursor at its end. -/
structure MatchData (α : Type u) where
  beginning : Nat
  last : Cursor α
  deriving DecidableEq, Repr

/-- The first match from position `pos` on. -/
def searchFrom (r : Re α) (pos : Nat) : List α → Option (MatchData α)
  | [] => (outcomes r ⟨pos, [], []⟩).head?.map (⟨pos, ·⟩)
  | a :: s =>
    match (outcomes r ⟨pos, a :: s, []⟩).head? with
    | some c => some ⟨pos, c⟩
    | none => searchFrom r (pos + 1) s

/-- `string-match` -/
def stringMatch (r : Re α) (s : List α) : Option (MatchData α) := searchFrom r 0 s

/-- `match-string` -/
def matchString (n : Nat) (s : List α) (m : MatchData α) : Option (List α) :=
  (m.last.groups.lookup n).map fun g => (s.take g.2).drop g.1

/-! ## The words of an expression -/

inductive Star (P : List α → List α → Prop) : List α → List α → Prop where
  | nil (rest : List α) : Star P [] rest
  | cons {w v rest : List α} : w ≠ [] → P w (v ++ rest) → Star P v rest → Star P (w ++ v) rest

/-- `r` matches the word `w` if `rest` follows it. -/
def Consumes : Re α → List α → List α → Prop
  | .empty, w, _ => w = []
  | .one p, w, _ => ∃ a, p a ∧ w = [a]
  | .seq r s, w, rest => ∃ u v, w = u ++ v ∧ Consumes r u (v ++ rest) ∧ Consumes s v rest
  | .alt r s, w, rest => Consumes r w rest ∨ Consumes s w rest
  | .star r, w, rest => Star (Consumes r) w rest
  | .group _ r, w, rest => Consumes r w rest
  | .eos, w, rest => w = [] ∧ rest = []

/-- What a step from `c` to `c'` has gone over. -/
def Goes (P : List α → List α → Prop) (c c' : Cursor α) : Prop :=
  ∃ w, c.rest = w ++ c'.rest ∧ P w c'.rest

theorem goes_starLoop {P : List α → List α → Prop} {step : Cursor α → List (Cursor α)}
    (hstep : ∀ c, ∀ c' ∈ step c, Goes P c c') (n : Nat) (c : Cursor α) :
    ∀ c' ∈ starLoop step n c, Goes (Star P) c c' := by
  induction n generalizing c with
  | zero =>
    rintro c' hc'
    obtain rfl := List.mem_singleton.1 hc'
    exact ⟨[], rfl, .nil _⟩
  | succ n ih =>
    rintro c' hc'
    rcases List.mem_append.1 hc' with hc' | hc'
    · obtain ⟨c1, hc1, hmem⟩ := List.mem_flatMap.1 hc'
      rw [List.mem_filter, decide_eq_true_eq] at hc1
      obtain ⟨w, hw, hP⟩ := hstep c c1 hc1.1
      obtain ⟨v, hv, hstar⟩ := ih c1 c' hmem
      refine ⟨w ++ v, by rw [hw, hv, List.append_assoc], .cons ?_ (hv ▸ hP) hstar⟩
      rintro rfl
      rw [List.nil_append] at hw
      rw [hw] at hc1
      omega
    · obtain rfl := List.mem_singleton.1 hc'
      exact ⟨[], rfl, .nil _⟩

theorem consumes_of_mem_outcomes (r : Re α) (c : Cursor α) :
    ∀ c' ∈ outcomes r c, Goes (Consumes r) c c' := by
  induction r generalizing c with
  | empty =>
    rintro c' hc'
    obtain rfl := List.mem_singleton.1 hc'
    exact ⟨[], rfl, rfl⟩
  | one p =>
    rintro c' hc'
    unfold outcomes at hc'
    split at hc'
    · cases hc'
    · next a rest hrest =>
      split at hc'
      · next hp =>
        obtain rfl := List.mem_singleton.1 hc'
        exact ⟨[a], hrest, a, hp, rfl⟩
      · cases hc'
  | seq r s ihr ihs =>
    rintro c' hc'
    obtain ⟨c1, hc1, hmem⟩ := List.mem_flatMap.1 hc'
    obtain ⟨u, hu, hr⟩ := ihr c c1 hc1
    obtain ⟨v, hv, hs⟩ := ihs c1 c' hmem
    exact ⟨u ++ v, by rw [hu, hv, List.append_assoc], u, v, rfl, hv ▸ hr, hs⟩
  | alt r s ihr ihs =>
    rintro c' hc'
    rcases List.mem_append.1 hc' with hc' | hc'
    · obtain ⟨w, hw, hr⟩ := ihr c c' hc'
      exact ⟨w, hw, .inl hr⟩
    · obtain ⟨w, hw, hs⟩ := ihs c c' hc'
      exact ⟨w, hw, .inr hs⟩
  | star r ih => exact goes_starLoop ih _ c
  | group n r ih =>
    rintro c' hc'
    obtain ⟨c1, hc1, rfl⟩ := List.mem_map.1 hc'
    exact ih c c1 hc1
  | eos =>
    rintro c' hc'
    unfold outcomes at hc'
    split at hc'
    · next hempty =>
      obtain rfl := List.mem_singleton.1 hc'
      exact ⟨[], rfl, rfl, List.isEmpty_iff.1 hempty⟩
    · cases hc'

theorem exists_starLoop {P : List α → List α → Prop} {step : Cursor α → List (Cursor α)}
    (hstep : ∀ {c : Cursor α} {w rest}, c.rest = w ++ rest → P w rest →
      ∃ c' ∈ step c, c'.rest = rest)
    {w rest : List α} (h : Star P w rest) {n : Nat} (hn : w.length ≤ n) {c : Cursor α}
    (hc : c.rest = w ++ rest) : ∃ c' ∈ starLoop step n c, c'.rest = rest := by
  induction h generalizing n c with
  | nil rest =>
    refine ⟨c, ?_, hc⟩
    cases n with
    | zero => exact List.mem_singleton_self c
    | succ n => exact List.mem_append_right _ (List.mem_singleton_self c)
  | @cons w v rest hw hP _ ih =>
    have hpos := List.length_pos_iff.2 hw
    rw [List.length_append] at hn
    obtain ⟨n, rfl⟩ : ∃ m, n = m + 1 := ⟨n - 1, by omega⟩
    rw [List.append_assoc] at hc
    obtain ⟨c1, hc1, hrest⟩ := hstep hc hP
    obtain ⟨c', hc', hrest'⟩ := ih (n := n) (by omega) hrest
    have hlt : c1.rest.length < c.rest.length := by
      simp only [hc, hrest, List.length_append]
      omega
    refine ⟨c', List.mem_append_left _ (List.mem_flatMap.2 ⟨c1, ?_, hc'⟩), hrest'⟩
    exact List.mem_filter.2 ⟨hc1, decide_eq_true hlt⟩

theorem exists_outcome {r : Re α} {c : Cursor α} {w rest : List α}
    (hc : c.rest = w ++ rest) (h : Consumes r w rest) : ∃ c' ∈ outcomes r c, c'.rest = rest := by
  induction r generalizing c w rest with
  | empty =>
    obtain rfl : w = [] := h
    exact ⟨c, List.mem_singleton_self c, hc⟩
  | one p =>
    obtain ⟨a, hp, rfl⟩ := h
    refine ⟨{ c with pos := c.pos + 1, rest := rest }, ?_, rfl⟩
    simp [outcomes, hc, hp]
  | seq r s ihr ihs =>
    obtain ⟨u, v, rfl, hr, hs⟩ := h
    rw [List.append_assoc] at hc
    obtain ⟨c1, hc1, hrest⟩ := ihr hc hr
    obtain ⟨c', hc', hrest'⟩ := ihs hrest hs
    exact ⟨c', List.mem_flatMap.2 ⟨c1, hc1, hc'⟩, hrest'⟩
  | alt r s ihr ihs =>
    rcases h with h | h
    · obtain ⟨c', hc', hrest⟩ := ihr hc h
      exact ⟨c', List.mem_append_left _ hc', hrest⟩
    · obtain ⟨c', hc', hrest⟩ := ihs hc h
      exact ⟨c', List.mem_append_right _ hc', hrest⟩
  | star r ih => exact exists_starLoop ih h (by rw [hc, List.length_append]; omega) hc
  | group n r ih =>
    obtain ⟨c', hc', hrest⟩ := ih hc h
    exact ⟨_, List.mem_map.2 ⟨c', hc', rfl⟩, hrest⟩
  | eos =>
    obtain ⟨rfl, rfl⟩ := h
    refine ⟨c, ?_, hc⟩
    simp [outcomes, hc]

theorem searchFrom_isSome_iff (r : Re α) (pos : Nat) (s : List α) :
    (searchFrom r pos s).isSome ↔ ∃ pre w rest, s = pre ++ (w ++ rest) ∧ Consumes r w rest := by
  have hhere (pos : Nat) (s : List α) : (outcomes r ⟨pos, s, []⟩).head?.isSome ↔
      ∃ w rest, s = w ++ rest ∧ Consumes r w rest := by
    rw [List.isSome_head?]
    constructor
    · intro hne
      obtain ⟨c, hc⟩ := List.exists_mem_of_ne_nil _ hne
      obtain ⟨w, hw, hr⟩ := consumes_of_mem_outcomes r _ c hc
      exact ⟨w, c.rest, hw, hr⟩
    · rintro ⟨w, rest, hs, hr⟩
      obtain ⟨c, hc, -⟩ := exists_outcome (c := ⟨pos, s, []⟩) hs hr
      exact List.ne_nil_of_mem hc
  induction s generalizing pos with
  | nil =>
    rw [searchFrom, Option.isSome_map, hhere]
    constructor
    · rintro ⟨w, rest, hs, hr⟩
      exact ⟨[], w, rest, hs, hr⟩
    · rintro ⟨pre, w, rest, hs, hr⟩
      obtain ⟨rfl, hnil⟩ := List.append_eq_nil_iff.1 hs.symm
      exact ⟨w, rest, hnil.symm, hr⟩
  | cons a s ih =>
    have hfirst := hhere pos (a :: s)
    rw [searchFrom]
    cases hhead : (outcomes r ⟨pos, a :: s, []⟩).head? with
    | some c =>
      rw [hhead] at hfirst
      obtain ⟨w, rest, hs, hr⟩ := hfirst.1 rfl
      exact iff_of_true rfl ⟨[], w, rest, hs, hr⟩
    | none =>
      rw [hhead] at hfirst
      refine (ih (pos + 1)).trans ?_
      constructor
      · rintro ⟨pre, w, rest, rfl, hr⟩
        exact ⟨a :: pre, w, rest, rfl, hr⟩
      · rintro ⟨pre, w, rest, hs, hr⟩
        cases pre with
        | nil => exact absurd (hfirst.2 ⟨w, rest, hs, hr⟩) Bool.false_ne_true
        | cons b pre =>
          obtain ⟨rfl, rfl⟩ := List.cons.inj hs
          exact ⟨pre, w, rest, rfl, hr⟩

theorem searchFrom_of_head {r : Re α} {pos : Nat} {s : List α} {c : Cursor α}
    (h : (outcomes r ⟨pos, s, []⟩).head? = some c) : searchFrom r pos s = some ⟨pos, c⟩ := by
  cases s with
  | nil => rw [searchFrom, h, Option.map_some]
  | cons a s =>
    rw [searchFrom, h]

/-- A search finds something if a word of the expression is in the text. -/
theorem stringMatch_isSome_iff (r : Re α) (s : List α) :
    (stringMatch r s).isSome ↔ ∃ pre w rest, s = pre ++ (w ++ rest) ∧ Consumes r w rest :=
  searchFrom_isSome_iff r 0 s

/-! ## Repeated groups -/

/-- The registers after the group `k` has gone over one character after the
other from `pos` on. -/
def groupsOver (k : Nat) : Nat → List α → List (Nat × Nat × Nat) → List (Nat × Nat × Nat)
  | _, [], gs => gs
  | pos, _ :: w, gs => groupsOver k (pos + 1) w ((k, pos, pos + 1) :: gs)

theorem groupsOver_concat (k pos : Nat) (w : List α) (a : α) (gs : List (Nat × Nat × Nat)) :
    groupsOver k pos (w ++ [a]) gs =
      (k, pos + w.length, pos + w.length + 1) :: groupsOver k pos w gs := by
  induction w generalizing pos gs with
  | nil => rfl
  | cons b w ih =>
    have hpos : pos + 1 + w.length = pos + (w.length + 1) := by omega
    rw [List.cons_append, groupsOver, ih, groupsOver, List.length_cons, hpos]

/-- A repeated group of one character takes as many as there are. -/
theorem head?_starLoop_group {p : α → Bool} (k n pos : Nat) {w t : List α}
    (gs : List (Nat × Nat × Nat)) (hn : w.length ≤ n) (hw : ∀ a ∈ w, p a)
    (ht : ∀ a ∈ t.head?, p a = false) :
    (starLoop (outcomes (.group k (.one p))) n ⟨pos, w ++ t, gs⟩).head? =
      some ⟨pos + w.length, t, groupsOver k pos w gs⟩ := by
  induction w generalizing n pos gs with
  | nil =>
    cases n with
    | zero => rfl
    | succ n =>
      have hnone : outcomes (.group k (.one p)) ⟨pos, [] ++ t, gs⟩ = [] := by
        cases t with
        | nil => rfl
        | cons a t => simp [outcomes, ht a rfl]
      rw [starLoop, hnone]
      rfl
  | cons a w ih =>
    obtain ⟨n, rfl⟩ : ∃ m, n = m + 1 := ⟨n - 1, by rw [List.length_cons] at hn; omega⟩
    rw [List.forall_mem_cons] at hw
    have hone : outcomes (.group k (.one p)) ⟨pos, a :: w ++ t, gs⟩ =
        [⟨pos + 1, w ++ t, (k, pos, pos + 1) :: gs⟩] := by
      simp [outcomes, hw.1]
    have hrest := ih n (pos + 1) ((k, pos, pos + 1) :: gs) (by simpa using hn) hw.2
    rw [starLoop, hone]
    simp only [List.cons_append, List.length_cons, Nat.lt_succ_self, decide_true,
      List.filter_cons_of_pos, List.filter_nil, List.flatMap_cons, List.flatMap_nil,
      List.append_nil]
    rw [List.head?_append, hrest, groupsOver]
    simp
    omega

/-- After a search for a repeated group of one character, the group is the last
character of the run it has gone over. -/
theorem matchString_star {p : α → Bool} (k : Nat) {w t : List α} {a : α}
    (hw : ∀ b ∈ w ++ [a], p b) (ht : ∀ b ∈ t.head?, p b = false) :
    (stringMatch (.star (.group k (.one p))) (w ++ [a] ++ t)).bind
      (matchString k (w ++ [a] ++ t)) = some [a] := by
  have hhead := head?_starLoop_group k (w ++ [a] ++ t).length 0 [] (by simp) hw ht
  rw [groupsOver_concat] at hhead
  have hmatch : stringMatch (.star (.group k (.one p))) (w ++ [a] ++ t) = some ⟨0, _⟩ :=
    searchFrom_of_head hhead
  have htake : (w ++ [a] ++ t).take (w.length + 1) = w ++ [a] := List.take_left' (by simp)
  rw [hmatch, Option.bind_some, matchString, List.lookup_cons_self, Option.map_some, Nat.zero_add,
    htake, List.drop_left]

/-! ## Words up to case -/

/-- What characters are compared by. Other characters than letters have no second case, and no
two letters of ASCII are cases of each other but for the usual ones. -/
structure CaseTable where
  fold : Char → Char
  eq_of_fold : ∀ a c : Char, c.toNat < 128 → c.isAlpha = false → fold a = fold c → a = c
  toLower_of_fold : ∀ a c : Char, a.toNat < 128 → c.toNat < 128 → fold a = fold c →
    a.toLower = c.toLower

/-- Case counts. -/
def CaseTable.exact : CaseTable := ⟨id, fun _ _ _ _ h => h, fun _ _ _ _ h => congrArg _ h⟩

def same (table : CaseTable) (a c : Char) : Bool := table.fold a = table.fold c

/-- One of `cs`. -/
def anyOf (table : CaseTable) (cs : List Char) : Re Char := .one fun a => cs.any (same table a)

/-- The characters `cs` and then `r`. -/
def word (table : CaseTable) (cs : List Char) (r : Re Char) : Re Char :=
  cs.foldr (fun c => .seq (anyOf table [c])) r

/-- `regexp-quote` -/
def regexpQuote (table : CaseTable) (cs : List Char) : Re Char := word table cs .empty

end EmacsConfig.Regexp
