import EmacsConfig.Lib.Cyclic
import Mathlib.Data.List.Find
import Mathlib.Data.List.TakeWhile

/-!
# Jumping between the occurrences of a symbol

`highlight-symbol-jump` searches for the symbol at point, forward or backward, and starts
again at the other end of the accessible text when there is no further occurrence. Point
stays at the same place of the symbol, and only the first of a chain of jumps pushes the
mark.
-/

namespace EmacsConfig.SymbolJumps

open Cyclic

/-- Point and marks are counted from 0; `marks` is the mark followed by the mark ring. -/
structure State where
  text : List Char
  point : ℕ
  marks : List ℕ
  lastJump : Bool
  deriving DecidableEq, Repr

def markRingMax : ℕ := 16

def pushMark (point : ℕ) (marks : List ℕ) : List ℕ := (point :: marks).take (markRingMax + 1)

section

variable (isSymbol : Char → Bool)

/-- `bounds-of-thing-at-point`: the run of symbol constituents around `p`. -/
def boundsOfSymbol (text : List Char) (p : ℕ) : Option (ℕ × ℕ) :=
  let beg := p - ((text.take p).reverse.takeWhile isSymbol).length
  let stop := p + ((text.drop p).takeWhile isSymbol).length
  if beg < stop then some (beg, stop) else none

def symbolAt (text : List Char) (i : ℕ) : Bool := text[i]?.any isSymbol

/-- `\_<` -/
def startsSymbol (text : List Char) (i : ℕ) : Bool :=
  symbolAt isSymbol text i && !(decide (0 < i) && symbolAt isSymbol text (i - 1))

/-- `\_>` -/
def endsSymbol (text : List Char) (i : ℕ) : Bool :=
  (decide (0 < i) && symbolAt isSymbol text (i - 1)) && !symbolAt isSymbol text i

/-- The regexp of `highlight-symbol-get-symbol` matches at `i`. -/
def matchAt (sym text : List Char) (i : ℕ) : Bool :=
  startsSymbol isSymbol text i && sym.isPrefixOf (text.drop i) &&
    endsSymbol isSymbol text (i + sym.length)

/-- `re-search-forward`: where a match starts, at or after `p`; with a count of -1 the last one
that ends at or before `p`. -/
def reSearch (sym text : List Char) : Dir → ℕ → Option ℕ
  | .forward, p => (List.range (text.length + 1)).find? fun i =>
    decide (p ≤ i) && matchAt isSymbol sym text i
  | .backward, p => (List.range (text.length + 1)).reverse.find? fun i =>
    decide (i + sym.length ≤ p) && matchAt isSymbol sym text i

/-- The end of the symbol that a search in this direction starts from and arrives at. -/
def frontOf (dir : Dir) (beg stop : ℕ) : ℕ :=
  match dir with
  | .forward => stop
  | .backward => beg

/-- Where a search starts again. -/
def farEnd (text : List Char) : Dir → ℕ
  | .forward => 0
  | .backward => text.length

/-- `highlight-symbol-jump` in the text between the two ends of `region`. -/
def jump (region : ℕ × ℕ) (s : State) (dir : Dir) : Except String State :=
  let text := (s.text.take region.2).drop region.1
  let point := s.point - region.1
  match boundsOfSymbol isSymbol text point with
  | none => .error "No symbol at point"
  | some (beg, stop) =>
    let sym := (text.take stop).drop beg
    let offset : ℤ := point - frontOf dir beg stop
    let marks := if s.lastJump then s.marks else pushMark s.point s.marks
    let start := (point - offset).toNat
    match (reSearch isSymbol sym text dir start).or
        (reSearch isSymbol sym text dir (farEnd text dir)) with
    | none => .error "Search failed"
    | some i =>
      let target := frontOf dir i (i + sym.length)
      .ok { s with point := region.1 + (target + offset).toNat, marks := marks, lastJump := true }

/-- A chain of jumps without another command in between. -/
def jumps (region : ℕ × ℕ) (s : State) (dirs : List Dir) : Except String State :=
  dirs.foldlM (jump isSymbol region) s

/-- Where the symbol stands in the text. -/
def occurrences (sym text : List Char) : List ℕ :=
  (List.range (text.length + 1)).filter (matchAt isSymbol sym text)

end

/-! ## Where a symbol stands -/

/-- No symbol constituent. -/
def Clear (isSymbol : Char → Bool) (c : Option Char) : Prop := ∀ a ∈ c, ¬ isSymbol a

/-- `sym` stands as a symbol between `pre` and `post`. -/
structure Stands (isSymbol : Char → Bool) (sym pre post : List Char) : Prop where
  constituents : ∀ c ∈ sym, isSymbol c
  ne_nil : sym ≠ []
  pre : Clear isSymbol pre.getLast?
  post : Clear isSymbol post.head?

section

variable {isSymbol : Char → Bool} {sym pre post text : List Char}

theorem takeWhile_append_clear {l rest : List Char} (hl : ∀ c ∈ l, isSymbol c)
    (hrest : Clear isSymbol rest.head?) : (l ++ rest).takeWhile isSymbol = l := by
  rw [List.takeWhile_append_of_pos hl]
  cases rest with
  | nil => rw [List.takeWhile_nil, List.append_nil]
  | cons c rest =>
    rw [List.takeWhile_cons_of_neg (hrest c rfl), List.append_nil]

/-- The bounds at any place of the symbol, its end included. -/
theorem Stands.boundsOfSymbol (h : Stands isSymbol sym pre post) {d : ℕ} (hd : d ≤ sym.length) :
    boundsOfSymbol isSymbol (pre ++ sym ++ post) (pre.length + d) =
      some (pre.length, pre.length + sym.length) := by
  have hbefore : ((pre ++ sym ++ post).take (pre.length + d)).reverse.takeWhile isSymbol =
      (sym.take d).reverse := by
    have htake : (pre ++ sym ++ post).take (pre.length + d) = pre ++ sym.take d := by
      rw [List.append_assoc, List.take_length_add_append, List.take_append_of_le_length hd]
    rw [htake, List.reverse_append]
    refine takeWhile_append_clear (fun c hc => ?_) ?_
    · exact h.constituents c (List.mem_of_mem_take (List.mem_reverse.1 hc))
    · rw [List.head?_reverse]
      exact h.pre
  have hafter : ((pre ++ sym ++ post).drop (pre.length + d)).takeWhile isSymbol = sym.drop d := by
    have hdrop : (pre ++ sym ++ post).drop (pre.length + d) = sym.drop d ++ post := by
      rw [List.append_assoc, List.drop_length_add_append, List.drop_append_of_le_length hd]
    rw [hdrop]
    exact takeWhile_append_clear (fun c hc => h.constituents c (List.mem_of_mem_drop hc)) h.post
  have hpos := List.length_pos_iff.2 h.ne_nil
  unfold SymbolJumps.boundsOfSymbol
  simp only [hbefore, hafter, List.length_reverse, List.length_take, List.length_drop,
    min_eq_left hd]
  rw [if_pos (by omega), Option.some.injEq, Prod.mk.injEq]
  omega

/-- The symbol at point stands in the text. -/
theorem exists_stands {p beg stop : ℕ} (hp : p ≤ text.length)
    (h : boundsOfSymbol isSymbol text p = some (beg, stop)) :
    ∃ pre sym post, text = pre ++ sym ++ post ∧ Stands isSymbol sym pre post ∧
      pre.length = beg ∧ beg + sym.length = stop ∧ beg ≤ p ∧ p ≤ stop := by
  unfold SymbolJumps.boundsOfSymbol at h
  simp only at h
  split_ifs at h with hlt
  obtain ⟨rfl, rfl⟩ := Prod.mk.inj (Option.some.inj h)
  -- the text before and after `p`, cut where the constituents end
  set before := (text.take p).reverse with hbefore
  set rest := text.drop p with hrest
  have htext : text = (before.dropWhile isSymbol).reverse ++
      ((before.takeWhile isSymbol).reverse ++ rest.takeWhile isSymbol) ++
        rest.dropWhile isSymbol := by
    rw [List.append_assoc, List.append_assoc, List.takeWhile_append_dropWhile, ← List.append_assoc,
      ← List.reverse_append, List.takeWhile_append_dropWhile, hbefore, List.reverse_reverse,
      List.take_append_drop]
  have hlen : (before.takeWhile isSymbol).length + (before.dropWhile isSymbol).length = p := by
    rw [← List.length_append, List.takeWhile_append_dropWhile, hbefore, List.length_reverse,
      List.length_take, min_eq_left hp]
  refine ⟨_, _, _, htext, ⟨?_, ?_, ?_, ?_⟩, ?_, ?_, ?_, ?_⟩
  · intro c hc
    rcases List.mem_append.1 hc with hc | hc
    · exact List.mem_takeWhile_imp (List.mem_reverse.1 hc)
    · exact List.mem_takeWhile_imp hc
  · rw [← List.length_pos_iff, List.length_append, List.length_reverse]
    omega
  · intro c hc
    rw [List.getLast?_reverse] at hc
    have := List.head?_dropWhile_not isSymbol before
    rw [hc] at this
    simpa using this
  · intro c hc
    have := List.head?_dropWhile_not isSymbol rest
    rw [hc] at this
    simpa using this
  · rw [List.length_reverse]
    omega
  · rw [List.length_append, List.length_reverse]
    omega
  · omega
  · omega

theorem symbolAt_append_left {l : List Char} (hl : l ≠ []) (rest : List Char) :
    symbolAt isSymbol (l ++ rest) (l.length - 1) = l.getLast?.any isSymbol := by
  have hpos := List.length_pos_iff.2 hl
  rw [symbolAt, List.getElem?_append_left (by omega), List.getLast?_eq_getElem?]

theorem symbolAt_append_right (l rest : List Char) :
    symbolAt isSymbol (l ++ rest) l.length = rest.head?.any isSymbol := by
  rw [symbolAt, List.getElem?_append_right le_rfl, Nat.sub_self, List.head?_eq_getElem?]

theorem clear_iff {c : Option Char} : Clear isSymbol c ↔ c.any isSymbol = false := by
  cases c <;> simp [Clear]

/-- A place inside the symbol. -/
theorem Stands.symbolAt (h : Stands isSymbol sym pre post) {d : ℕ} (hd : d < sym.length) :
    symbolAt isSymbol (pre ++ sym ++ post) (pre.length + d) := by
  rw [SymbolJumps.symbolAt, List.getElem?_append_left (by rw [List.length_append]; omega),
    List.getElem?_append_right (by omega), Nat.add_sub_cancel_left, List.getElem?_eq_getElem hd]
  exact h.constituents _ (List.getElem_mem hd)

theorem Stands.matchAt (h : Stands isSymbol sym pre post) :
    matchAt isSymbol sym (pre ++ sym ++ post) pre.length := by
  have hpos := List.length_pos_iff.2 h.ne_nil
  have hfirst := h.symbolAt hpos
  have hlast := h.symbolAt (Nat.sub_lt hpos one_pos)
  have hprev : (decide (0 < pre.length) &&
      SymbolJumps.symbolAt isSymbol (pre ++ sym ++ post) (pre.length - 1)) = false := by
    rw [Bool.and_eq_false_imp, decide_eq_true_eq, List.append_assoc]
    intro hlen
    rw [symbolAt_append_left (List.length_pos_iff.1 hlen), clear_iff.1 h.pre]
  have hnext : SymbolJumps.symbolAt isSymbol (pre ++ sym ++ post) (pre.length + sym.length) =
      false := by
    rw [← List.length_append, symbolAt_append_right, clear_iff.1 h.post]
  have hstop : pre.length + (sym.length - 1) = pre.length + sym.length - 1 := by omega
  rw [add_zero] at hfirst
  rw [hstop] at hlast
  have hdrop : (pre ++ sym ++ post).drop pre.length = sym ++ post := by
    rw [List.append_assoc, List.drop_left]
  have hprefix : sym.isPrefixOf (sym ++ post) :=
    List.isPrefixOf_iff_prefix.2 (List.prefix_append sym post)
  rw [SymbolJumps.matchAt, startsSymbol, endsSymbol, hfirst, hlast, hnext, hprev, hdrop, hprefix,
    decide_eq_true (Nat.add_pos_right _ hpos)]
  rfl

theorem exists_of_matchAt (hsym : ∀ c ∈ sym, isSymbol c) (hne : sym ≠ []) {i : ℕ}
    (h : matchAt isSymbol sym text i) :
    ∃ pre post, text = pre ++ sym ++ post ∧ pre.length = i ∧ Stands isSymbol sym pre post := by
  rw [SymbolJumps.matchAt, Bool.and_eq_true, Bool.and_eq_true, List.isPrefixOf_iff_prefix,
    startsSymbol, endsSymbol, Bool.and_eq_true, Bool.and_eq_true, Bool.not_eq_true',
    Bool.not_eq_true'] at h
  obtain ⟨⟨⟨hfirst, hprev⟩, post, hpost⟩, -, hnext⟩ := h
  have hi : i < text.length := by
    by_contra hge
    rw [SymbolJumps.symbolAt, List.getElem?_eq_none (by omega)] at hfirst
    cases hfirst
  have hlen : (text.take i).length = i := List.length_take_of_le hi.le
  have htext : text = text.take i ++ sym ++ post := by
    rw [List.append_assoc, hpost, List.take_append_drop]
  refine ⟨text.take i, post, htext, hlen, hsym, hne, ?_, ?_⟩
  · rw [clear_iff]
    by_cases hnil : text.take i = []
    · rw [hnil]
      rfl
    · rw [← symbolAt_append_left hnil (sym ++ post), ← List.append_assoc, ← htext, hlen]
      have hpos := List.length_pos_iff.2 hnil
      rw [hlen] at hpos
      simpa [hpos] using hprev
  · rw [clear_iff, ← symbolAt_append_right (text.take i ++ sym), ← htext, List.length_append, hlen]
    exact hnext

/-- Two places of the symbol do not overlap. -/
theorem apart_of_matchAt (hsym : ∀ c ∈ sym, isSymbol c) (hne : sym ≠ []) {i j : ℕ}
    (hi : matchAt isSymbol sym text i) (hj : matchAt isSymbol sym text j) (hlt : i < j) :
    i + sym.length ≤ j := by
  by_contra hover
  obtain ⟨pre, post, rfl, rfl, hstands⟩ := exists_of_matchAt hsym hne hi
  have hprev := hstands.symbolAt (show j - 1 - pre.length < sym.length by omega)
  rw [show pre.length + (j - 1 - pre.length) = j - 1 by omega] at hprev
  rw [SymbolJumps.matchAt, startsSymbol, hprev] at hj
  simp [show 0 < j by omega] at hj

/-! ## Searching -/

theorem mem_occurrences {i : ℕ} :
    i ∈ occurrences isSymbol sym text ↔ matchAt isSymbol sym text i := by
  rw [occurrences, List.mem_filter, and_iff_right_iff_imp, List.mem_range, Nat.lt_succ_iff]
  intro h
  by_contra hgt
  rw [SymbolJumps.matchAt, startsSymbol, SymbolJumps.symbolAt,
    List.getElem?_eq_none (by omega)] at h
  simp at h

theorem sorted_occurrences (sym text : List Char) :
    (occurrences isSymbol sym text).Pairwise (· < ·) :=
  List.pairwise_lt_range.filter _

theorem length_le_of_matchAt (hsym : ∀ c ∈ sym, isSymbol c) (hne : sym ≠ []) {i : ℕ}
    (h : matchAt isSymbol sym text i) : i + sym.length ≤ text.length := by
  obtain ⟨pre, post, rfl, rfl, -⟩ := exists_of_matchAt hsym hne h
  simp only [List.length_append]
  omega

/-- **A search** from an occurrence finds the next one in its direction, around the text. -/
theorem reSearch_eq (hsym : ∀ c ∈ sym, isSymbol c) (hne : sym ≠ []) {i : ℕ}
    (hi : matchAt isSymbol sym text i) (dir : Dir) :
    (reSearch isSymbol sym text dir (frontOf dir i (i + sym.length))).or
        (reSearch isSymbol sym text dir (farEnd text dir)) =
      neighbour dir (occurrences isSymbol sym text) i := by
  have hpos := List.length_pos_iff.2 hne
  cases dir with
  | forward =>
    have hnext : reSearch isSymbol sym text .forward (i + sym.length) =
        (occurrences isSymbol sym text).find? (i < ·) := by
      rw [occurrences, List.find?_filter, reSearch]
      refine List.find?_congr fun j _ => ?_
      rw [Bool.eq_iff_iff, Bool.and_eq_true, decide_eq_true_eq, decide_eq_true_eq, and_comm,
        decide_eq_true_eq]
      refine and_congr_right fun hj => ⟨fun hle => by omega, apart_of_matchAt hsym hne hi hj⟩
    have hfirst : reSearch isSymbol sym text .forward 0 =
        (occurrences isSymbol sym text).head? := by
      rw [occurrences, List.head?_filter, reSearch]
      simp
    rw [frontOf, farEnd, neighbour, after, hnext, hfirst]
  | backward =>
    have hprev : reSearch isSymbol sym text .backward i =
        (occurrences isSymbol sym text).reverse.find? (· < i) := by
      rw [occurrences, ← List.filter_reverse, List.find?_filter, reSearch]
      refine List.find?_congr fun j _ => ?_
      rw [Bool.eq_iff_iff, Bool.and_eq_true, decide_eq_true_eq, decide_eq_true_eq, and_comm,
        decide_eq_true_eq]
      refine and_congr_right fun hj => ⟨fun hle => by omega, fun hlt => ?_⟩
      exact apart_of_matchAt hsym hne hj hi hlt
    have hlast : reSearch isSymbol sym text .backward text.length =
        (occurrences isSymbol sym text).getLast? := by
      rw [occurrences, List.getLast?_filter, reSearch]
      refine List.find?_congr fun j _ => ?_
      rw [Bool.eq_iff_iff, Bool.and_eq_true, decide_eq_true_eq, and_iff_right_iff_imp]
      exact length_le_of_matchAt hsym hne
    rw [frontOf, farEnd, neighbour, before, hprev, hlast]

end

/-! ## Chains of jumps -/

/-- Point is at the place `d` of the symbol, in the occurrence with the index `k`. -/
structure At (isSymbol : Char → Bool) (region : ℕ × ℕ) (sym : List Char) (d : ℕ) (s : State)
    (k : ℤ) : Prop where
  constituents : ∀ c ∈ sym, isSymbol c
  ne_nil : sym ≠ []
  le : d ≤ sym.length
  place : ∃ i, around (occurrences isSymbol sym ((s.text.take region.2).drop region.1)) k = some i ∧
    s.point = region.1 + (i + d)

theorem exists_around_succ {α : Type*} {l : List α} {i j : ℤ} {x : α} (h : around l i = some x) :
    ∃ y, around l j = some y := by
  obtain ⟨hk, -⟩ := List.getElem?_eq_some_iff.1 h
  have hlt : j % (l.length : ℤ) < l.length := Int.emod_lt_of_pos j (by omega)
  have hge : 0 ≤ j % (l.length : ℤ) := Int.emod_nonneg j (by omega)
  exact ⟨_, List.getElem?_eq_getElem (by omega)⟩

section

variable {isSymbol : Char → Bool} {region : ℕ × ℕ} {sym : List Char} {d : ℕ} {s : State} {k : ℤ}

/-- **One jump.** -/
theorem At.jump (h : At isSymbol region sym d s k) (dir : Dir) :
    ∃ s', jump isSymbol region s dir = .ok s' ∧ At isSymbol region sym d s' (k + dir.sign) ∧
      s'.text = s.text ∧ s'.lastJump ∧
      s'.marks = if s.lastJump then s.marks else pushMark s.point s.marks := by
  obtain ⟨i, hi, hpoint⟩ := h.place
  have hmem := mem_occurrences.1 (List.mem_of_getElem? hi)
  obtain ⟨j, hj⟩ := exists_around_succ (j := k + dir.sign) hi
  have hfound := neighbour_around (sorted_occurrences sym _) dir hi
  rw [hj, ← reSearch_eq h.constituents h.ne_nil hmem] at hfound
  obtain ⟨pre, post, htext, rfl, hstands⟩ := exists_of_matchAt h.constituents h.ne_nil hmem
  have hbounds := hstands.boundsOfSymbol h.le
  have hle := h.le
  refine ⟨⟨s.text, region.1 + (j + d),
    if s.lastJump then s.marks else pushMark s.point s.marks, true⟩, ?_,
    ⟨h.constituents, h.ne_nil, h.le, j, hj, rfl⟩, rfl, rfl, rfl⟩
  have hslice : ((pre ++ sym ++ post).take (pre.length + sym.length)).drop pre.length = sym := by
    rw [← List.length_append, List.take_left, List.drop_left]
  have hrel : s.point - region.1 = pre.length + d := by omega
  have hplace : ((frontOf dir j (j + sym.length) : ℤ) + ((pre.length + d : ℕ) -
      frontOf dir pre.length (pre.length + sym.length))).toNat = j + d := by
    cases dir with
    | forward =>
      simp only [frontOf]
      omega
    | backward =>
      simp only [frontOf]
      omega
  rw [htext] at hfound
  unfold SymbolJumps.jump
  simp only [htext, hrel, hbounds, hslice, sub_sub_cancel, Int.toNat_natCast, hfound, hplace]

theorem At.jumps (h : At isSymbol region sym d s k) (dirs : List Dir) :
    ∃ s', jumps isSymbol region s dirs = .ok s' ∧
      At isSymbol region sym d s' (k + (dirs.map Dir.sign).sum) ∧ s'.text = s.text ∧
      s'.marks = if dirs = [] ∨ s.lastJump then s.marks else pushMark s.point s.marks := by
  induction dirs generalizing s k with
  | nil => exact ⟨s, rfl, by simpa using h, rfl, by simp⟩
  | cons dir dirs ih =>
    obtain ⟨s₁, hjump, h₁, htext, hlast, hmarks⟩ := h.jump dir
    obtain ⟨s₂, hjumps, h₂, htext₂, hmarks₂⟩ := ih h₁
    refine ⟨s₂, ?_, ?_, htext₂.trans htext, ?_⟩
    · rw [SymbolJumps.jumps, List.foldlM_cons, hjump]
      exact hjumps
    · rwa [List.map_cons, List.sum_cons, ← add_assoc]
    · rw [hmarks₂, if_pos (.inr hlast), hmarks]
      simp

/-- Where a chain of jumps starts. -/
theorem exists_at {isSymbol : Char → Bool} {region : ℕ × ℕ} {s : State} (hmin : region.1 ≤ s.point)
    (hmax : s.point ≤ region.2) (hlen : region.2 ≤ s.text.length) {beg stop : ℕ}
    (h : boundsOfSymbol isSymbol ((s.text.take region.2).drop region.1) (s.point - region.1) =
      some (beg, stop)) :
    let text := (s.text.take region.2).drop region.1
    ∃ k : ℕ, (occurrences isSymbol ((text.take stop).drop beg) text)[k]? = some beg ∧
      At isSymbol region ((text.take stop).drop beg) (s.point - region.1 - beg) s k := by
  intro text
  have hp : s.point - region.1 ≤ ((s.text.take region.2).drop region.1).length := by
    rw [List.length_drop, List.length_take]
    omega
  obtain ⟨pre, sym, post, htext, hstands, rfl, rfl, hle, hle'⟩ := exists_stands hp h
  have hslice : ((pre ++ sym ++ post).take (pre.length + sym.length)).drop pre.length = sym := by
    rw [← List.length_append, List.take_left, List.drop_left]
  obtain ⟨k, hk, hget⟩ := List.getElem_of_mem (mem_occurrences.2 hstands.matchAt)
  have hplace := (List.getElem?_eq_getElem hk).trans (congrArg some hget)
  rw [show text = pre ++ sym ++ post from htext, hslice]
  refine ⟨k, hplace, hstands.constituents, hstands.ne_nil, by omega, pre.length, ?_, by omega⟩
  rw [htext, around_natCast hk, hplace]

end

/-- **Jumps go around the occurrences**: from the occurrence with the index `k`, a chain of
jumps arrives at the one whose index is `k` and the sum of the directions, modulo the number
of occurrences, at the same place of the symbol. The first jump alone pushes the mark. -/
theorem jumps_go_around (isSymbol : Char → Bool) (region : ℕ × ℕ) (s : State)
    (hmin : region.1 ≤ s.point) (hmax : s.point ≤ region.2) (hlen : region.2 ≤ s.text.length)
    {beg stop : ℕ}
    (h : boundsOfSymbol isSymbol ((s.text.take region.2).drop region.1) (s.point - region.1) =
      some (beg, stop)) (dirs : List Dir) :
    let text := (s.text.take region.2).drop region.1
    let places := occurrences isSymbol ((text.take stop).drop beg) text
    ∃ s', ∃ k : ℕ, ∃ i, jumps isSymbol region s dirs = .ok s' ∧ places[k]? = some beg ∧
      places[((k + (dirs.map Dir.sign).sum) % places.length).toNat]? = some i ∧
      s'.point = region.1 + i + (s.point - region.1 - beg) ∧ s'.text = s.text ∧
      s'.marks = if dirs = [] ∨ s.lastJump then s.marks else pushMark s.point s.marks := by
  intro text places
  obtain ⟨k, hk, hat⟩ := exists_at hmin hmax hlen h
  obtain ⟨s', hjumps, hat', htext, hmarks⟩ := hat.jumps dirs
  obtain ⟨i, hi, hpoint⟩ := hat'.place
  rw [htext] at hi
  exact ⟨s', k, i, hjumps, hk, hi, by omega, htext, hmarks⟩

theorem jumps_go_around_foo :
    let isSymbol : Char → Bool := fun c => c.isAlpha || c == '_'
    let s : State := ⟨"foo bar foo_x (foo) foo".toList, 1, [], false⟩
    let text := (s.text.take 23).drop 0
    let places := occurrences isSymbol ((text.take 3).drop 0) text
    ∃ s', ∃ k : ℕ, ∃ i, jumps isSymbol (0, 23) s [.forward, .forward, .forward, .backward] = .ok s' ∧
      places[k]? = some 0 ∧
      places[((k + ([.forward, .forward, .forward, .backward].map Dir.sign).sum) %
        places.length).toNat]? = some i ∧
      s'.point = 0 + i + (s.point - 0 - 0) ∧ s'.text = s.text ∧
      s'.marks = if [.forward, .forward, .forward, Dir.backward] = [] ∨ s.lastJump then s.marks
        else pushMark s.point s.marks :=
  jumps_go_around _ (0, 23) _ (by decide) (by decide) (by decide) (by decide) _

end EmacsConfig.SymbolJumps
