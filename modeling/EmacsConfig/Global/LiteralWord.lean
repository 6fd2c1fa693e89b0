import EmacsConfig.Lib.PrefixMachine
import EmacsConfig.Global.Literal

/-!
# Literal search for one word (global/literal.c)

For a pattern of one word the table is a chain, and the search is the machine that matches the
word by its prefixes. When a fail link cannot go on with a character, `cfail` tries the
beginning of the word, not the next link; so a pattern may be missed, and whether it is can be
told from the pattern alone. The last character of a file is not looked at.
-/

namespace EmacsConfig.Global.LiteralWord

open Lines PrefixMachine Literal

/-! ## The fail links of a word -/

/-- `findFail`, for a word: the prefix that goes on with `c`. -/
def goesOn (pattern : List Char) (state : Option ℕ) (c : Char) : Option ℕ :=
  if pattern[state.getD 0]? = some c then some (state.getD 0)
  else if pattern[0]? = some c then some 0
  else none

/-- The fail links that `cfail` makes. -/
def failOf (pattern : List Char) : ℕ → Option ℕ
  | 0 => none
  | m + 1 =>
    if m = 0 then none
    else pattern[m]?.bind fun c => (goesOn pattern (failOf pattern m) c).map (· + 1)

section

variable {pattern : List Char} {m k : ℕ}

theorem goesOn_eq_some {state : Option ℕ} {c : Char} (h : goesOn pattern state c = some k) :
    pattern[k]? = some c ∧ (k = state.getD 0 ∨ k = 0) := by
  unfold goesOn at h
  split_ifs at h with hstate hroot
  · obtain rfl := Option.some.inj h
    exact ⟨hstate, .inl rfl⟩
  · obtain rfl := Option.some.inj h
    exact ⟨hroot, .inr rfl⟩

theorem failOf_succ (h : failOf pattern (m + 1) = some k) :
    0 < m ∧ ∃ c j, pattern[m]? = some c ∧ pattern[j]? = some c ∧ k = j + 1 ∧
      (j = (failOf pattern m).getD 0 ∨ j = 0) := by
  rw [failOf] at h
  split_ifs at h with hm
  obtain ⟨c, hc, h⟩ := Option.bind_eq_some_iff.1 h
  obtain ⟨j, hj, rfl⟩ := Option.map_eq_some_iff.1 h
  obtain ⟨hget, hor⟩ := goesOn_eq_some hj
  exact ⟨Nat.pos_of_ne_zero hm, c, j, hc, hget, rfl, hor⟩

theorem failOf_border (h : failOf pattern m = some k) :
    k < m ∧ pattern.take k <:+ pattern.take m := by
  induction m generalizing k with
  | zero => cases h
  | succ m ih =>
    obtain ⟨hm, c, j, hc, hj, rfl, hor⟩ := failOf_succ h
    have hbefore : j < m ∧ pattern.take j <:+ pattern.take m := by
      cases hfail : failOf pattern m with
      | some f =>
        rw [hfail, Option.getD_some] at hor
        rcases hor with rfl | rfl
        · exact ih hfail
        · exact ⟨hm, by rw [List.take_zero]; exact List.nil_suffix⟩
      | none =>
        rw [hfail, Option.getD_none, or_self] at hor
        rw [hor]
        exact ⟨hm, by rw [List.take_zero]; exact List.nil_suffix⟩
    refine ⟨Nat.succ_lt_succ hbefore.1, ?_⟩
    rw [take_succ_of_eq hj, take_succ_of_eq hc]
    exact suffix_append_singleton hbefore.2 c

end

/-- The links on the word, up to case with `iflag`. -/
def linksOf (iflag : Bool) (pattern : List Char) : Links (pattern.map (fold iflag)) where
  fail := failOf pattern
  lt h := (failOf_border h).1
  border h := by
    rw [← List.map_take, ← List.map_take]
    exact (failOf_border h).2.map _

/-! ## The table of a word -/

/-- The node `i`, with the fail links up to `k`. -/
def chainNode (pattern : List Char) (k i : ℕ) : Words :=
  match pattern[i]? with
  | some c => ⟨c, false, some (i + 1), none, if i ≤ k then failOf pattern i else none⟩
  | none => ⟨'\x00', true, none, none, if i ≤ k then failOf pattern i else none⟩

structure IsChain (pattern : List Char) (k : ℕ) (w : Table) : Prop where
  length : w.length = pattern.length + 1
  node : ∀ i ≤ pattern.length, w.node i = chainNode pattern k i

/-- The nodes of the characters entered so far, with the node that is next. -/
structure Entered (u : List Char) (w : Table) : Prop where
  length : w.length = u.length + 1
  node : ∀ i < u.length, w.node i = chainNode u 0 i
  last : w.node u.length = .zero

section

variable {u pattern : List Char} {w w' : Table} {c : Char} {k : ℕ}

theorem chainNode_of_lt {i : ℕ} (hi : i < pattern.length) : chainNode pattern k i =
    ⟨pattern[i], false, some (i + 1), none, if i ≤ k then failOf pattern i else none⟩ := by
  rw [chainNode, List.getElem?_eq_getElem hi]

theorem chainNode_length : chainNode pattern k pattern.length =
    ⟨'\x00', true, none, none, if pattern.length ≤ k then failOf pattern pattern.length else none⟩ := by
  rw [chainNode, List.getElem?_eq_none le_rfl]

theorem chainNode_link (pattern : List Char) (k i : ℕ) : (chainNode pattern k i).link = none := by
  unfold chainNode
  split <;> rfl

/-- The nodes differ in their fail links. -/
theorem chainNode_fail (pattern : List Char) (k k' i : ℕ) : chainNode pattern k' i =
    { chainNode pattern k i with fail := if i ≤ k' then failOf pattern i else none } := by
  unfold chainNode
  split <;> rfl

theorem fail_zero (u : List Char) (i : ℕ) : (if i ≤ 0 then failOf u i else none) = none := by
  split_ifs with hzero
  · rw [Nat.le_zero.1 hzero, failOf]
  · rfl

theorem chainNode_append {i : ℕ} (hi : i < u.length) (v : List Char) :
    chainNode (u ++ v) 0 i = chainNode u 0 i := by
  rw [chainNode, chainNode, List.getElem?_append_left hi, fail_zero, fail_zero]

theorem Entered.enter (h : Entered u w) (hlen : w.length < maxSiz) :
    ∃ w', Literal.enter c w u.length = .ok w' ∧ Entered (u ++ [c]) w' := by
  have hgrow : grow w = .ok (w ++ [.zero]) := by
    rw [grow, if_neg (not_le.2 hlen)]
  obtain ⟨hlength, hnode⟩ := grow_eq hgrow
  have hlt : u.length < (w ++ [Words.zero]).length := by
    rw [hlength, h.length]
    omega
  refine ⟨_, by rw [Literal.enter, hgrow]; rfl, ?_, fun i hi => ?_, ?_⟩
  · rw [List.length_modify, hlength, h.length, List.length_append, List.length_singleton]
  · rw [List.length_append, List.length_singleton] at hi
    rw [node_modify hlt, hnode]
    split_ifs with hlast
    · rw [hlast, h.last, h.length, chainNode, fail_zero, List.getElem?_concat_length]
      rfl
    · have hiu : i < u.length := by omega
      rw [h.node i hiu, chainNode_append hiu]
  · rw [List.length_append, List.length_singleton, node_modify hlt, hnode,
      if_neg (Nat.succ_ne_self _)]
    exact node_of_le (by rw [h.length])

theorem Entered.cgotofn (h : Entered u w) (hnl : '\n' ∉ pattern)
    (hlen : u.length + pattern.length < maxSiz) :
    ∃ w', Literal.cgotofn pattern true w u.length = .ok w' ∧ IsChain (u ++ pattern) 0 w' := by
  induction pattern generalizing u w with
  | nil =>
    have hlt : u.length < w.length := by
      rw [h.length]
      omega
    refine ⟨setOut w u.length, rfl, ?_, fun i hi => ?_⟩
    · rw [setOut, List.length_modify, h.length, List.append_nil]
    · rw [List.append_nil] at hi ⊢
      rw [setOut, node_modify hlt]
      split_ifs with hlast
      · rw [hlast, h.last, chainNode_length, fail_zero]
        rfl
      · exact h.node i (by omega)
  | cons c pattern ih =>
    rw [List.mem_cons, not_or] at hnl
    rw [List.length_cons] at hlen
    obtain ⟨w₁, henter, h₁⟩ := h.enter (c := c) (by rw [h.length]; omega)
    obtain ⟨w', hrun, hchain⟩ := ih h₁ hnl.2 (by rw [List.length_append, List.length_singleton]; omega)
    refine ⟨w', ?_, by rwa [List.append_assoc] at hchain⟩
    rw [Literal.cgotofn, if_neg (Ne.symm hnl.1), if_pos rfl, henter]
    have hnext : w.length = (u ++ [c]).length := by
      rw [h.length, List.length_append, List.length_singleton]
    show Literal.cgotofn pattern true w₁ w.length = _
    rw [hnext, hrun]

theorem Entered.overflo (h : Entered u w) (hnl : '\n' ∉ pattern)
    (hlen : maxSiz ≤ u.length + pattern.length) (hu : u.length < maxSiz) :
    Literal.cgotofn pattern true w u.length = .error .overflo := by
  induction pattern generalizing u w with
  | nil =>
    rw [List.length_nil] at hlen
    omega
  | cons c pattern ih =>
    rw [List.mem_cons, not_or] at hnl
    rw [List.length_cons] at hlen
    rw [Literal.cgotofn, if_neg (Ne.symm hnl.1), if_pos rfl]
    by_cases hfull : w.length < maxSiz
    · obtain ⟨w₁, henter, h₁⟩ := h.enter (c := c) hfull
      have hnext : w.length = (u ++ [c]).length := by
        rw [h.length, List.length_append, List.length_singleton]
      rw [henter]
      show Literal.cgotofn pattern true w₁ w.length = _
      rw [hnext]
      refine ih h₁ hnl.2 ?_ (by omega)
      rw [List.length_append, List.length_singleton]
      omega
    · have hgrow : grow w = .error .overflo := by rw [grow, if_pos (not_lt.1 hfull)]
      rw [Literal.enter, hgrow]
      rfl

/-- A pattern of one word, as a C string. -/
structure IsWord (pattern : List Char) : Prop where
  ne_nil : pattern ≠ []
  newline : '\n' ∉ pattern
  nul : '\x00' ∉ pattern

/-- The first character is entered at `w`. -/
theorem IsWord.cgotofn_eq (h : IsWord pattern) : Literal.cgotofn pattern false [.zero] 0 =
    Literal.cgotofn pattern true [.zero] 0 := by
  obtain ⟨c, rest, rfl⟩ := List.exists_cons_of_ne_nil h.ne_nil
  have hnl := h.newline
  have hnul := h.nul
  rw [List.mem_cons, not_or] at hnl hnul
  have hplace : place c [Words.zero].length [.zero] 0 = .ok (.enter [.zero] 0) := by
    have hnode : Table.node [Words.zero] 0 = .zero := rfl
    have hinp : ¬ Words.zero.inp = c := hnul.1
    rw [List.length_singleton, place, hnode, if_neg hinp]
    rfl
  rw [Literal.cgotofn, Literal.cgotofn, if_neg (Ne.symm hnl.1), if_neg (Ne.symm hnl.1),
    if_neg Bool.false_ne_true, if_pos rfl, hplace]
  rfl

theorem entered_nil : Entered [] [.zero] := ⟨rfl, nofun, rfl⟩

/-! ## The fail links of the table -/

theorem IsChain.node_lt (h : IsChain pattern k w) {i : ℕ} (hi : i < pattern.length) : w.node i =
    ⟨pattern[i], false, some (i + 1), none, if i ≤ k then failOf pattern i else none⟩ :=
  (h.node i hi.le).trans (chainNode_of_lt hi)

theorem IsChain.inp_iff (h : IsChain pattern k w) {i : ℕ} (hi : i < pattern.length) :
    (w.node i).inp = c ↔ pattern[i]? = some c := by
  rw [h.node_lt hi, List.getElem?_eq_getElem hi, Option.some_inj]

/-- One round of `floop` that does not find `c`. -/
theorem IsChain.findFail_none (h : IsChain pattern k w) (hpos : 0 < pattern.length) (n : ℕ) :
    Literal.findFail w c (n + 1) none false =
      .ok (if pattern[0]? = some c then some 0 else none) := by
  rw [Literal.findFail, Option.getD_none]
  by_cases hc : pattern[0]? = some c
  · rw [if_pos ((h.inp_iff hpos).2 hc), if_pos hc]
  · rw [if_neg fun hinp => hc ((h.inp_iff hpos).1 hinp), if_neg hc, h.node_lt hpos]
    rfl

/-- `floop` on the table of a word. -/
theorem IsChain.findFail (h : IsChain pattern k w) (hpos : 0 < pattern.length) {state : Option ℕ}
    (hstate : ∀ f ∈ state, f < pattern.length) (n : ℕ) :
    Literal.findFail w c (n + 2) state false = .ok (goesOn pattern state c) := by
  cases state with
  | none =>
    rw [h.findFail_none hpos, goesOn, Option.getD_none]
    split_ifs <;> rfl
  | some f =>
    have hf : f < pattern.length := hstate f rfl
    rw [Literal.findFail, goesOn, Option.getD_some]
    by_cases hc : pattern[f]? = some c
    · rw [if_pos ((h.inp_iff hf).2 hc), if_pos hc]
    · rw [if_neg fun hinp => hc ((h.inp_iff hf).1 hinp), if_neg hc, h.node_lt hf]
      exact h.findFail_none hpos n

theorem failOf_lt_length {i : ℕ} (hi : i ≤ pattern.length) :
    ∀ f ∈ failOf pattern i, f < pattern.length := fun _ hf =>
  (failOf_border hf).1.trans_le hi

/-- The state `k + 1` gets its fail link. -/
theorem IsChain.linkNext (h : IsChain pattern k w) (hk : 0 < k) (hlt : k < pattern.length) (n : ℕ) :
    ∃ w', Literal.linkNext (n + 2) w k (k + 1) = .ok w' ∧ IsChain pattern (k + 1) w' := by
  have hpos : 0 < pattern.length := by omega
  have hfind : Literal.findFail w (w.node k).inp (n + 2) (w.node k).fail false =
      .ok (goesOn pattern (failOf pattern k) pattern[k]) := by
    rw [h.node_lt hlt, if_pos le_rfl]
    exact h.findFail hpos (failOf_lt_length hlt.le) n
  have hsucc : failOf pattern (k + 1) =
      (goesOn pattern (failOf pattern k) pattern[k]).map (· + 1) := by
    rw [failOf, if_neg hk.ne', List.getElem?_eq_getElem hlt, Option.bind_some]
  have hold : ∀ i ≤ pattern.length, i ≠ k + 1 →
      chainNode pattern (k + 1) i = chainNode pattern k i := by
    intro i hi hne
    have hfail : (if i ≤ k + 1 then failOf pattern i else none) =
        if i ≤ k then failOf pattern i else none := by
      by_cases hle : i ≤ k
      · rw [if_pos hle, if_pos (by omega)]
      · rw [if_neg hle, if_neg (by omega)]
    rw [chainNode, chainNode, hfail]
  rw [Literal.linkNext, hfind]
  cases hgoes : goesOn pattern (failOf pattern k) pattern[k] with
  | none =>
    rw [hgoes, Option.map_none] at hsucc
    refine ⟨w, rfl, h.length, fun i hi => ?_⟩
    rw [h.node i hi]
    by_cases hne : i = k + 1
    · rw [hne, chainNode, chainNode, hsucc, ite_self, ite_self]
    · rw [hold i hi hne]
  | some f =>
    rw [hgoes, Option.map_some] at hsucc
    have hf : f + 1 ≤ k := by
      have hlt := (failOf_border hsucc).1
      omega
    have hnst : (w.node f).nst = some (f + 1) := by rw [h.node_lt (by omega)]
    have hnodeq : w.node (k + 1) = chainNode pattern k (k + 1) := h.node _ hlt
    have hlen : k + 1 < w.length := by
      rw [h.length]
      omega
    show ∃ w', (deref (w.node f).nst).bind (fun t => setFail t (n + 2) w (k + 1)) = .ok w' ∧ _
    rw [hnst]
    show ∃ w', setFail (f + 1) (n + 2) w (k + 1) = .ok w' ∧ _
    have hout : (w.node (f + 1)).out = false := by rw [h.node_lt (by omega)]
    rw [setFail, hout, node_modify hlen, if_pos rfl, hnodeq, chainNode_link]
    refine ⟨_, rfl, by rw [List.length_modify, h.length], fun i hi => ?_⟩
    rw [node_modify hlen]
    split_ifs with hne
    · rw [hne, hnodeq, chainNode_fail pattern k (k + 1), if_pos le_rfl, hsucc, Bool.or_false]
    · rw [h.node i hi, hold i hi hne]

/-! ## The queue -/

/-- The state `k` alone is in the queue. -/
structure Holds (k : ℕ) (queue : Queue) : Prop where
  front : queue.front + 1 = k
  rear : queue.rear = k
  head : queue.head = k
  length : queue.cells.length = qSize
  /-- the state that was put in first -/
  first : queue.cells.getD 0 0 = 1

theorem Holds.pop {queue : Queue} (h : Holds k queue) (hk : k < qSize) :
    queue.pop = { queue with front := k } := by
  have hfront := h.front
  have hne : queue.front ≠ qSize - 1 := by omega
  rw [Queue.pop, if_neg hne, hfront]

theorem Holds.push {queue : Queue} (h : Holds k queue) (hk : k < qSize) :
    ∃ queue', queue.pop.push (k + 1) = .ok queue' ∧ Holds (k + 1) queue' := by
  have hfront := h.front
  have hpos : 0 < k := by omega
  rw [h.pop hk, Queue.push]
  dsimp only
  rw [h.rear, if_neg (not_le.2 hk), if_neg (lt_irrefl k), if_neg (Nat.succ_ne_self k)]
  refine ⟨_, rfl, rfl, rfl, ?_, ?_, ?_⟩
  · rw [Queue.head, List.getD_eq_getElem _ _ (by rw [List.length_set, h.length]; exact hk),
      List.getElem_set_self]
  · rw [List.length_set, h.length]
  · rw [List.getD_eq_getElem?_getD, List.getElem?_set_ne hpos.ne', ← List.getD_eq_getElem?_getD,
      h.first]

/-- One round of the outer loop. -/
theorem IsChain.drain_succ (h : IsChain pattern k w) (hword : IsWord pattern) {queue : Queue}
    (hqueue : Holds k queue) (hk : k < qSize) (hlt : k < pattern.length) (n m : ℕ) :
    ∃ w' queue', IsChain pattern (k + 1) w' ∧ Holds (k + 1) queue' ∧
      drain (n + 2) (m + 1) w queue = drain (n + 2) m w' queue' := by
  have hfront := hqueue.front
  have hpos : 0 < k := by omega
  obtain ⟨queue', hpush, hqueue'⟩ := hqueue.push hk
  obtain ⟨w', hlink, h'⟩ := h.linkNext hpos hlt n
  refine ⟨w', queue', h', hqueue', ?_⟩
  have hinp : (w.node k).inp ≠ '\x00' := by
    rw [h.node_lt hlt]
    exact fun heq => hword.nul (heq ▸ List.getElem_mem hlt)
  have hloop : cloop (n + 2) (n + 2) w queue.pop k = .ok (w', queue') := by
    have hnst : (w.node k).nst = some (k + 1) := by rw [h.node_lt hlt]
    have hnone : (w'.node k).link = none := by rw [h'.node k hlt.le, chainNode_link]
    rw [cloop, if_neg hinp, hnst]
    show ((queue.pop.push (k + 1)).bind _).bind _ = _
    rw [hpush]
    show (Except.map _ (Literal.linkNext (n + 2) w k (k + 1))).bind _ = _
    rw [hlink]
    simp only [Except.map, Except.bind, hnone]
  rw [drain, if_neg (by rw [hqueue.rear]; omega), hqueue.head, hloop]
  rfl

/-- The rounds until the state `k + j` alone is in the queue. -/
theorem IsChain.drain_add (h : IsChain pattern k w) (hword : IsWord pattern) {queue : Queue}
    (hqueue : Holds k queue) (j : ℕ) (hle : k + j ≤ qSize) (hlen : k + j ≤ pattern.length) (n m : ℕ) :
    ∃ w' queue', IsChain pattern (k + j) w' ∧ Holds (k + j) queue' ∧
      drain (n + 2) (j + m) w queue = drain (n + 2) m w' queue' := by
  induction j generalizing m with
  | zero => exact ⟨w, queue, h, hqueue, by rw [Nat.zero_add]⟩
  | succ j ih =>
    obtain ⟨w₁, queue₁, h₁, hqueue₁, hdrain₁⟩ := ih (by omega) (by omega) (m + 1)
    obtain ⟨w', queue', h', hqueue', hdrain'⟩ :=
      h₁.drain_succ hword hqueue₁ (by omega) (by omega) n m
    refine ⟨w', queue', h', hqueue', ?_⟩
    rw [← hdrain', ← hdrain₁]
    congr 1
    omega

/-- The round for the whole word. -/
theorem IsChain.drain_last (h : IsChain pattern pattern.length w) {queue : Queue}
    (hqueue : Holds pattern.length queue) (n m : ℕ) :
    drain (n + 1) (m + 1) w queue = drain (n + 1) m w queue.pop := by
  have hfront := hqueue.front
  have hnode : w.node pattern.length = ⟨'\x00', true, none, none, failOf pattern pattern.length⟩ := by
    rw [h.node _ le_rfl, chainNode_length, if_pos le_rfl]
  have hloop : cloop (n + 1) (n + 1) w queue.pop pattern.length = .ok (w, queue.pop) := by
    rw [cloop, hnode, if_pos rfl]
    simp only [Except.bind, hnode]
  rw [drain, if_neg (by rw [hqueue.rear]; omega), hqueue.head, hloop]
  rfl

theorem IsChain.one (h : IsChain pattern 0 w) : IsChain pattern 1 w := by
  refine ⟨h.length, fun i hi => ?_⟩
  have hfail : (if i ≤ 1 then failOf pattern i else none) = none := by
    split_ifs with hle
    · rcases Nat.le_one_iff_eq_zero_or_eq_one.1 hle with rfl | rfl
      · rfl
      · rfl
    · rfl
  rw [h.node i hi, chainNode_fail pattern 0 1, hfail, chainNode_fail pattern 0 0, fail_zero]

theorem IsChain.startQueue (h : IsChain pattern 0 w) (hword : IsWord pattern) (n : ℕ) :
    ∃ queue, startQueue w (n + 1) 0 .empty = .ok queue ∧ Holds 1 queue := by
  have hpos := List.length_pos_iff.2 hword.ne_nil
  have hinp : (w.node 0).inp ≠ '\x00' := by
    rw [h.node_lt hpos]
    exact fun heq => hword.nul (heq ▸ List.getElem_mem hpos)
  have hnst : (w.node 0).nst = some 1 := by rw [h.node_lt hpos]
  have hlink : (w.node 0).link = none := by rw [h.node 0 hpos.le, chainNode_link]
  refine ⟨⟨(List.replicate qSize 0).set 0 1, 0, 1⟩, ?_, rfl, rfl, rfl, ?_, rfl⟩
  · rw [Literal.startQueue, if_neg hinp, hnst, hlink]
    rfl
  · rw [List.length_set, List.length_replicate]

/-- A state is put in behind the queue. -/
theorem IsChain.drain_overrun (h : IsChain pattern k w) (hword : IsWord pattern) {queue : Queue}
    (hrear : queue.rear = qSize) (hfront : queue.front ≠ qSize) (hlt : queue.head < pattern.length)
    (n m : ℕ) : drain (n + 1) (m + 1) w queue = .error .undefined := by
  have hinp : (w.node queue.head).inp ≠ '\x00' := by
    rw [h.node_lt hlt]
    exact fun heq => hword.nul (heq ▸ List.getElem_mem hlt)
  have hnst : (w.node queue.head).nst = some (queue.head + 1) := by rw [h.node_lt hlt]
  have hpush : queue.pop.push (queue.head + 1) = .error .undefined := by
    rw [Queue.push, Queue.pop]
    dsimp only
    rw [hrear, if_pos le_rfl]
  rw [drain, if_neg (by rw [hrear]; exact hfront.symm), cloop, if_neg hinp, hnst]
  show (((queue.pop.push (queue.head + 1)).bind _).bind _).bind _ = _
  rw [hpush]
  rfl

theorem IsWord.literalComple_eq (h : IsWord pattern) (hlen : pattern.length < maxSiz) (n : ℕ) :
    ∃ w queue, IsChain pattern 1 w ∧ Holds 1 queue ∧
      literalComple (n + 1) pattern = drain (n + 1) (n + 1) w queue := by
  obtain ⟨w, hgoto, hchain⟩ := entered_nil.cgotofn h.newline (by rwa [List.length_nil, Nat.zero_add])
  rw [List.nil_append] at hchain
  obtain ⟨queue, hstart, hqueue⟩ := hchain.startQueue h n
  refine ⟨w, queue, hchain.one, hqueue, ?_⟩
  rw [literalComple, h.cgotofn_eq]
  rw [List.length_nil] at hgoto
  rw [hgoto]
  show (Literal.startQueue w (n + 1) 0 .empty).bind _ = _
  rw [hstart]
  rfl

end

/-- **The table of a word** is made if the word has less than 400 characters. A longer one writes
behind the queue before it is found too long, and one of 6000 does not fit into the table. -/
theorem literalComple_word {pattern : List Char} (h : IsWord pattern) {fuel : ℕ}
    (hfuel : pattern.length < fuel) :
    (pattern.length < qSize →
      ∃ w, literalComple fuel pattern = .ok w ∧ IsChain pattern pattern.length w) ∧
    (qSize ≤ pattern.length → pattern.length < maxSiz →
      literalComple fuel pattern = .error .undefined) ∧
    (maxSiz ≤ pattern.length → literalComple fuel pattern = .error .overflo) := by
  have hpos := List.length_pos_iff.2 h.ne_nil
  have hsizes : qSize < maxSiz := by decide
  obtain ⟨n, rfl⟩ : ∃ n, fuel = n + 2 := ⟨fuel - 2, by omega⟩
  refine ⟨fun hlen => ?_, fun hlen hmax => ?_, fun hmax => ?_⟩
  · obtain ⟨w, queue, hchain, hqueue, hcomple⟩ := h.literalComple_eq (by omega) (n + 1)
    obtain ⟨m, hm⟩ : ∃ m, n + 2 = pattern.length - 1 + (m + 2) :=
      ⟨n - (pattern.length - 1), by omega⟩
    obtain ⟨w', queue', hchain', hqueue', hdrain⟩ :=
      hchain.drain_add h hqueue (pattern.length - 1) (by omega) (by omega) n (m + 2)
    rw [Nat.add_sub_cancel' hpos] at hchain' hqueue'
    have hstop : queue'.pop.rear = queue'.pop.front := by
      rw [hqueue'.pop hlen]
      exact hqueue'.rear
    refine ⟨w', ?_, hchain'⟩
    rw [hcomple, ← hm] at *
    rw [hdrain, hchain'.drain_last hqueue', drain, if_pos hstop]
  · obtain ⟨w, queue, hchain, hqueue, hcomple⟩ := h.literalComple_eq hmax (n + 1)
    obtain ⟨m, hm⟩ : ∃ m, n + 2 = qSize - 1 + (m + 2) := ⟨n - (qSize - 1), by omega⟩
    obtain ⟨w', queue', hchain', hqueue', hdrain⟩ :=
      hchain.drain_add h hqueue (qSize - 1) (by decide) (by omega) n (m + 2)
    have hsum : 1 + (qSize - 1) = qSize := by decide
    rw [hsum] at hchain' hqueue'
    have hfront : queue'.front = qSize - 1 := by
      have := hqueue'.front
      omega
    rw [hcomple, ← hm] at *
    rw [hdrain]
    rcases Nat.lt_or_ge qSize pattern.length with hlt | hge
    · refine hchain'.drain_overrun h hqueue'.rear ?_ (hqueue'.head ▸ hlt) (n + 1) (m + 1)
      rw [hfront]
      decide
    · -- the queue is taken for full, and the state that was put in first comes again
      obtain hfull : qSize = pattern.length := by omega
      have hpop : queue'.pop = { queue' with front := 0 } := by rw [Queue.pop, if_pos hfront]
      rw [hfull] at hchain' hqueue'
      rw [hchain'.drain_last hqueue', hpop]
      have hrear : ({ queue' with front := 0 } : Queue).rear = qSize :=
        hqueue'.rear.trans hfull.symm
      refine hchain'.drain_overrun h hrear (show 0 ≠ qSize by decide) ?_ (n + 1) m
      rw [Queue.head, hqueue'.first, ← hfull]
      decide
  · have hrun := entered_nil.overflo h.newline (by rwa [List.length_nil, Nat.zero_add]) (by decide)
    rw [List.length_nil] at hrun
    rw [literalComple, h.cgotofn_eq, hrun]
    rfl

/-- **Behind the queue**: making the table of a word goes on behind the end of `queue` exactly when
the word has 400 characters or more and fits into the table. -/
theorem literalComple_overruns_iff {pattern : List Char} (h : IsWord pattern) {fuel : ℕ}
    (hfuel : pattern.length < fuel) : literalComple fuel pattern = .error .undefined ↔
      400 ≤ pattern.length ∧ pattern.length < 6000 := by
  obtain ⟨hshort, hlong, hfull⟩ := literalComple_word h hfuel
  constructor
  · intro hundefined
    refine ⟨?_, ?_⟩
    · by_contra hlt
      obtain ⟨w, hok, -⟩ := hshort (not_le.1 hlt)
      rw [hok] at hundefined
      cases hundefined
    · by_contra hge
      rw [hfull (not_lt.1 hge)] at hundefined
      cases hundefined
  · rintro ⟨hle, hlt⟩
    exact hlong hle hlt

theorem literalComple_overruns_iff_a :
    literalComple 401 (List.replicate 400 'a') = .error .undefined := by
  have hlen : (List.replicate 400 'a').length = 400 := List.length_replicate
  have hword : IsWord (List.replicate 400 'a') :=
    ⟨List.ne_nil_of_length_pos (by rw [hlen]; decide),
      fun h => absurd (List.eq_of_mem_replicate h) (by decide),
      fun h => absurd (List.eq_of_mem_replicate h) (by decide)⟩
  exact (literalComple_overruns_iff hword (by omega)).2 (by omega)

/-! ## The machine of a word -/

section

variable {pattern : List Char} {w : Table} {iflag : Bool} {x : Char}

theorem ccomp_iff {i : ℕ} (hi : i < pattern.length) : ccomp iflag pattern[i] x ↔
    (pattern.map (fold iflag))[i]? = some (fold iflag x) := by
  rw [ccomp, decide_eq_true_eq, List.getElem?_map, List.getElem?_eq_getElem hi, Option.map_some,
    Option.some_inj]

theorem IsChain.istate (h : IsChain pattern pattern.length w) (hpos : 0 < pattern.length) (n : ℕ) :
    Literal.istate iflag w x (n + 1) 0 =
      .ok (if (pattern.map (fold iflag))[0]? = some (fold iflag x) then 1 else 0) := by
  rw [Literal.istate, h.node_lt hpos]
  by_cases hcomp : ccomp iflag pattern[0] x
  · rw [if_pos hcomp, if_pos ((ccomp_iff hpos).1 hcomp)]
    rfl
  · rw [if_neg hcomp, if_neg fun heq => hcomp ((ccomp_iff hpos).2 heq)]

/-- A character is a step of the machine. -/
theorem IsChain.nstate (h : IsChain pattern pattern.length w) {c n : ℕ} (hc : c < pattern.length)
    (hn : c < n) :
    Literal.nstate iflag w x n c = .ok ((linksOf iflag pattern).step c (fold iflag x)) := by
  induction n generalizing c with
  | zero => omega
  | succ n ih =>
    rw [Literal.nstate, h.node_lt hc, if_pos hc.le]
    by_cases hcomp : ccomp iflag pattern[c] x
    · rw [if_pos hcomp, step_of_eq ((ccomp_iff hc).1 hcomp)]
      rfl
    · have hne : (pattern.map (fold iflag))[c]? ≠ some (fold iflag x) := fun heq =>
        hcomp ((ccomp_iff hc).2 heq)
      rw [if_neg hcomp]
      cases hfail : failOf pattern c with
      | some k =>
        have hk := (failOf_border hfail).1
        rw [step_of_fail hne hfail]
        exact ih (by omega) (by omega)
      | none =>
        rw [step_of_root hne hfail]
        exact h.istate (by omega) n

end

/-! ## The lines of a file -/

/-- What the loop shows of the lines it comes to, from the one after the line `lineno` on. -/
def shownLines (opts : Options) (isMatch : List Char → Bool) : ℕ → List (List Char) → List Shown
  | _, [] => []
  | lineno, line :: lines =>
    if isMatch line != opts.vflag then
      if opts.pathOnly then [.path]
      else .line (lineno + 1) (unputc '\r' line) :: shownLines opts isMatch (lineno + 1) lines
    else shownLines opts isMatch (lineno + 1) lines

/-- The lines of the text before the last character; with `-V` without the one that is not ended. -/
def examined (opts : Options) (text : List Char) : List (List Char) :=
  (split '\n' text).1.map (·.1) ++ if opts.vflag then [] else [(split '\n' text).2.1]

/-- The machine finds the word in the line. -/
def found (iflag : Bool) (pattern line : List Char) : Bool :=
  (linksOf iflag pattern).run 0 (line.map (fold iflag)) = pattern.length

section

variable {opts : Options} {pattern seen t : List Char} {w : Table} {x : Char}

theorem examined_newline (hnl : '\n' ∉ seen) (t : List Char) :
    examined opts (seen ++ '\n' :: t) = seen :: examined opts t := by
  have hline : split '\n' (seen ++ '\n' :: t) = (⟨seen, hnl⟩ :: (split '\n' t).1, (split '\n' t).2) :=
    split_line ⟨seen, hnl⟩ t
  rw [examined, hline]
  rfl

theorem examined_rest (hnl : '\n' ∉ seen) :
    examined opts seen = if opts.vflag then [] else [seen] := by
  have hrest : split '\n' seen = ([], ⟨seen, hnl⟩) := split_rest ⟨seen, hnl⟩
  rw [examined, hrest]
  rfl

theorem succeed_ok (lineno : ℕ) (lineText : List Char) (rest : List Shown) :
    succeed opts lineno lineText (.ok rest) = .ok (if opts.pathOnly then [.path]
      else .line lineno (unputc '\r' (unputc '\n' lineText)) :: rest) := by
  unfold succeed
  split_ifs <;> rfl

/-- The rest of a line in which the word has been found. -/
theorem innerLoop_eq (hnl : '\n' ∉ seen) {lineno : ℕ} {next : ℕ → Except Halt (List Shown)}
    {stay : Except Halt (List Shown)} {isMatch : List Char → Bool}
    (hline : x = '\n' → isMatch seen) (hrest : x ≠ '\n' → isMatch (seen ++ [x]))
    (hnext : x = '\n' → next (t.length + 1) = .ok (shownLines opts isMatch (lineno + 1) (examined opts t)))
    (hend : next 0 = .ok [])
    (hstay : x ≠ '\n' → t ≠ [] →
      stay = .ok (shownLines opts isMatch lineno (examined opts (seen ++ x :: t)))) :
    innerLoop opts x (t.length + 1) (seen ++ [x]) (lineno + 1) next stay =
      .ok (shownLines opts isMatch lineno (examined opts (seen ++ x :: t))) := by
  unfold innerLoop
  by_cases hx : x = '\n'
  · subst hx
    simp only [if_true]
    rw [hnext rfl, examined_newline hnl, shownLines, hline rfl, succeed_ok, unputc_concat]
    cases opts.vflag <;> cases opts.pathOnly <;> rfl
  · simp only [if_neg hx]
    by_cases ht : t = []
    · subst ht
      have hnl' : '\n' ∉ seen ++ [x] := by simp [hnl, Ne.symm hx]
      rw [List.length_nil, if_pos le_rfl, Nat.zero_add, Nat.sub_self, hend, examined_rest hnl',
        succeed_ok, unputc_newline_of_not_mem hnl']
      cases hv : opts.vflag
      · simp only [Bool.false_eq_true, if_false]
        rw [shownLines, hrest hx, hv]
        rfl
      · rfl
    · have hpos := List.length_pos_iff.2 ht
      rw [if_neg (by omega), hstay hx ht]

theorem found_append {iflag : Bool} (h : found iflag pattern seen) (u : List Char) :
    found iflag pattern (seen ++ u) := by
  unfold found at h ⊢
  rw [decide_eq_true_eq] at h ⊢
  rw [List.map_append, run_append, h]
  cases u.map (fold iflag) with
  | nil => rfl
  | cons a u => rw [Links.run, if_pos (List.length_map _).symm]

theorem fold_newline (iflag : Bool) : fold iflag '\n' = '\n' := by
  cases iflag <;> rfl

theorem IsWord.newline_not_mem_map (h : IsWord pattern) (iflag : Bool) :
    fold iflag '\n' ∉ pattern.map (fold iflag) := by
  intro hmem
  obtain ⟨c, hc, heq⟩ := List.mem_map.1 hmem
  rw [fold_newline] at heq
  exact h.newline (eq_newline_of_fold heq ▸ hc)

/-- **The loop** shows what the machine finds; `t` is the text before the last character. -/
theorem scan_eq (h : IsChain pattern pattern.length w) (hword : IsWord pattern) {fuel : ℕ}
    (hfuel : pattern.length < fuel) (z : Char) {lineno : ℕ} (hnl : '\n' ∉ seen) :
    ((linksOf opts.iflag pattern).run 0 (seen.map (fold opts.iflag)) < pattern.length →
      scan opts fuel w (t ++ [z]) (t.length + 1) seen (lineno + 1)
          (some ((linksOf opts.iflag pattern).run 0 (seen.map (fold opts.iflag)))) =
        .ok (shownLines opts (found opts.iflag pattern) lineno (examined opts (seen ++ t)))) ∧
    (found opts.iflag pattern seen → t ≠ [] →
      scan opts fuel w (t ++ [z]) t.length seen (lineno + 1) none =
        .ok (shownLines opts (found opts.iflag pattern) lineno (examined opts (seen ++ t)))) := by
  have hpos := List.length_pos_iff.2 hword.ne_nil
  induction t generalizing seen lineno with
  | nil =>
    refine ⟨fun hlt => ?_, fun _ hne => absurd rfl hne⟩
    rw [List.nil_append, scan, List.length_nil, if_pos le_rfl, List.append_nil, examined_rest hnl]
    cases hv : opts.vflag
    · rw [if_neg Bool.false_ne_true, shownLines, hv]
      have hnot : found opts.iflag pattern seen = false := decide_eq_false hlt.ne
      rw [hnot]
      rfl
    · rfl
  | cons x t ih =>
    have hsplit : seen ++ x :: t = seen ++ [x] ++ t := by rw [List.append_assoc]; rfl
    have hnl' : x ≠ '\n' → '\n' ∉ seen ++ [x] := fun hx => by simp [hnl, Ne.symm hx]
    have hnext : scan opts fuel w (t ++ [z]) (t.length + 1) [] (lineno + 1 + 1) (some 0) =
        .ok (shownLines opts (found opts.iflag pattern) (lineno + 1) (examined opts t)) :=
      (ih List.not_mem_nil).1 hpos
    have hstay : x ≠ '\n' → found opts.iflag pattern (seen ++ [x]) → t ≠ [] →
        scan opts fuel w (t ++ [z]) t.length (seen ++ [x]) (lineno + 1) none =
          .ok (shownLines opts (found opts.iflag pattern) lineno (examined opts (seen ++ x :: t))) := by
      intro hx hfound ht
      rw [hsplit]
      exact (ih (hnl' hx)).2 hfound ht
    constructor
    · intro hlt
      have hstep : (linksOf opts.iflag pattern).run 0 ((seen ++ [x]).map (fold opts.iflag)) =
          (linksOf opts.iflag pattern).step
            ((linksOf opts.iflag pattern).run 0 (seen.map (fold opts.iflag))) (fold opts.iflag x) := by
        rw [List.map_append, run_append, List.map_singleton, Links.run,
          if_neg (by rw [List.length_map]; exact hlt.ne), Links.run]
      rw [List.cons_append, scan, List.length_cons, if_neg (by omega),
        h.nstate hlt (hlt.trans hfuel), ← hstep]
      have hle : (linksOf opts.iflag pattern).run 0 ((seen ++ [x]).map (fold opts.iflag)) ≤
          pattern.length := by
        rw [hstep]
        exact (step_le_succ _ _ _).trans hlt
      have hzero : x = '\n' →
          (linksOf opts.iflag pattern).run 0 ((seen ++ [x]).map (fold opts.iflag)) = 0 := by
        rintro rfl
        rw [hstep]
        exact step_of_not_mem (hword.newline_not_mem_map _)
      set c' := (linksOf opts.iflag pattern).run 0 ((seen ++ [x]).map (fold opts.iflag)) with hc'
      rw [Nat.add_sub_cancel, Nat.add_sub_cancel]
      show (if (w.node c').out = true then _ else _) = _
      by_cases hend : c' = pattern.length
      · have hx : x ≠ '\n' := fun hx => by
          have := hzero hx
          omega
        have hout : (w.node c').out = true := by rw [hend, h.node _ le_rfl, chainNode_length]
        have hfound : found opts.iflag pattern (seen ++ [x]) := decide_eq_true hend
        rw [if_pos hout]
        exact innerLoop_eq hnl (fun hx' => absurd hx' hx) (fun _ => hfound) (fun hx' => absurd hx' hx)
          (scan_zero _ _ _ _ _ _ _) fun hx ht => hstay hx hfound ht
      · have hlt' : c' < pattern.length := lt_of_le_of_ne hle hend
        have hout : ¬ (w.node c').out = true := by
          rw [h.node_lt hlt']
          exact Bool.false_ne_true
        rw [if_neg hout]
        by_cases hx : x = '\n'
        · subst hx
          have hnot : found opts.iflag pattern seen = false := decide_eq_false hlt.ne
          rw [if_pos rfl, examined_newline hnl, shownLines, hnot]
          dsimp only
          rw [hnext, succeed_ok, unputc_concat]
          cases opts.vflag <;> cases opts.pathOnly <;> rfl
        · rw [if_neg hx, hsplit]
          exact (ih (hnl' hx)).1 hlt'
    · intro hfound _
      rw [List.cons_append, scan, List.length_cons]
      refine innerLoop_eq hnl (fun _ => hfound) (fun _ => found_append hfound _) (fun _ => hnext) ?_ ?_
      · exact scan_zero _ _ _ _ _ _ _
      · exact fun hx ht => hstay hx (found_append hfound _) ht

theorem search_eq (h : IsChain pattern pattern.length w) (hword : IsWord pattern) {fuel : ℕ}
    (hfuel : pattern.length < fuel) {file : List Char} (hne : file ≠ []) :
    literalSearch opts fuel w file =
      .ok (shownLines opts (found opts.iflag pattern) 0 (examined opts file.dropLast)) := by
  have hpos := List.length_pos_iff.2 hword.ne_nil
  have hsplit := List.dropLast_append_getLast hne
  have hlen : file.length = file.dropLast.length + 1 := by
    rw [List.length_dropLast]
    have := List.length_pos_iff.2 hne
    omega
  rw [literalSearch, if_neg hne, hlen]
  nth_rewrite 1 [← hsplit]
  exact (scan_eq h hword hfuel _ List.not_mem_nil).1 hpos

end

/-! ## When a pattern is found -/

/-- The pattern stands in the line, up to case with `iflag`. -/
def contains (iflag : Bool) (pattern line : List Char) : Bool :=
  decide (pattern.map (fold iflag) <:+: line.map (fold iflag))

/-- The lines of a file as `strbuf_fgets` returns them with `STRBUF_NOCRLF`; a last line that is
not ended stays as it is. -/
def strbufFgets (file : List Char) : List (List Char) :=
  (split '\n' file).1.map (unputc '\r' ·.1) ++
    if (split '\n' file).2.1 = [] then [] else [(split '\n' file).2.1]

/-- The loop of `grep`, from the line after the line `lineno` on. -/
def grepLines (opts : Options) (isMatch : List Char → Bool) : ℕ → List (List Char) → List Shown
  | _, [] => []
  | lineno, buffer :: buffers =>
    if isMatch buffer != opts.vflag then
      if opts.pathOnly then [.path]
      else .line (lineno + 1) buffer :: grepLines opts isMatch (lineno + 1) buffers
    else grepLines opts isMatch (lineno + 1) buffers

/-- What `grep` shows of a file. -/
def grep (opts : Options) (isMatch : List Char → Bool) (file : List Char) : List Shown :=
  grepLines opts isMatch 0 (strbufFgets file)

/-- What `literal_comple` and `literal_search` do with a pattern and a file. -/
def search (opts : Options) (fuel : ℕ) (pattern file : List Char) : Except Halt (List Shown) :=
  (literalComple fuel pattern).bind fun w => literalSearch opts fuel w file

theorem search_word {opts : Options} {pattern file : List Char} (h : IsWord pattern)
    (hlen : pattern.length < qSize) {fuel : ℕ} (hfuel : pattern.length < fuel) (hne : file ≠ []) :
    search opts fuel pattern file =
      .ok (shownLines opts (found opts.iflag pattern) 0 (examined opts file.dropLast)) := by
  obtain ⟨w, hcomple, hchain⟩ := (literalComple_word h hfuel).1 hlen
  rw [search, hcomple]
  exact search_eq hchain h hfuel hne

theorem shownLines_congr {opts : Options} {p q : List Char → Bool} {lines : List (List Char)}
    (h : ∀ line ∈ lines, p line = q line) (lineno : ℕ) :
    shownLines opts p lineno lines = shownLines opts q lineno lines := by
  induction lines generalizing lineno with
  | nil => rfl
  | cons line lines ih =>
    rw [List.forall_mem_cons] at h
    rw [shownLines, shownLines, h.1, ih h.2]

theorem found_eq_contains {iflag : Bool} {pattern : List Char} (hword : IsWord pattern)
    (hexact : (linksOf iflag pattern).Exact) (line : List Char) :
    found iflag pattern line = contains iflag pattern line := by
  have hne : pattern.map (fold iflag) ≠ [] := fun hnil => hword.ne_nil (List.map_eq_nil_iff.1 hnil)
  have hiff := (finds_all_iff (linksOf iflag pattern) hne (fun _ => True) fun _ _ => trivial).2 hexact
    (line.map (fold iflag)) fun _ _ => trivial
  rw [List.length_map] at hiff
  rw [found, contains, Bool.eq_iff_iff, decide_eq_true_eq, decide_eq_true_eq]
  exact hiff

/-- The text of lines that are all ended. -/
theorem examined_ser {opts : Options} (hv : opts.vflag = false) {ls : List (Line '\n')} (hne : ls ≠ []) :
    examined opts (ser ls).dropLast = ls.map (·.1) := by
  obtain ⟨init, l, rfl⟩ := List.eq_nil_or_concat ls |>.resolve_left hne
  have hser : ser (init.concat l) = ser init ++ l.1 ++ ['\n'] := by
    rw [List.concat_eq_append, ser_append]
    simp [ser]
  rw [hser, List.dropLast_concat, examined, split_join, hv]
  simp

theorem shownLines_singleton {opts : Options} (hv : opts.vflag = false) (p : List Char → Bool)
    (line : List Char) : shownLines opts p 0 [line] =
      if p line then if opts.pathOnly then [.path] else [.line 1 (unputc '\r' line)] else [] := by
  rw [shownLines, hv, Bool.bne_false]
  rfl

theorem grepLines_singleton {opts : Options} (hv : opts.vflag = false) (p : List Char → Bool)
    (buffer : List Char) : grepLines opts p 0 [buffer] =
      if p buffer then if opts.pathOnly then [.path] else [.line 1 buffer] else [] := by
  rw [grepLines, hv, Bool.bne_false]
  rfl

/-- A line is shown or not. -/
theorem eq_of_shownLines {opts : Options} (hv : opts.vflag = false) {p q : List Char → Bool}
    {line buffer : List Char} (h : shownLines opts p 0 [line] = grepLines opts q 0 [buffer]) :
    p line = q buffer := by
  rw [shownLines_singleton hv, grepLines_singleton hv] at h
  cases hp : p line <;> cases hq : q buffer
  · rfl
  · rw [hp, hq, if_neg Bool.false_ne_true, if_pos rfl] at h
    split_ifs at h
  · rw [hp, hq, if_neg Bool.false_ne_true, if_pos rfl] at h
    split_ifs at h
  · rfl

/-- A text of letters of the word is that of a line of its characters. -/
theorem exists_map_eq {f : Char → Char} {pattern text : List Char}
    (h : ∀ a ∈ text, a ∈ pattern.map f) : ∃ line : List Char,
    (∀ c ∈ line, c ∈ pattern) ∧ line.map f = text := by
  induction text with
  | nil => exact ⟨[], nofun, rfl⟩
  | cons a text ih =>
    rw [List.forall_mem_cons] at h
    obtain ⟨c, hc, rfl⟩ := List.mem_map.1 h.1
    obtain ⟨line, hline, rfl⟩ := ih h.2
    exact ⟨c :: line, List.forall_mem_cons.2 ⟨hc, hline⟩, rfl⟩

theorem fold_return (iflag : Bool) : fold iflag '\r' = '\r' := by
  cases iflag <;> rfl

theorem unputc_of_ne {c : Char} {line : List Char} (h : line.getLast? ≠ some c) :
    unputc c line = line := by
  rw [unputc, if_neg h]

/-- The carriage return at the end of a line is not looked for. -/
theorem contains_unputc {iflag : Bool} {pattern : List Char} (h : pattern.getLast? ≠ some '\r')
    (hne : pattern ≠ []) (line : List Char) :
    contains iflag pattern (unputc '\r' line) = contains iflag pattern line := by
  by_cases hlast : line.getLast? = some '\r'
  · obtain ⟨init, rfl⟩ := List.getLast?_eq_some_iff.1 hlast
    rw [unputc_concat, contains, contains, Bool.eq_iff_iff, decide_eq_true_eq, decide_eq_true_eq,
      List.map_append, List.map_singleton, fold_return, List.infix_concat_iff]
    refine ⟨.inr, fun hor => hor.resolve_left ?_⟩
    rintro ⟨pre, hpre⟩
    obtain ⟨begin, c, rfl⟩ := List.eq_nil_or_concat pattern |>.resolve_left hne
    rw [List.concat_eq_append, List.map_append, List.map_singleton, ← List.append_assoc] at hpre
    have hc := List.singleton_inj.1 (List.append_inj' hpre rfl).2
    rw [List.concat_eq_append, List.getLast?_concat] at h
    exact h (congrArg some (eq_of_fold (by decide) hc))
  · rw [unputc_of_ne hlast]

/-- What is shown is what `grep` shows of the lines without their carriage returns. -/
theorem shownLines_eq {opts : Options} {isMatch : List Char → Bool} {lines : List (List Char)}
    (h : ∀ line ∈ lines, isMatch (unputc '\r' line) = isMatch line) (lineno : ℕ) :
    shownLines opts isMatch lineno lines =
      grepLines opts isMatch lineno (lines.map (unputc '\r')) := by
  induction lines generalizing lineno with
  | nil => rfl
  | cons line lines ih =>
    rw [List.forall_mem_cons] at h
    rw [List.map_cons, shownLines, grepLines, h.1, ih h.2]

theorem strbufFgets_ser (ls : List (Line '\n')) :
    strbufFgets (ser ls) = ls.map (unputc '\r' ·.1) := by
  have hsplit : split '\n' (ser ls) = (ls, ⟨[], List.not_mem_nil⟩) := by
    have := split_join ls ⟨[], List.not_mem_nil⟩
    rwa [List.append_nil] at this
  rw [strbufFgets, hsplit]
  simp

/-- The links of `aabaaax` lose `aab` when it is read again. -/
theorem not_exact_aabaaax : ¬ (linksOf false "aabaaax".toList).Exact := by
  intro hexact
  have hle := hexact 6 (by decide) 'b' 3 (by decide) (by decide)
  rw [step_of_fail (k := 1) (by decide) rfl, step_of_root (by decide) rfl] at hle
  exact absurd hle (by decide)

/-- **Which patterns a literal search finds**: for a pattern of one word of less than 400 characters,
what is shown of every file whose last line is ended is what `grep` shows, the lines with the
pattern in them, exactly when the pattern does not end in a carriage return and its fail links
lose nothing. -/
theorem search_finds_iff (opts : Options) (hv : opts.vflag = false) {pattern : List Char}
    (hword : IsWord pattern) (hlen : pattern.length < qSize) :
    (∀ (ls : List (Line '\n')), ls ≠ [] → ∀ fuel, pattern.length < fuel →
        search opts fuel pattern (ser ls) =
          .ok (grep opts (contains opts.iflag pattern) (ser ls))) ↔
      pattern.getLast? ≠ some '\r' ∧ (linksOf opts.iflag pattern).Exact := by
  have hser : ∀ ls : List (Line '\n'), ls ≠ [] → ser ls ≠ [] := by
    intro ls hne hnil
    obtain ⟨l, ls', rfl⟩ := List.exists_cons_of_ne_nil hne
    rw [ser] at hnil
    simp at hnil
  have hne : pattern.map (fold opts.iflag) ≠ [] := fun hnil =>
    hword.ne_nil (List.map_eq_nil_iff.1 hnil)
  constructor
  · intro hall
    -- one line is shown or not
    have hone : ∀ l : Line '\n', found opts.iflag pattern l.1 =
        contains opts.iflag pattern (unputc '\r' l.1) := by
      intro l
      have hl : [l] ≠ [] := List.cons_ne_nil l []
      have h := hall [l] hl _ (Nat.lt_succ_self _)
      rw [search_word hword hlen (Nat.lt_succ_self _) (hser [l] hl), examined_ser hv hl, grep,
        strbufFgets_ser] at h
      exact eq_of_shownLines hv (Except.ok.inj h)
    have hreturn : pattern.getLast? ≠ some '\r' := by
      intro hlast
      have h := hone ⟨pattern, hword.newline⟩
      have hself : found opts.iflag pattern pattern = true :=
        decide_eq_true ((run_word _).trans (List.length_map _))
      rw [hself] at h
      have hle := (of_decide_eq_true h.symm).length_le
      obtain ⟨init, rfl⟩ := List.getLast?_eq_some_iff.1 hlast
      rw [unputc_concat, List.length_map, List.length_map, List.length_append,
        List.length_singleton] at hle
      omega
    refine ⟨hreturn, ?_⟩
    rw [← finds_all_iff (linksOf opts.iflag pattern) hne (· ∈ pattern.map (fold opts.iflag))
      fun _ ha => ha]
    intro text htext
    -- a line that reads as the text
    obtain ⟨line, hline, rfl⟩ := exists_map_eq htext
    have hsame := hone ⟨line, fun hmem => hword.newline (hline _ hmem)⟩
    rw [contains_unputc hreturn hword.ne_nil, found, contains, Bool.eq_iff_iff, decide_eq_true_eq,
      decide_eq_true_eq] at hsame
    rwa [List.length_map]
  · rintro ⟨hreturn, hexact⟩ ls hls fuel hfuel
    rw [search_word hword hlen hfuel (hser ls hls), examined_ser hv hls,
      shownLines_congr fun line _ => found_eq_contains hword hexact line,
      shownLines_eq fun line _ => contains_unputc hreturn hword.ne_nil line, List.map_map, grep,
      strbufFgets_ser]
    rfl

theorem search_finds_iff_aabaaax :
    ¬ ∀ (ls : List (Line '\n')), ls ≠ [] → ∀ fuel, "aabaaax".toList.length < fuel →
      search ⟨false, false, false⟩ fuel "aabaaax".toList (ser ls) =
        .ok (grep ⟨false, false, false⟩ (contains false "aabaaax".toList) (ser ls)) :=
  fun h => not_exact_aabaaax ((search_finds_iff ⟨false, false, false⟩ rfl
    ⟨by decide, by decide, by decide⟩ (by decide)).1 h).2

/-- A pattern whose first character does not come again, up to case with `iflag`, is always found. -/
theorem exact_linksOf {iflag : Bool} {c : Char} {rest : List Char}
    (h : fold iflag c ∉ rest.map (fold iflag)) : (linksOf iflag (c :: rest)).Exact := by
  refine exact_of_head h fun m => ?_
  show failOf (c :: rest) m = none
  induction m with
  | zero => rfl
  | succ m ih =>
    by_contra hne
    obtain ⟨k, hk⟩ := Option.ne_none_iff_exists'.1 hne
    obtain ⟨hm, d, j, hd, hj, -, hor⟩ := failOf_succ hk
    rw [ih, Option.getD_none, or_self] at hor
    rw [hor, List.getElem?_cons_zero, Option.some_inj] at hj
    obtain ⟨m, rfl⟩ := Nat.exists_eq_succ_of_ne_zero hm.ne'
    rw [List.getElem?_cons_succ, ← hj] at hd
    exact h (List.mem_map.2 ⟨c, List.mem_of_getElem? hd, rfl⟩)

/-- **The end of a file**: with `-V` the last line is not shown, whether the pattern stands in it or
not; without, a last line that is not ended is searched and shown without its last character. The
lines before it are shown as `grep` shows them. -/
theorem search_last_line (opts : Options) {pattern : List Char} (hword : IsWord pattern)
    (hlen : pattern.length < qSize) (hreturn : pattern.getLast? ≠ some '\r')
    (hexact : (linksOf opts.iflag pattern).Exact) (ls : List (Line '\n')) (last : Line '\n')
    (ended : Bool) (hne : last.1 ≠ [] ∨ ended) {fuel : ℕ} (hfuel : pattern.length < fuel) :
    search opts fuel pattern (ser ls ++ (last.1 ++ if ended then ['\n'] else [])) =
      .ok (grepLines opts (contains opts.iflag pattern) 0 (strbufFgets (ser ls) ++
        if opts.vflag then []
        else [unputc '\r' (if ended then last.1 else last.1.dropLast)])) := by
  have htext : last.1 ++ (if ended then ['\n'] else []) ≠ [] := by
    cases ended with
    | true => simp
    | false => simpa using hne
  have hdrop : (ser ls ++ (last.1 ++ if ended then ['\n'] else [])).dropLast =
      ser ls ++ if ended then last.1 else last.1.dropLast := by
    rw [List.dropLast_append_of_ne_nil htext]
    cases ended with
    | true => rw [if_pos rfl, if_pos rfl, List.dropLast_concat]
    | false => rw [if_neg Bool.false_ne_true, if_neg Bool.false_ne_true, List.append_nil]
  have hnl : '\n' ∉ if ended then last.1 else last.1.dropLast := by
    split_ifs
    · exact last.2
    · exact fun hmem => last.2 (List.mem_of_mem_dropLast hmem)
  have hsplit : split '\n' (ser ls ++ if ended then last.1 else last.1.dropLast) =
      (ls, ⟨if ended then last.1 else last.1.dropLast, hnl⟩) := split_join ls ⟨_, hnl⟩
  rw [search_word hword hlen hfuel (List.append_ne_nil_of_right_ne_nil _ htext), hdrop, examined,
    hsplit, shownLines_congr fun line _ => found_eq_contains hword hexact line,
    shownLines_eq fun line _ => contains_unputc hreturn hword.ne_nil line, List.map_append,
    List.map_map, strbufFgets_ser]
  cases opts.vflag <;> rfl

theorem search_last_line_main :
    search ⟨true, true, false⟩ 5 "main".toList
        (ser [(⟨"int\r".toList, by decide⟩ : Line '\n')] ++ ("void".toList ++ ['\n'])) =
      .ok (grepLines ⟨true, true, false⟩ (contains true "main".toList) 0
        (strbufFgets (ser [(⟨"int\r".toList, by decide⟩ : Line '\n')]) ++ [])) :=
  search_last_line ⟨true, true, false⟩ ⟨by decide, by decide, by decide⟩ (by decide) (by decide)
    (exact_linksOf (by decide)) [⟨"int\r".toList, by decide⟩] ⟨"void".toList, by decide⟩ true
    (.inr rfl) (by decide)

end EmacsConfig.Global.LiteralWord
