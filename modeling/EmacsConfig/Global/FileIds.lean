import EmacsConfig.Lib.Refinement
import Mathlib.Algebra.GroupWithZero.Nat
import Mathlib.Data.Finset.Max
import Mathlib.Data.Finset.Sort
import Mathlib.Data.Nat.Bitwise

/-!
# Sets of file ids (libutil/idset.c)

An `IDSET` keeps one bit for each id in an array of words, with the least and the
greatest id beside it; `idset_first` and `idset_next` walk over the ids. It refines a
finite set with a cursor: no sequence of calls tells the two apart, and the internal
errors of `idset_next` are never reached.
-/

namespace EmacsConfig.Global.FileIds

open Refinement

/-- `LONG_BIT` of a 64 bit host. -/
def longBit : ℕ := 64

/-- `(unsigned int)(-1)` -/
def endOfId : ℕ := 2 ^ 32 - 1

structure IdSet where
  size : ℕ
  min : ℕ
  max : ℕ
  lastid : ℕ
  set : List ℕ
  deriving DecidableEq, Repr

def bit (i : ℕ) : ℕ := 1 <<< i

def idsetOpen (size : ℕ) : IdSet :=
  ⟨size, endOfId, endOfId, endOfId, List.replicate ((size + longBit - 1) / longBit) 0⟩

def IdSet.isEmpty (s : IdSet) : Bool := s.min == endOfId

def idsetAdd (s : IdSet) (id : ℕ) : Option IdSet :=
  if s.size ≤ id then none
  else
    let set := s.set.modify (id / longBit) (· ||| bit (id % longBit))
    if s.isEmpty then some { s with set := set, max := id, min := id }
    else if s.max < id then some { s with set := set, max := id }
    else if id < s.min then some { s with set := set, min := id }
    else some { s with set := set }

/-- The word `s.set[i]`. -/
def IdSet.word (s : IdSet) (i : ℕ) : ℕ := s.set.getD i 0

def idsetContains (s : IdSet) (id : ℕ) : Bool :=
  if s.isEmpty then false
  else if id < s.min ∨ s.max < id then false
  else s.word (id / longBit) &&& bit (id % longBit) != 0

def idsetFirst (s : IdSet) : IdSet × ℕ := ({ s with lastid := s.min }, s.min)

/-- The first bit of `word` from `i` on. -/
def scanBits (word i : ℕ) : Option ℕ :=
  (List.range' i (longBit - i)).find? fun i => bit i &&& word != 0

/-- The first word from `i` on that is not zero. -/
def IdSet.scanWords (s : IdSet) (i limit : ℕ) : Option ℕ :=
  (List.range' i (limit - i)).find? fun i => s.word i != 0

/-- `none` is one of the two internal errors. -/
def idsetNext (s : IdSet) : Option (IdSet × ℕ) :=
  if s.isEmpty then some (s, endOfId)
  else if s.max ≤ s.lastid then some (s, endOfId)
  else
    let limit := s.max / longBit + 1
    let index0 := s.lastid / longBit
    let index1 := s.lastid % longBit
    match scanBits (s.word index0) (index1 + 1) with
    | some i => some ({ s with lastid := index0 * longBit + i }, index0 * longBit + i)
    | none =>
      match s.scanWords (index0 + 1) limit with
      | none => none
      | some index0 =>
        match scanBits (s.word index0) 0 with
        | some i => some ({ s with lastid := index0 * longBit + i }, index0 * longBit + i)
        | none => none

/-- `for (id = idset_first(set); id != END_OF_ID; id = idset_next(set))`, from `id` on; the
ids that the body sees. -/
def idsetLoop : ℕ → IdSet → ℕ → Option (IdSet × List ℕ)
  | 0, _, _ => none
  | fuel + 1, s, id =>
    if id = endOfId then some (s, [])
    else
      (idsetNext s).bind fun next =>
        (idsetLoop fuel next.1 next.2).map fun later => (later.1, id :: later.2)

/-- The ids of a whole loop; there are at most `size` of them. -/
def idsetIds (s : IdSet) : Option (IdSet × List ℕ) :=
  idsetLoop (s.size + 1) (idsetFirst s).1 (idsetFirst s).2

def idsetCount (s : IdSet) : Option (IdSet × ℕ) :=
  (idsetIds s).map fun loop => (loop.1, loop.2.length)

/-! ## Bits -/

theorem longBit_pos : 0 < longBit := by decide

theorem and_bit (word i : ℕ) : (word &&& bit i != 0) = word.testBit i := by
  rw [bit, Nat.one_shiftLeft, Nat.and_two_pow]
  cases word.testBit i <;> simp

/-- The bit of `id` is set. -/
def IdSet.Has (s : IdSet) (id : ℕ) : Prop := (s.word (id / longBit)).testBit (id % longBit)

theorem has_of_word {s : IdSet} {i j : ℕ} (hj : j < longBit) (h : (s.word i).testBit j) :
    s.Has (i * longBit + j) := by
  have hdiv : (i * longBit + j) / longBit = i := by
    rw [Nat.mul_comm, Nat.mul_add_div longBit_pos, Nat.div_eq_of_lt hj, Nat.add_zero]
  have hmod : (i * longBit + j) % longBit = j := by
    rw [Nat.mul_comm, Nat.mul_add_mod, Nat.mod_eq_of_lt hj]
  rwa [IdSet.Has, hdiv, hmod]

theorem scanBits_eq_some {word i j : ℕ} (h : scanBits word i = some j) :
    i ≤ j ∧ j < longBit ∧ word.testBit j ∧ ∀ k, i ≤ k → k < j → ¬ word.testBit k := by
  unfold scanBits at h
  rw [List.find?_range'_eq_some] at h
  simp only [Nat.and_comm (bit _), and_bit, List.mem_range'_1] at h
  obtain ⟨hbit, ⟨hle, hlt⟩, hmin⟩ := h
  refine ⟨hle, by omega, hbit, fun k hik hkj => ?_⟩
  simpa using hmin k hik hkj

theorem scanBits_eq_none {word i : ℕ} (h : scanBits word i = none) :
    ∀ j, i ≤ j → j < longBit → ¬ word.testBit j := by
  unfold scanBits at h
  rw [List.find?_range'_eq_none] at h
  simp only [Nat.and_comm (bit _), and_bit] at h
  intro j hij hj
  simpa using h j hij (by omega)

theorem scanWords_eq_some {s : IdSet} {i limit j : ℕ} (h : s.scanWords i limit = some j) :
    i ≤ j ∧ j < limit ∧ s.word j ≠ 0 ∧ ∀ k, i ≤ k → k < j → s.word k = 0 := by
  unfold IdSet.scanWords at h
  rw [List.find?_range'_eq_some, List.mem_range'_1] at h
  obtain ⟨hword, ⟨hle, hlt⟩, hmin⟩ := h
  refine ⟨hle, by omega, by simpa using hword, fun k hik hkj => ?_⟩
  simpa using hmin k hik hkj

theorem scanWords_eq_none {s : IdSet} {i limit : ℕ} (h : s.scanWords i limit = none) :
    ∀ j, i ≤ j → j < limit → s.word j = 0 := by
  unfold IdSet.scanWords at h
  rw [List.find?_range'_eq_none] at h
  intro j hij hj
  simpa using h j hij (by omega)

/-! ## What a set stands for -/

/-- `s` has the ids of `m`, which are below its size, and the extremes of `m`. -/
structure Inv (s : IdSet) (m : Finset ℕ) : Prop where
  size : s.size ≤ endOfId
  words : s.set.length = (s.size + longBit - 1) / longBit
  bound : ∀ i, s.word i < 2 ^ longBit
  has : ∀ id, s.Has id ↔ id ∈ m
  lt : ∀ id ∈ m, id < s.size
  extremes : m = ∅ ∧ s.min = endOfId ∨
    s.min ∈ m ∧ s.max ∈ m ∧ ∀ id ∈ m, s.min ≤ id ∧ id ≤ s.max

theorem Inv.isEmpty_iff {s : IdSet} {m : Finset ℕ} (h : Inv s m) : s.isEmpty ↔ m = ∅ := by
  rw [IdSet.isEmpty, beq_iff_eq]
  rcases h.extremes with ⟨hm, hmin⟩ | ⟨hmin, -⟩
  · simp [hm, hmin]
  · have hlt := h.lt _ hmin
    have hsize := h.size
    constructor
    · intro heq
      omega
    · rintro rfl
      simp at hmin

theorem Inv.range {s : IdSet} {m : Finset ℕ} (h : Inv s m) (hne : ¬ s.isEmpty) :
    s.min ∈ m ∧ s.max ∈ m ∧ ∀ id ∈ m, s.min ≤ id ∧ id ≤ s.max := by
  rcases h.extremes with ⟨hm, -⟩ | hrange
  · exact absurd (h.isEmpty_iff.2 hm) hne
  · exact hrange

theorem inv_idsetOpen {size : ℕ} (h : size ≤ endOfId) : Inv (idsetOpen size) ∅ where
  size := h
  words := by simp [idsetOpen]
  bound i := by
    have hzero : (idsetOpen size).word i = 0 := by
      simp only [IdSet.word, idsetOpen, List.getD_eq_getElem?_getD, List.getElem?_replicate]
      split <;> rfl
    rw [hzero]
    exact Nat.two_pow_pos _
  has id := by
    have hzero : (idsetOpen size).word (id / longBit) = 0 := by
      simp only [IdSet.word, idsetOpen, List.getD_eq_getElem?_getD, List.getElem?_replicate]
      split <;> rfl
    simp [IdSet.Has, hzero]
  lt := by simp
  extremes := .inl ⟨rfl, rfl⟩

/-- The word array after a bit was set. -/
theorem word_modify {s : IdSet} {m : Finset ℕ} (h : Inv s m) {id : ℕ} (hid : id < s.size) (i : ℕ) :
    (s.set.modify (id / longBit) (· ||| bit (id % longBit))).getD i 0 =
      if id / longBit = i then s.word i ||| bit (id % longBit) else s.word i := by
  have hlen : id / longBit < s.set.length := by
    rw [h.words]
    have hpos := longBit_pos
    have hdiv : id / longBit ≤ (s.size - 1) / longBit := Nat.div_le_div_right (by omega)
    have hsucc : (s.size + longBit - 1) / longBit = (s.size - 1) / longBit + 1 := by
      rw [← Nat.add_div_right _ hpos]
      congr 1
      omega
    omega
  rw [List.getD_eq_getElem?_getD, List.getElem?_modify, IdSet.word, List.getD_eq_getElem?_getD]
  split_ifs with heq
  · subst heq
    simp [hlen]
  · simp

/-- Setting a bit adds the id. -/
theorem Inv.has_modify {s : IdSet} {m : Finset ℕ} (h : Inv s m) {id : ℕ} (hid : id < s.size)
    (s' : IdSet) (hset : s'.set = s.set.modify (id / longBit) (· ||| bit (id % longBit))) :
    (∀ k, s'.Has k ↔ k ∈ insert id m) ∧ ∀ i, s'.word i < 2 ^ longBit := by
  have hword : ∀ i, s'.word i =
      if id / longBit = i then s.word i ||| bit (id % longBit) else s.word i := by
    intro i
    rw [IdSet.word, hset, word_modify h hid]
  have hpos := longBit_pos
  constructor
  · intro k
    rw [Finset.mem_insert, ← h.has k, IdSet.Has, IdSet.Has, hword]
    split_ifs with heq
    · have hsame : id % longBit = k % longBit ↔ k = id := by
        constructor
        · intro hmod
          rw [← Nat.div_add_mod k longBit, ← Nat.div_add_mod id longBit, heq, hmod]
        · rintro rfl
          rfl
      rw [bit, Nat.one_shiftLeft, Nat.testBit_or, Nat.testBit_two_pow, Bool.or_eq_true,
        decide_eq_true_eq, hsame]
      exact or_comm
    · have hne : k ≠ id := by
        rintro rfl
        exact heq rfl
      simp [hne]
  · intro i
    rw [hword]
    split_ifs
    · apply Nat.or_lt_two_pow (h.bound i)
      rw [bit, Nat.one_shiftLeft]
      exact Nat.pow_lt_pow_right (by omega) (Nat.mod_lt _ hpos)
    · exact h.bound i

/-- **`idset_add`** fails beyond the size and else adds the id; the cursor stays. -/
theorem Inv.idsetAdd {s : IdSet} {m : Finset ℕ} (h : Inv s m) (id : ℕ) :
    if s.size ≤ id then idsetAdd s id = none
    else ∃ s', FileIds.idsetAdd s id = some s' ∧ Inv s' (insert id m) ∧ s'.size = s.size ∧
      s'.lastid = s.lastid := by
  unfold FileIds.idsetAdd
  split_ifs with hsize hempty hmax hmin
  · rfl
  all_goals
    have hid : id < s.size := by omega
    refine ⟨_, rfl, ?_, rfl, rfl⟩
    refine ⟨h.size, ?_, (h.has_modify hid _ rfl).2, (h.has_modify hid _ rfl).1, ?_, .inr ?_⟩
    · exact (List.length_modify ..).trans h.words
    · intro k hk
      rcases Finset.mem_insert.1 hk with rfl | hk
      · exact hid
      · exact h.lt k hk
  · have hm := h.isEmpty_iff.1 hempty
    simp [hm]
  · obtain ⟨hmin', hmax', hall⟩ := h.range hempty
    refine ⟨Finset.mem_insert_of_mem hmin', Finset.mem_insert_self _ _, ?_⟩
    intro k hk
    have hmm := hall _ hmax'
    rcases Finset.mem_insert.1 hk with rfl | hk
    · simp only
      omega
    · have := hall k hk
      simp only
      omega
  · obtain ⟨hmin', hmax', hall⟩ := h.range hempty
    refine ⟨Finset.mem_insert_self _ _, Finset.mem_insert_of_mem hmax', ?_⟩
    intro k hk
    rcases Finset.mem_insert.1 hk with rfl | hk
    · simp only
      omega
    · have := hall k hk
      simp only
      omega
  · obtain ⟨hmin', hmax', hall⟩ := h.range hempty
    refine ⟨Finset.mem_insert_of_mem hmin', Finset.mem_insert_of_mem hmax', ?_⟩
    intro k hk
    rcases Finset.mem_insert.1 hk with rfl | hk
    · simp only
      omega
    · exact hall k hk

theorem Inv.idsetContains {s : IdSet} {m : Finset ℕ} (h : Inv s m) (id : ℕ) :
    idsetContains s id = decide (id ∈ m) := by
  have hhas := h.has id
  rw [IdSet.Has] at hhas
  unfold FileIds.idsetContains
  rw [and_bit]
  split_ifs with hempty hrange
  · simp [h.isEmpty_iff.1 hempty]
  · have hnot : id ∉ m := by
      intro hmem
      have := (h.range hempty).2.2 id hmem
      omega
    simp [hnot]
  · rw [Bool.eq_iff_iff, hhas, decide_eq_true_eq]

/-- A word that is not zero has one of its bits set. -/
theorem Inv.exists_bit {s : IdSet} {m : Finset ℕ} (h : Inv s m) {i : ℕ} (hi : s.word i ≠ 0) :
    ∃ j, j < longBit ∧ (s.word i).testBit j := by
  obtain ⟨j, hj⟩ := Nat.exists_testBit_of_ne_zero hi
  refine ⟨j, ?_, hj⟩
  by_contra hge
  have hlt : s.word i < 2 ^ j := (h.bound i).trans_le (Nat.pow_le_pow_right (by omega) (by omega))
  rw [Nat.testBit_lt_two_pow hlt] at hj
  cases hj

/-- **`idset_next`** finds the least id above the cursor. -/
theorem Inv.idsetNext {s : IdSet} {m : Finset ℕ} (h : Inv s m) (hempty : ¬ s.isEmpty)
    (hlast : s.lastid < s.max) :
    ∃ id, idsetNext s = some ({ s with lastid := id }, id) ∧ id ∈ m ∧ s.lastid < id ∧
      ∀ k ∈ m, s.lastid < k → id ≤ k := by
  have hpos := longBit_pos
  obtain ⟨-, hmax, hall⟩ := h.range hempty
  have hcur := Nat.div_add_mod s.lastid longBit
  have hcurlt := Nat.mod_lt s.lastid hpos
  unfold FileIds.idsetNext
  rw [if_neg hempty, if_neg (by omega)]
  simp only
  cases hscan : scanBits (s.word (s.lastid / longBit)) (s.lastid % longBit + 1) with
  | some j =>
    -- in the word of the cursor
    obtain ⟨hle, hj, hbit, hfirst⟩ := scanBits_eq_some hscan
    refine ⟨_, rfl, (h.has _).1 (has_of_word hj hbit), ?_, ?_⟩
    · rw [Nat.mul_comm]
      omega
    · intro k hk hlt
      by_contra hgt
      have hkbit := (h.has k).2 hk
      have hk' := Nat.div_add_mod k longBit
      have hkmod := Nat.mod_lt k hpos
      have hdiv : k / longBit = s.lastid / longBit := by
        apply le_antisymm
        · rw [← Nat.lt_succ_iff, Nat.div_lt_iff_lt_mul hpos, Nat.succ_mul]
          omega
        · exact Nat.div_le_div_right hlt.le
      rw [IdSet.Has, hdiv] at hkbit
      rw [hdiv] at hk'
      rw [Nat.mul_comm (s.lastid / longBit)] at hgt
      exact hfirst (k % longBit) (by omega) (by omega) hkbit
  | none =>
    have hnone := scanBits_eq_none hscan
    -- the ids above the cursor lie in later words
    have hlater : ∀ k ∈ m, s.lastid < k → s.lastid / longBit + 1 ≤ k / longBit := by
      intro k hk hlt
      by_contra hge
      have hdiv : k / longBit = s.lastid / longBit :=
        le_antisymm (by omega) (Nat.div_le_div_right hlt.le)
      have hk' := Nat.div_add_mod k longBit
      have hkbit := (h.has k).2 hk
      rw [IdSet.Has, hdiv] at hkbit
      rw [hdiv] at hk'
      exact hnone (k % longBit) (by omega) (Nat.mod_lt k hpos) hkbit
    have hword : ∀ k ∈ m, s.word (k / longBit) ≠ 0 := by
      intro k hk hzero
      have hkbit := (h.has k).2 hk
      rw [IdSet.Has, hzero, Nat.zero_testBit] at hkbit
      cases hkbit
    cases hwords : s.scanWords (s.lastid / longBit + 1) (s.max / longBit + 1) with
    | none =>
      have hzero := scanWords_eq_none hwords (s.max / longBit) (hlater _ hmax hlast) (by omega)
      exact absurd hzero (hword _ hmax)
    | some i =>
      obtain ⟨hi, hilt, hne, hfirstWord⟩ := scanWords_eq_some hwords
      simp only
      cases hbits : scanBits (s.word i) 0 with
      | none =>
        obtain ⟨j, hj, hbit⟩ := h.exists_bit hne
        exact absurd hbit (scanBits_eq_none hbits j (by omega) hj)
      | some j =>
        obtain ⟨-, hj, hbit, hfirst⟩ := scanBits_eq_some hbits
        refine ⟨_, rfl, (h.has _).1 (has_of_word hj hbit), ?_, ?_⟩
        · have hmul : (s.lastid / longBit + 1) * longBit ≤ i * longBit :=
            Nat.mul_le_mul_right _ hi
          rw [Nat.succ_mul, Nat.mul_comm (s.lastid / longBit)] at hmul
          omega
        · intro k hk hlt
          by_contra hgt
          have hk' := Nat.div_add_mod k longBit
          have hkle : k / longBit ≤ i := by
            rw [← Nat.lt_succ_iff, Nat.div_lt_iff_lt_mul hpos, Nat.succ_mul]
            omega
          rcases Nat.lt_or_eq_of_le hkle with hklt | rfl
          · exact hword k hk (hfirstWord _ (hlater k hk hlt) hklt)
          · rw [Nat.mul_comm (k / longBit)] at hgt
            exact hfirst (k % longBit) (by omega) (by omega) ((h.has k).2 hk)

theorem Inv.with_lastid {s : IdSet} {m : Finset ℕ} (h : Inv s m) (id : ℕ) :
    Inv { s with lastid := id } m :=
  ⟨h.size, h.words, h.bound, h.has, h.lt, h.extremes⟩

theorem with_lastid_self {s : IdSet} {id : ℕ} (h : s.lastid = id) : { s with lastid := id } = s := by
  rw [← h]

/-! ## Walking over a set -/

/-- The ids from `id` on. -/
def upFrom (m : Finset ℕ) (id : ℕ) : Finset ℕ := m.filter (id ≤ ·)

/-- **The loop** from an id of the set sees the ids from there on in increasing order, and
leaves the cursor at the greatest. -/
theorem Inv.idsetLoop {s : IdSet} {m : Finset ℕ} (h : Inv s m) {fuel id : ℕ} (hid : id ∈ m)
    (hlast : s.lastid = id) (hfuel : (upFrom m id).card < fuel) :
    idsetLoop fuel s id = some ({ s with lastid := s.max }, (upFrom m id).sort (· ≤ ·)) := by
  induction fuel generalizing s id with
  | zero => omega
  | succ fuel ih =>
    have hend : id ≠ endOfId := by
      have := h.lt id hid
      have := h.size
      omega
    have hempty : ¬ s.isEmpty := by
      rw [h.isEmpty_iff]
      exact Finset.ne_empty_of_mem hid
    obtain ⟨-, hmax, hall⟩ := h.range hempty
    rw [FileIds.idsetLoop, if_neg hend]
    rcases Nat.lt_or_ge id s.max with hlt | hge
    · obtain ⟨next, hnext, hmem, hgt, hleast⟩ := h.idsetNext hempty (hlast ▸ hlt)
      rw [hlast] at hgt hleast
      have hsplit : upFrom m id = insert id (upFrom m next) := by
        ext k
        simp only [upFrom, Finset.mem_insert, Finset.mem_filter]
        constructor
        · rintro ⟨hk, hle⟩
          rcases Nat.eq_or_lt_of_le hle with heq | hlt'
          · exact .inl heq.symm
          · exact .inr ⟨hk, hleast k hk hlt'⟩
        · rintro (rfl | ⟨hk, hle⟩)
          · exact ⟨hid, le_rfl⟩
          · exact ⟨hk, by omega⟩
      have hnot : id ∉ upFrom m next := by
        simp only [upFrom, Finset.mem_filter, not_and]
        omega
      rw [hsplit, Finset.card_insert_of_notMem hnot] at hfuel
      have hrest := ih (h.with_lastid next) hmem rfl (by omega)
      rw [hnext, Option.bind_some, hrest, hsplit, Finset.sort_insert _ ?_ hnot]
      · rfl
      · intro k hk
        have := (Finset.mem_filter.1 hk).2
        omega
    · obtain rfl : id = s.max := le_antisymm (hall id hid).2 hge
      have hone : upFrom m s.max = {s.max} := by
        ext k
        simp only [upFrom, Finset.mem_filter, Finset.mem_singleton]
        constructor
        · rintro ⟨hk, hle⟩
          exact le_antisymm (hall k hk).2 hle
        · rintro rfl
          exact ⟨hmax, le_rfl⟩
      have hnext : FileIds.idsetNext s = some (s, endOfId) := by
        rw [FileIds.idsetNext, if_neg hempty, if_pos (by omega)]
      rw [hnext, Option.bind_some, hone, Finset.sort_singleton, with_lastid_self hlast]
      cases fuel with
      | zero =>
        rw [hone, Finset.card_singleton] at hfuel
        omega
      | succ fuel => rw [FileIds.idsetLoop, if_pos rfl]; rfl

/-- The cursor after a whole loop. -/
def IdSet.atEnd (s : IdSet) : IdSet := { s with lastid := if s.isEmpty then endOfId else s.max }

theorem Inv.idsetIds {s : IdSet} {m : Finset ℕ} (h : Inv s m) :
    idsetIds s = some (s.atEnd, m.sort (· ≤ ·)) := by
  unfold FileIds.idsetIds idsetFirst IdSet.atEnd
  by_cases hempty : s.isEmpty
  · have hmin : s.min = endOfId := by simpa [IdSet.isEmpty] using hempty
    rw [if_pos hempty, h.isEmpty_iff.1 hempty]
    simp [FileIds.idsetLoop, hmin]
  · obtain ⟨hmin, -, hall⟩ := h.range hempty
    have hup : upFrom m s.min = m := by
      simp only [upFrom, Finset.filter_eq_self]
      exact fun k hk => (hall k hk).1
    have hcard : m.card ≤ s.size := by
      have hsub : m ⊆ Finset.range s.size := fun k hk => Finset.mem_range.2 (h.lt k hk)
      simpa using Finset.card_le_card hsub
    have hloop := (h.with_lastid s.min).idsetLoop hmin rfl (show _ < s.size + 1 by rw [hup]; omega)
    rw [hup] at hloop
    rw [if_neg hempty]
    exact hloop

/-! ## Sets by what is in them -/

/-- A set of ids below `n`, those of which `P` holds. -/
def Denotes (s : IdSet) (n : ℕ) (P : ℕ → Prop) : Prop :=
  s.size = n ∧ ∃ m, Inv s m ∧ ∀ id, id ∈ m ↔ P id

theorem denotes_idsetOpen {n : ℕ} (h : n ≤ endOfId) : Denotes (idsetOpen n) n fun _ => False :=
  ⟨rfl, ∅, inv_idsetOpen h, by simp⟩

section

variable {s : IdSet} {n : ℕ} {P : ℕ → Prop}

theorem Denotes.congr (h : Denotes s n P) {Q : ℕ → Prop} (hPQ : ∀ id, P id ↔ Q id) :
    Denotes s n Q := by
  obtain ⟨hsize, m, hinv, hmem⟩ := h
  exact ⟨hsize, m, hinv, fun id => (hmem id).trans (hPQ id)⟩

theorem Denotes.add (h : Denotes s n P) {id : ℕ} (hid : id < n) :
    ∃ s', idsetAdd s id = some s' ∧ Denotes s' n fun k => k = id ∨ P k := by
  obtain ⟨rfl, m, hinv, hmem⟩ := h
  have hadd := hinv.idsetAdd id
  rw [if_neg (by omega)] at hadd
  obtain ⟨s', hs', hinv', hsize, -⟩ := hadd
  exact ⟨s', hs', hsize, insert id m, hinv', fun k => by rw [Finset.mem_insert, hmem]⟩

theorem Denotes.contains_iff (h : Denotes s n P) (id : ℕ) : idsetContains s id ↔ P id := by
  obtain ⟨-, m, hinv, hmem⟩ := h
  rw [hinv.idsetContains, decide_eq_true_eq, hmem]

theorem Denotes.isEmpty_iff (h : Denotes s n P) : s.isEmpty ↔ ∀ id, ¬ P id := by
  obtain ⟨-, m, hinv, hmem⟩ := h
  rw [hinv.isEmpty_iff, Finset.eq_empty_iff_forall_notMem]
  exact forall_congr' fun id => not_congr (hmem id)

end

/-! ## Refinement -/

/-- What an `IDSET` is for: a set of ids below `size`, and the id returned last. -/
structure Ids where
  size : ℕ
  members : Finset ℕ
  cursor : Option ℕ

inductive Op where
  | empty
  | add (id : ℕ)
  | contains (id : ℕ)
  | first
  | next
  | loop
  | count
  deriving DecidableEq, Repr

inductive Out where
  | done
  | bool (b : Bool)
  | id (id : ℕ)
  | ids (ids : List ℕ)
  deriving DecidableEq, Repr

def step (s : IdSet) : Op → Option (IdSet × Out)
  | .empty => some (s, .bool s.isEmpty)
  | .add id => (idsetAdd s id).map fun s' => (s', .done)
  | .contains id => some (s, .bool (idsetContains s id))
  | .first => some ((idsetFirst s).1, .id (idsetFirst s).2)
  | .next => (idsetNext s).map fun next => (next.1, .id next.2)
  | .loop => (idsetIds s).map fun loop => (loop.1, .ids loop.2)
  | .count => (idsetCount s).map fun count => (count.1, .id count.2)

def least (m : Finset ℕ) : Option ℕ := if h : m.Nonempty then some (m.min' h) else none
def greatest (m : Finset ℕ) : Option ℕ := if h : m.Nonempty then some (m.max' h) else none

/-- `END_OF_ID` stands for no id. -/
def toId (id : Option ℕ) : ℕ := id.getD endOfId

/-- The least id above the cursor, which then is the cursor. -/
def Ids.next (a : Ids) : Ids × Out :=
  match a.cursor.bind fun id => least (a.members.filter (id < ·)) with
  | some id => ({ a with cursor := some id }, .id id)
  | none => (a, .id endOfId)

/-- Only an id that is out of range is an error. -/
def Ids.step (a : Ids) : Op → Option (Ids × Out)
  | .empty => some (a, .bool (decide (a.members = ∅)))
  | .add id => if a.size ≤ id then none else some ({ a with members := insert id a.members }, .done)
  | .contains id => some (a, .bool (decide (id ∈ a.members)))
  | .first => some ({ a with cursor := least a.members }, .id (toId (least a.members)))
  | .next => some a.next
  | .loop => some ({ a with cursor := greatest a.members }, .ids (a.members.sort (· ≤ ·)))
  | .count => some ({ a with cursor := greatest a.members }, .id a.members.card)

/-- `s` represents `a`. -/
structure Rep (s : IdSet) (a : Ids) : Prop where
  size : s.size = a.size
  inv : Inv s a.members
  cursor : s.lastid = toId a.cursor
  mem : ∀ id ∈ a.cursor, id ∈ a.members

theorem least_eq_some {m : Finset ℕ} {id : ℕ} (hmem : id ∈ m) (hle : ∀ k ∈ m, id ≤ k) :
    least m = some id := by
  have hne : m.Nonempty := ⟨id, hmem⟩
  rw [least, dif_pos hne]
  exact congrArg some (le_antisymm (m.min'_le id hmem) (m.le_min' hne id hle))

theorem greatest_eq_some {m : Finset ℕ} {id : ℕ} (hmem : id ∈ m) (hle : ∀ k ∈ m, k ≤ id) :
    greatest m = some id := by
  have hne : m.Nonempty := ⟨id, hmem⟩
  rw [greatest, dif_pos hne]
  exact congrArg some (le_antisymm (m.max'_le hne id hle) (m.le_max' id hmem))

theorem mem_of_least {m : Finset ℕ} {id : ℕ} (h : least m = some id) : id ∈ m := by
  unfold least at h
  split_ifs at h with hne
  obtain rfl := Option.some.inj h
  exact m.min'_mem hne

theorem mem_of_greatest {m : Finset ℕ} {id : ℕ} (h : greatest m = some id) : id ∈ m := by
  unfold greatest at h
  split_ifs at h with hne
  obtain rfl := Option.some.inj h
  exact m.max'_mem hne

theorem Inv.min_eq {s : IdSet} {m : Finset ℕ} (h : Inv s m) : s.min = toId (least m) := by
  rcases h.extremes with ⟨rfl, hmin⟩ | ⟨hmin, -, hall⟩
  · simpa [least, toId] using hmin
  · rw [least_eq_some hmin fun k hk => (hall k hk).1]
    rfl

theorem Inv.atEnd_lastid {s : IdSet} {m : Finset ℕ} (h : Inv s m) :
    s.atEnd.lastid = toId (greatest m) := by
  unfold IdSet.atEnd
  simp only
  split_ifs with hempty
  · simp [h.isEmpty_iff.1 hempty, greatest, toId]
  · obtain ⟨-, hmax, hall⟩ := h.range hempty
    rw [greatest_eq_some hmax fun k hk => (hall k hk).2]
    rfl

/-- **One call.** -/
theorem Rep.step {s : IdSet} {a : Ids} (h : Rep s a) (op : Op) :
    Agree Rep (step s op) (a.step op) := by
  cases op with
  | empty =>
    have hbool : s.isEmpty = decide (a.members = ∅) := by
      rw [Bool.eq_iff_iff, decide_eq_true_eq]
      exact h.inv.isEmpty_iff
    rw [FileIds.step, hbool]
    exact .some _ h
  | add id =>
    have hadd := h.inv.idsetAdd id
    rw [h.size] at hadd
    rw [FileIds.step, Ids.step]
    split_ifs at hadd ⊢ with hsize
    · rw [hadd]
      exact .none
    · obtain ⟨s', hs', hinv, hsize', hlast⟩ := hadd
      rw [hs']
      refine .some _ ⟨hsize', hinv, hlast.trans h.cursor, ?_⟩
      exact fun k hk => Finset.mem_insert_of_mem (h.mem k hk)
  | contains id =>
    rw [FileIds.step, h.inv.idsetContains]
    exact .some _ h
  | first =>
    rw [FileIds.step, Ids.step, ← h.inv.min_eq]
    exact .some _ ⟨h.size, h.inv.with_lastid _, h.inv.min_eq, fun k hk => mem_of_least hk⟩
  | next =>
    rw [FileIds.step, Ids.step]
    by_cases hlt : ¬ s.isEmpty ∧ s.lastid < s.max
    · obtain ⟨id, hnext, hmem, hgt, hleast⟩ := h.inv.idsetNext hlt.1 hlt.2
      have hmax := (h.inv.range hlt.1).2.1
      -- the cursor is an id, since it is not `END_OF_ID`
      obtain ⟨c, hc⟩ : ∃ c, a.cursor = some c := by
        cases hcursor : a.cursor with
        | some c => exact ⟨c, rfl⟩
        | none =>
          have := h.cursor
          rw [hcursor] at this
          have := h.inv.lt _ hmax
          have := h.inv.size
          simp only [toId, Option.getD_none] at *
          omega
      have hlast : s.lastid = c := by
        rw [h.cursor, hc]
        rfl
      have hmin : least (a.members.filter (c < ·)) = some id := by
        refine least_eq_some (Finset.mem_filter.2 ⟨hmem, hlast ▸ hgt⟩) fun k hk => ?_
        obtain ⟨hk, hck⟩ := Finset.mem_filter.1 hk
        exact hleast k hk (hlast ▸ hck)
      have habs : a.next = ({ a with cursor := some id }, .id id) := by
        rw [Ids.next, hc, Option.bind_some, hmin]
      rw [hnext, habs]
      exact .some _ ⟨h.size, h.inv.with_lastid _, rfl, by rintro k ⟨⟩; exact hmem⟩
    · have hend : idsetNext s = some (s, endOfId) := by
        unfold FileIds.idsetNext
        split_ifs with hempty hge
        · rfl
        · rfl
        · exact absurd ⟨hempty, by omega⟩ hlt
      have habs : a.next = (a, .id endOfId) := by
        have hnone : a.cursor.bind (fun id => least (a.members.filter (id < ·))) = none := by
          cases hcursor : a.cursor with
          | none => rfl
          | some c =>
            have hlast : s.lastid = c := by
              rw [h.cursor, hcursor]
              rfl
            have hnil : a.members.filter (c < ·) = ∅ := by
              refine Finset.filter_eq_empty_iff.2 fun k hk hck => hlt ?_
              have hempty : ¬ s.isEmpty := by
                rw [h.inv.isEmpty_iff]
                exact Finset.ne_empty_of_mem hk
              have := ((h.inv.range hempty).2.2 k hk).2
              exact ⟨hempty, by omega⟩
            rw [Option.bind_some, hnil]
            rfl
        rw [Ids.next, hnone]
      rw [hend, habs]
      exact .some _ h
  | loop =>
    rw [FileIds.step, h.inv.idsetIds]
    exact .some _ ⟨h.size, h.inv.with_lastid _, h.inv.atEnd_lastid, fun k hk => mem_of_greatest hk⟩
  | count =>
    rw [FileIds.step, FileIds.idsetCount, h.inv.idsetIds, Option.map_some, Option.map_some,
      Finset.length_sort]
    exact .some _ ⟨h.size, h.inv.with_lastid _, h.inv.atEnd_lastid, fun k hk => mem_of_greatest hk⟩

theorem rep_idsetOpen {size : ℕ} (h : size ≤ endOfId) : Rep (idsetOpen size) ⟨size, ∅, none⟩ :=
  ⟨rfl, inv_idsetOpen h, rfl, by simp⟩

/-- **Refinement**: whatever calls follow `idset_open`, they return what they would return on
a finite set with a cursor, and fail only where an id is out of range. -/
theorem outputs_eq_ids (size : ℕ) (h : size ≤ endOfId) (ops : List Op) :
    (run step (idsetOpen size) ops).map (·.2) = (run Ids.step ⟨size, ∅, none⟩ ops).map (·.2) :=
  (agree_run (fun _ _ op hrep => hrep.step op) (rep_idsetOpen h) ops).outputs

theorem outputs_eq_ids_example :
    (run step (idsetOpen 21) [.add 1, .add 20, .first, .next, .loop]).map (·.2) =
      (run Ids.step ⟨21, ∅, none⟩ [.add 1, .add 20, .first, .next, .loop]).map (·.2) :=
  outputs_eq_ids 21 (by decide) _

end EmacsConfig.Global.FileIds
