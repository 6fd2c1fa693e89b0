import EmacsConfig.Lib.Decimal
import Mathlib.Data.List.Infix
import Mathlib.Data.List.Nodup
import Mathlib.Data.List.TakeWhile

/-!
# Compressed tag lines (libutil/compress.c)

`compress` replaces the tag name by `@n`, the names of the abbreviation table by
`@` and a letter, `@` by `@@`, and four blanks or more by their count;
`uncompress` puts them back. `none` is a call that does not return: `die`, or for
`compress` a loop that an empty name keeps at one place.
-/

namespace EmacsConfig.Global.Compress

open Decimal

/-- `struct abbrmap`: `c` stands for `name`. -/
structure AbbrMap where
  c : Char
  name : List Char
  deriving DecidableEq, Repr

/-- The entries of an abbreviation string, up to the end or a letter that is not lower case. -/
def abbrevEntries : List Char → Option (List AbbrMap)
  | [] => some []
  | c :: p =>
    let name := p.takeWhile (· ≠ ' ')
    if c.isLower then
      (abbrevEntries ((p.dropWhile (· ≠ ' ')).drop 1)).map (⟨c, name⟩ :: ·)
    else none
termination_by p => p.length
decreasing_by
  have := (List.dropWhile_suffix (l := p) (p := (· ≠ ' '))).length_le
  simp only [List.length_drop, List.length_cons]
  omega

/-- The table `name2ab`; `abbrev_string` holds 1024 characters with the final NUL. -/
def abbrevOpen (abbr : List Char) : Option (List AbbrMap) :=
  if abbr.length < 1024 then abbrevEntries abbr else none

def defaultAbbreviation : List Char := "ddefine ttypedef".toList

/-- The table `ab2name`: a later entry for a letter has overwritten an earlier one. -/
def ab2name (tab : List AbbrMap) (c : Char) : Option (List Char) :=
  (tab.reverse.find? (·.c == c)).map (·.name)

/-- What `spaces` blanks are written as, in the loop and after it. -/
def putSpaces (spaces : ℕ) : List Char :=
  if 10 ≤ spaces then '@' :: '\x7b' :: putNumber spaces ++ ['\x7d']
  else if 3 < spaces then '@' :: putNumber spaces
  else List.replicate spaces ' '

/-- What is written for the text at `p`, and how far `p` moves on. -/
def token (tab : List AbbrMap) (name : List Char) : List Char → List Char × ℕ
  | [] => ([], 0)
  | c :: p =>
    if c = '@' then (['@', '@'], 1)
    else if name.isPrefixOf (c :: p) then (['@', 'n'], name.length)
    else match tab.find? (·.name.isPrefixOf (c :: p)) with
      | some ab => (['@', ab.c], ab.name.length)
      | none => ([c], 1)

/-- What `compress` writes from `p` on with `spaces` blanks pending, if `fuel` rounds
of its loop are enough. -/
def compressFrom (tab : List AbbrMap) (name : List Char) : ℕ → List Char → ℕ → Option (List Char)
  | 0, _, _ => none
  | _ + 1, [], spaces => some (putSpaces spaces)
  | fuel + 1, c :: p, spaces =>
    if c = ' ' then compressFrom tab name fuel p (spaces + 1)
    else
      (compressFrom tab name fuel ((c :: p).drop (token tab name (c :: p)).2) 0).map
        (putSpaces spaces ++ (token tab name (c :: p)).1 ++ ·)

/-- A round that moves on drops a character, so these rounds are enough for any loop that ends. -/
def compress (tab : List AbbrMap) (name inp : List Char) : Option (List Char) :=
  compressFrom tab name (inp.length + 1) inp 0

/-- The text that the code after an `@` stands for, and what follows the code. -/
def atCode (tab : List AbbrMap) (name : List Char) : List Char → Option (List Char × List Char)
  | [] => none
  | c :: p =>
    if c = '@' then some (['@'], p)
    else if c = 'n' then some (name, p)
    else if c = '\x7b' then
      -- the loop steps over the closing brace, so there has to be a character
      match getNumber 0 p with
      | (_, []) => none
      | (spaces, _ :: q) => some (List.replicate spaces ' ', q)
    else if c.isDigit then some (List.replicate (digitValue c) ' ', p)
    else if c.isLower then some ((ab2name tab c).getD [], p)
    else none

theorem atCode_length {tab : List AbbrMap} {name p t q : List Char}
    (h : atCode tab name p = some (t, q)) : q.length < p.length := by
  cases p with
  | nil => cases h
  | cons c p =>
    simp only [atCode] at h
    split_ifs at h
    · cases h; simp
    · cases h; simp
    · have hle := length_getNumber_le 0 p
      cases hn : getNumber 0 p with
      | mk spaces r =>
        rw [hn] at h hle
        cases r with
        | nil => cases h
        | cons d r =>
          cases h
          simp only [List.length_cons] at hle ⊢
          omega
    · cases h; simp
    · cases h; simp

def uncompress (tab : List AbbrMap) (name : List Char) : List Char → Option (List Char)
  | [] => some []
  | c :: p =>
    if c = '@' then
      match _h : atCode tab name p with
      | none => none
      | some (t, q) => (uncompress tab name q).map (t ++ ·)
    else (uncompress tab name p).map (c :: ·)
termination_by p => p.length
decreasing_by
  · have := atCode_length _h
    simp only [List.length_cons]
    omega
  · simp

theorem uncompress_nil (tab : List AbbrMap) (name : List Char) : uncompress tab name [] = some [] := by
  rw [uncompress]

theorem uncompress_cons {tab : List AbbrMap} {name : List Char} {c : Char} (h : c ≠ '@')
    (p : List Char) : uncompress tab name (c :: p) = (uncompress tab name p).map (c :: ·) := by
  rw [uncompress, if_neg h]

theorem uncompress_code {tab : List AbbrMap} {name p t q : List Char}
    (h : atCode tab name p = some (t, q)) :
    uncompress tab name ('@' :: p) = (uncompress tab name q).map (t ++ ·) := by
  rw [uncompress, if_pos rfl]
  split
  · simp_all
  · simp_all

theorem uncompress_blanks (tab : List AbbrMap) (name : List Char) (k : ℕ) (q : List Char) :
    uncompress tab name (List.replicate k ' ' ++ q) =
      (uncompress tab name q).map (List.replicate k ' ' ++ ·) := by
  induction k with
  | zero => simp
  | succ k ih =>
    rw [List.replicate_succ, List.cons_append, uncompress_cons (by decide), ih, Option.map_map]
    rfl

/-- A single digit after the `@`. -/
theorem atCode_digit {tab : List AbbrMap} {name : List Char} {k : ℕ} (h : k < 10) (q : List Char) :
    atCode tab name (putNumber k ++ q) = some (List.replicate k ' ', q) := by
  have hdigit : k.digitChar.isDigit := isDigit_of_mem (n := k) (by simp [putNumber_of_lt h])
  have hne : ∀ c : Char, ¬ c.isDigit → k.digitChar ≠ c := by
    intro c hc heq
    exact hc (heq ▸ hdigit)
  rw [putNumber_of_lt h, List.singleton_append, atCode, if_neg (hne _ (by decide)),
    if_neg (hne _ (by decide)), if_neg (hne _ (by decide)), if_pos hdigit, digitValue_digitChar h]

theorem atCode_brace (tab : List AbbrMap) (name : List Char) (k : ℕ) (q : List Char) :
    atCode tab name ('\x7b' :: putNumber k ++ '\x7d' :: q) = some (List.replicate k ' ', q) := by
  rw [List.cons_append, atCode, if_neg (by decide), if_neg (by decide), if_pos rfl,
    getNumber_putNumber k (by simp)]

theorem uncompress_putSpaces (tab : List AbbrMap) (name : List Char) (k : ℕ) (q : List Char) :
    uncompress tab name (putSpaces k ++ q) =
      (uncompress tab name q).map (List.replicate k ' ' ++ ·) := by
  unfold putSpaces
  split_ifs with h10 h3
  · rw [List.append_assoc]
    exact uncompress_code (atCode_brace tab name k q)
  · exact uncompress_code (atCode_digit (by omega) q)
  · exact uncompress_blanks tab name k q

/-- A table whose codes can be told apart from each other and from `@n`, and whose names
are not empty. -/
structure Table where
  entries : List AbbrMap
  nonempty : ∀ ab ∈ entries, ab.name ≠ []
  lower : ∀ ab ∈ entries, ab.c.isLower
  ne_n : ∀ ab ∈ entries, ab.c ≠ 'n'
  distinct : (entries.map (·.c)).Nodup

theorem Table.ab2name_of_mem (tab : Table) {ab : AbbrMap} (h : ab ∈ tab.entries) :
    ab2name tab.entries ab.c = some ab.name := by
  have hfind : ∀ {l : List AbbrMap}, (l.map (·.c)).Nodup → ab ∈ l →
      l.find? (·.c == ab.c) = some ab := by
    intro l hl hmem
    induction l with
    | nil => cases hmem
    | cons e l ih =>
      rw [List.map_cons, List.nodup_cons] at hl
      rcases List.mem_cons.1 hmem with rfl | hmem
      · simp
      · have hne : e.c ≠ ab.c := by
          intro heq
          exact hl.1 (heq ▸ List.mem_map_of_mem hmem)
        rw [List.find?_cons_of_neg (by simpa using hne), ih hl.2 hmem]
  rw [ab2name, hfind]
  · rfl
  · rw [List.map_reverse]
    exact List.nodup_reverse.2 tab.distinct
  · exact List.mem_reverse.2 h

theorem not_isDigit_of_isLower {c : Char} (h : c.isLower) : ¬ c.isDigit := by
  have hlow : (decide (97 ≤ c.val) && decide (c.val ≤ 122)) = true := h
  intro hd
  have hdig : (decide (48 ≤ c.val) && decide (c.val ≤ 57)) = true := hd
  simp only [Bool.and_eq_true, decide_eq_true_eq, UInt32.le_iff_toNat_le] at hlow hdig
  simp at hlow hdig
  omega

theorem atCode_lower (tab : List AbbrMap) (name : List Char) {c : Char} (h : c.isLower)
    (hn : c ≠ 'n') (q : List Char) :
    atCode tab name (c :: q) = some ((ab2name tab c).getD [], q) := by
  have hne : ∀ d : Char, ¬ d.isLower → c ≠ d := by
    intro d hd heq
    exact hd (heq ▸ h)
  rw [atCode, if_neg (hne _ (by decide)), if_neg hn, if_neg (hne _ (by decide)),
    if_neg (not_isDigit_of_isLower h), if_pos h]

theorem Table.atCode_of_mem (tab : Table) {ab : AbbrMap} (h : ab ∈ tab.entries)
    (name q : List Char) : atCode tab.entries name (ab.c :: q) = some (ab.name, q) := by
  rw [atCode_lower _ name (tab.lower ab h) (tab.ne_n ab h), tab.ab2name_of_mem h]
  rfl

theorem take_of_isPrefixOf {l p : List Char} (h : l.isPrefixOf p) : p.take l.length = l := by
  rw [List.isPrefixOf_iff_prefix, List.prefix_iff_eq_take] at h
  exact h.symm

/-- What is written for the text at `p` is read back as the characters `p` moves over. -/
theorem Table.uncompress_token (tab : Table) (name p q : List Char) :
    uncompress tab.entries name ((token tab.entries name p).1 ++ q) =
      (uncompress tab.entries name q).map (p.take (token tab.entries name p).2 ++ ·) := by
  cases p with
  | nil => simp [token]
  | cons c p =>
    simp only [token]
    split_ifs with hat hname
    · rw [hat]
      exact uncompress_code rfl
    · rw [take_of_isPrefixOf hname]
      exact uncompress_code rfl
    · cases hfind : tab.entries.find? (·.name.isPrefixOf (c :: p)) with
      | some ab =>
        simp only
        have hab : ab.name.isPrefixOf (c :: p) := by simpa using List.find?_some hfind
        rw [take_of_isPrefixOf hab]
        exact uncompress_code (tab.atCode_of_mem (List.mem_of_find?_eq_some hfind) name q)
      | none => exact uncompress_cons hat q

theorem Table.uncompress_of_compressFrom (tab : Table) (name : List Char) {fuel spaces : ℕ}
    {p out : List Char} (h : compressFrom tab.entries name fuel p spaces = some out) :
    uncompress tab.entries name out = some (List.replicate spaces ' ' ++ p) := by
  induction fuel generalizing p spaces out with
  | zero => cases h
  | succ fuel ih =>
    cases p with
    | nil =>
      cases h
      simpa [uncompress_nil] using uncompress_putSpaces tab.entries name spaces []
    | cons c p =>
      rw [compressFrom] at h
      split_ifs at h with hc
      · rw [ih h, List.replicate_succ', List.append_assoc, hc]
        rfl
      · obtain ⟨later, hlater, rfl⟩ := Option.map_eq_some_iff.1 h
        rw [List.append_assoc, uncompress_putSpaces, tab.uncompress_token, ih hlater]
        simp

/-! ## The default table -/

def defaultTable : Table where
  entries := [⟨'d', "define".toList⟩, ⟨'t', "typedef".toList⟩]
  nonempty := by simp
  lower := by simp
  ne_n := by simp
  distinct := by simp

theorem ne_blank {name : List Char} (h : ' ' ∉ name) : ∀ d ∈ name, decide (d ≠ ' ') = true := by
  intro d hd
  have hne : d ≠ ' ' := by
    rintro rfl
    exact h hd
  simpa using hne

theorem abbrevEntries_cons {c : Char} {name : List Char} (hc : c.isLower) (h : ' ' ∉ name)
    (p : List Char) :
    abbrevEntries (c :: name ++ ' ' :: p) = (abbrevEntries p).map (⟨c, name⟩ :: ·) := by
  rw [List.cons_append, abbrevEntries, if_pos hc, List.takeWhile_append_of_pos (ne_blank h),
    List.dropWhile_append_of_pos (ne_blank h)]
  simp

theorem abbrevEntries_last {c : Char} {name : List Char} (hc : c.isLower) (h : ' ' ∉ name) :
    abbrevEntries (c :: name) = some [⟨c, name⟩] := by
  rw [abbrevEntries, if_pos hc, List.takeWhile_eq_self_iff.2 (ne_blank h),
    List.dropWhile_eq_nil_iff.2 (ne_blank h)]
  simp [abbrevEntries]

theorem abbrevOpen_default : abbrevOpen defaultAbbreviation = some defaultTable.entries := by
  have hlen : defaultAbbreviation.length < 1024 := by decide
  have hsplit : defaultAbbreviation = 'd' :: "define".toList ++ ' ' :: 't' :: "typedef".toList := by
    decide
  rw [abbrevOpen, if_pos hlen, hsplit, abbrevEntries_cons (by decide) (by decide),
    abbrevEntries_last (by decide) (by decide)]
  rfl

/-! ## When the loop ends -/

theorem Table.token_pos (tab : Table) {name : List Char} (h : name ≠ []) (c : Char)
    (p : List Char) : 0 < (token tab.entries name (c :: p)).2 := by
  simp only [token]
  split_ifs
  · exact Nat.one_pos
  · exact List.length_pos_of_ne_nil h
  · cases hfind : tab.entries.find? (·.name.isPrefixOf (c :: p)) with
    | some ab =>
      exact List.length_pos_of_ne_nil (tab.nonempty ab (List.mem_of_find?_eq_some hfind))
    | none => exact Nat.one_pos

theorem Table.exists_compressFrom (tab : Table) {name : List Char} (h : name ≠ [])
    {fuel : ℕ} {p : List Char} (hfuel : p.length < fuel) (spaces : ℕ) :
    ∃ out, compressFrom tab.entries name fuel p spaces = some out := by
  induction fuel generalizing p spaces with
  | zero => omega
  | succ fuel ih =>
    cases p with
    | nil => exact ⟨_, rfl⟩
    | cons c p =>
      rw [List.length_cons] at hfuel
      rw [compressFrom]
      split_ifs
      · exact ih (by omega) _
      · have hpos := tab.token_pos h c p
        have hdrop : ((c :: p).drop (token tab.entries name (c :: p)).2).length < fuel := by
          rw [List.length_drop, List.length_cons]
          omega
        obtain ⟨out, hout⟩ := ih hdrop 0
        exact ⟨_, by rw [hout]; rfl⟩

theorem Table.exists_compress (tab : Table) {name : List Char} (h : name ≠ [])
    (inp : List Char) : ∃ out, compress tab.entries name inp = some out :=
  tab.exists_compressFrom h (Nat.lt_succ_self inp.length) 0

theorem Table.uncompress_of_compress (tab : Table) {name inp out : List Char}
    (h : compress tab.entries name inp = some out) : uncompress tab.entries name out = some inp := by
  simpa using tab.uncompress_of_compressFrom name h

/-- **Round trip**: `compress` returns, and `uncompress` gives the line back. -/
theorem uncompress_compress (tab : Table) (name inp : List Char) (h : name ≠ []) :
    ∃ out, compress tab.entries name inp = some out ∧
      uncompress tab.entries name out = some inp := by
  obtain ⟨out, hout⟩ := tab.exists_compress h inp
  exact ⟨out, hout, tab.uncompress_of_compress hout⟩

theorem uncompress_compress_macro : ∃ out,
    compress defaultTable.entries "macro".toList "#define macro(c) a;      b;".toList = some out ∧
      uncompress defaultTable.entries "macro".toList out =
        some "#define macro(c) a;      b;".toList :=
  uncompress_compress defaultTable "macro".toList "#define macro(c) a;      b;".toList (by decide)

/-- An empty match leaves the loop where it is. -/
theorem compressFrom_stall {tab : List AbbrMap} {name : List Char} {c : Char} {p : List Char}
    (hblank : c ≠ ' ') (h : (token tab name (c :: p)).2 = 0) (fuel spaces : ℕ) :
    compressFrom tab name fuel (c :: p) spaces = none := by
  induction fuel generalizing spaces with
  | zero => rfl
  | succ fuel ih => rw [compressFrom, if_neg hblank, h, List.drop_zero, ih, Option.map_none]

theorem compressFrom_succ {tab : List AbbrMap} {name : List Char} {fuel spaces : ℕ}
    {p out : List Char} (h : compressFrom tab name fuel p spaces = some out) :
    compressFrom tab name (fuel + 1) p spaces = some out := by
  induction fuel generalizing p spaces out with
  | zero => cases h
  | succ fuel ih =>
    cases p with
    | nil => exact h
    | cons c p =>
      rw [compressFrom] at h ⊢
      split_ifs at h ⊢ with hc
      · exact ih h
      · obtain ⟨later, hlater, rfl⟩ := Option.map_eq_some_iff.1 h
        rw [ih hlater]
        rfl

theorem compressFrom_le {tab : List AbbrMap} {name : List Char} {fuel more spaces : ℕ}
    {p out : List Char} (hle : fuel ≤ more) (h : compressFrom tab name fuel p spaces = some out) :
    compressFrom tab name more p spaces = some out := by
  induction hle with
  | refl => exact h
  | step _ ih => exact compressFrom_succ ih

/-- A loop that ends does so within a round for each character and one more. -/
theorem compressFrom_length {tab : List AbbrMap} {name : List Char} {fuel spaces : ℕ}
    {p out : List Char} (h : compressFrom tab name fuel p spaces = some out) :
    compressFrom tab name (p.length + 1) p spaces = some out := by
  induction fuel generalizing p spaces out with
  | zero => cases h
  | succ fuel ih =>
    cases p with
    | nil => exact h
    | cons c p =>
      rw [compressFrom] at h ⊢
      split_ifs at h ⊢ with hc
      · exact ih h
      · obtain ⟨later, hlater, rfl⟩ := Option.map_eq_some_iff.1 h
        have hpos : 0 < (token tab name (c :: p)).2 := by
          by_contra hzero
          have hstall := compressFrom_stall hc (Nat.eq_zero_of_not_pos hzero) fuel 0
          rw [Nat.eq_zero_of_not_pos hzero, List.drop_zero, hstall] at hlater
          cases hlater
        have hdrop : ((c :: p).drop (token tab name (c :: p)).2).length + 1 ≤ (c :: p).length := by
          rw [List.length_drop, List.length_cons]
          omega
        rw [compressFrom_le hdrop (ih hlater)]
        rfl

/-- `compress` fails only where no number of rounds is enough. -/
theorem compress_eq_none_iff {tab : List AbbrMap} {name inp : List Char} :
    compress tab name inp = none ↔ ∀ fuel, compressFrom tab name fuel inp 0 = none := by
  constructor
  · intro h fuel
    cases hout : compressFrom tab name fuel inp 0 with
    | none => rfl
    | some out =>
      rw [compress, compressFrom_length hout] at h
      cases h
  · intro h
    exact h _

theorem compressFrom_nil_name (tab : List AbbrMap) {fuel : ℕ} {p : List Char}
    (hfuel : p.length < fuel) (spaces : ℕ) :
    compressFrom tab [] fuel p spaces = none ↔ ∃ c ∈ p, c ≠ ' ' ∧ c ≠ '@' := by
  induction fuel generalizing p spaces with
  | zero => omega
  | succ fuel ih =>
    cases p with
    | nil => simp [compressFrom]
    | cons c p =>
      rw [List.length_cons] at hfuel
      by_cases hblank : c = ' '
      · rw [compressFrom, if_pos hblank, ih (by omega)]
        simp [hblank]
      · by_cases hat : c = '@'
        · have htoken : token tab [] (c :: p) = (['@', '@'], 1) := by
            simp [token, hat]
          rw [compressFrom, if_neg hblank, htoken, Option.map_eq_none_iff]
          show compressFrom tab [] fuel p 0 = none ↔ _
          rw [ih (by omega)]
          simp [hat]
        · have htoken : (token tab [] (c :: p)).2 = 0 := by
            simp [token, hat]
          simp [compressFrom_stall hblank htoken, hblank, hat]

/-- **An empty tag name**: the call never returns as soon as the line has a character
other than a blank or an `@`. -/
theorem never_returns_iff (tab : List AbbrMap) (inp : List Char) :
    (∀ fuel, compressFrom tab [] fuel inp 0 = none) ↔ ∃ c ∈ inp, c ≠ ' ' ∧ c ≠ '@' := by
  rw [← compress_eq_none_iff]
  exact compressFrom_nil_name tab (Nat.lt_succ_self inp.length) 0

/-! ## Names -/

theorem token_no_blank {tab : List AbbrMap} (htab : ∀ ab ∈ tab, ab.c.isLower) {name p : List Char}
    (h : ' ' ∉ p) : ' ' ∉ (token tab name p).1 := by
  cases p with
  | nil => simp [token]
  | cons c p =>
    simp only [token]
    split_ifs
    · simp
    · simp
    · cases hfind : tab.find? (·.name.isPrefixOf (c :: p)) with
      | some ab =>
        have hlower := htab ab (List.mem_of_find?_eq_some hfind)
        have hne : ab.c ≠ ' ' := by
          intro heq
          rw [heq] at hlower
          exact absurd hlower (by decide)
        simp [hne.symm]
      | none =>
        rw [List.mem_cons, not_or] at h
        simp [h.1]

/-- A name without blanks is compressed to one without blanks. -/
theorem compressFrom_no_blank {tab : List AbbrMap} (htab : ∀ ab ∈ tab, ab.c.isLower)
    {name : List Char} {fuel : ℕ} {p out : List Char} (hp : ' ' ∉ p)
    (h : compressFrom tab name fuel p 0 = some out) : ' ' ∉ out := by
  induction fuel generalizing p out with
  | zero => cases h
  | succ fuel ih =>
    cases p with
    | nil =>
      cases h
      simp [putSpaces]
    | cons c p =>
      have hc : c ≠ ' ' := by
        rintro rfl
        exact hp List.mem_cons_self
      rw [compressFrom, if_neg hc] at h
      obtain ⟨later, hlater, rfl⟩ := Option.map_eq_some_iff.1 h
      have hdrop := ih (fun hmem => hp (List.mem_of_mem_drop hmem)) hlater
      have htoken : ' ' ∉ (token tab name (c :: p)).1 := token_no_blank htab hp
      simp [putSpaces, hdrop, htoken]

/-- A name is written `@n` under its own key. -/
theorem compress_self (tab : List AbbrMap) {name : List Char} (hne : name ≠ []) (hblank : ' ' ∉ name)
    (hat : '@' ∉ name) : compress tab name name = some ['@', 'n'] := by
  obtain ⟨c, p, rfl⟩ := List.exists_cons_of_ne_nil hne
  rw [List.mem_cons, not_or] at hblank hat
  have htoken : token tab (c :: p) (c :: p) = (['@', 'n'], (c :: p).length) := by
    rw [token, if_neg (Ne.symm hat.1), if_pos (by simp)]
  rw [compress, List.length_cons, compressFrom, if_neg (Ne.symm hblank.1), htoken]
  simp [compressFrom, putSpaces]

/-- Text without `@` stands for itself. -/
theorem uncompress_plain (tab : List AbbrMap) (name : List Char) {p : List Char} (h : '@' ∉ p) :
    uncompress tab name p = some p := by
  induction p with
  | nil => exact uncompress_nil tab name
  | cons c p ih =>
    rw [List.mem_cons, not_or] at h
    rw [uncompress_cons (Ne.symm h.1), ih h.2]
    rfl

/-! ## Reading without the table -/

def emptyTable : Table where
  entries := []
  nonempty := by simp
  lower := by simp
  ne_n := by simp
  distinct := by simp

/-- Without the table an abbreviation is read as nothing. -/
theorem Table.token_without (tab : Table) (name : List Char) (c : Char) (p q : List Char) :
    token [] name (c :: p) = token tab.entries name (c :: p) ∨
      uncompress [] name ((token tab.entries name (c :: p)).1 ++ q) = uncompress [] name q := by
  simp only [token]
  split_ifs
  · exact .inl rfl
  · exact .inl rfl
  · cases hfind : tab.entries.find? (·.name.isPrefixOf (c :: p)) with
    | none => exact .inl rfl
    | some ab =>
      right
      have hmem := List.mem_of_find?_eq_some hfind
      have hcode := atCode_lower [] name (tab.lower ab hmem) (tab.ne_n ab hmem) q
      rw [List.cons_append, List.singleton_append, uncompress_code hcode]
      simp [ab2name]

/-- What is read is the text, or shorter than it where an abbreviation was used. -/
theorem Table.exists_uncompress_without (tab : Table) {name : List Char} (hne : name ≠ [])
    {fuel spaces : ℕ} {p out : List Char}
    (h : compressFrom tab.entries name fuel p spaces = some out) :
    ∃ t, uncompress [] name out = some t ∧ (t.length < spaces + p.length ∨
      t = List.replicate spaces ' ' ++ p ∧ compressFrom [] name fuel p spaces = some out) := by
  induction fuel generalizing p spaces out with
  | zero => cases h
  | succ fuel ih =>
    cases p with
    | nil =>
      have hempty : compressFrom emptyTable.entries name (fuel + 1) [] spaces = some out := h
      exact ⟨_, emptyTable.uncompress_of_compressFrom name hempty, .inr ⟨rfl, h⟩⟩
    | cons c p =>
      rw [compressFrom] at h
      split_ifs at h with hc
      · obtain ⟨t, ht, hcase⟩ := ih h
        refine ⟨t, ht, ?_⟩
        rw [compressFrom, if_pos hc, List.length_cons]
        refine hcase.imp (by omega) fun hsame => ⟨?_, hsame.2⟩
        rw [hsame.1, hc, List.replicate_succ', List.append_assoc]
        rfl
      · obtain ⟨later, hlater, rfl⟩ := Option.map_eq_some_iff.1 h
        obtain ⟨t, ht, hcase⟩ := ih hlater
        have hpos := tab.token_pos hne c p
        have hlen : ((c :: p).drop (token tab.entries name (c :: p)).2).length =
            (c :: p).length - (token tab.entries name (c :: p)).2 := List.length_drop
        rw [List.append_assoc, uncompress_putSpaces]
        rcases tab.token_without name c p later with hsame | hnothing
        · have htoken : uncompress [] name ((token [] name (c :: p)).1 ++ later) =
              (uncompress [] name later).map ((c :: p).take (token [] name (c :: p)).2 ++ ·) :=
            emptyTable.uncompress_token name (c :: p) later
          rw [hsame] at htoken
          rw [htoken, ht]
          refine ⟨_, rfl, hcase.imp ?_ fun hsmall => ⟨?_, ?_⟩⟩
          · intro hlt
            simp only [List.length_append, List.length_replicate, List.length_take]
            omega
          · rw [hsmall.1]
            simp
          · rw [compressFrom, if_neg hc, hsame, hsmall.2]
            simp
        · rw [hnothing, ht]
          refine ⟨_, rfl, .inl ?_⟩
          have hle : t.length ≤ ((c :: p).drop (token tab.entries name (c :: p)).2).length := by
            rcases hcase with hlt | ⟨rfl, -⟩
            · omega
            · simp
          rw [List.length_cons] at hlen
          simp only [List.length_append, List.length_replicate, List.length_cons]
          omega

/-- **Tables that differ**: what was compressed with a table is read back without it
exactly when no abbreviation was used. -/
theorem read_without_table_iff (tab : Table) {name inp out : List Char} (hne : name ≠ [])
    (h : compress tab.entries name inp = some out) :
    uncompress [] name out = some inp ↔ compress [] name inp = some out := by
  constructor
  · intro hread
    obtain ⟨t, ht, hcase⟩ := tab.exists_uncompress_without hne h
    obtain rfl : t = inp := by rwa [ht, Option.some.injEq] at hread
    exact (hcase.resolve_left (by omega)).2
  · intro hsame
    exact emptyTable.uncompress_of_compress hsame

theorem read_without_table_iff_define :
    uncompress [] "run".toList "@dHandler::@n".toList = some "defineHandler::run".toList ↔
      compress [] "run".toList "defineHandler::run".toList = some "@dHandler::@n".toList :=
  read_without_table_iff defaultTable (by decide) (by decide)

/-! ## Length -/

theorem length_putSpaces_le (k : ℕ) : (putSpaces k).length ≤ k := by
  unfold putSpaces
  split_ifs with h10 h3
  · have hpow : k - 4 < 10 ^ (k - 4) := Nat.lt_pow_self (by omega)
    have hsucc : 10 ^ (k - 3) = 10 * 10 ^ (k - 4) := by
      rw [show k - 3 = k - 4 + 1 by omega, Nat.pow_succ, Nat.mul_comm]
    have hnum := (length_putNumber_le (n := k) (k := k - 3) (by omega)).2 (by omega)
    simp only [List.length_cons, List.length_append, List.length_nil]
    omega
  · have hnum := (length_putNumber_le (n := k) (k := 1) (by omega)).2 (by omega)
    rw [List.length_cons]
    omega
  · simp

/-- Codes are no longer than what they replace, but for `@@`. -/
theorem length_token_le {tab : List AbbrMap} (htab : ∀ ab ∈ tab, 2 ≤ ab.name.length)
    {name : List Char} (hname : 2 ≤ name.length) (p : List Char) :
    (token tab name p).1.length ≤ (p.take (token tab name p).2).length +
      (p.take (token tab name p).2).count '@' := by
  cases p with
  | nil => simp [token]
  | cons c p =>
    simp only [token]
    split_ifs with hat hpre
    · simp [hat]
    · rw [take_of_isPrefixOf hpre]
      exact hname.trans (Nat.le_add_right _ _)
    · cases hfind : tab.find? (·.name.isPrefixOf (c :: p)) with
      | some ab =>
        have hab : ab.name.isPrefixOf (c :: p) := by simpa using List.find?_some hfind
        rw [take_of_isPrefixOf hab]
        exact (htab ab (List.mem_of_find?_eq_some hfind)).trans (Nat.le_add_right _ _)
      | none => simp

theorem length_compressFrom_le {tab : List AbbrMap} (htab : ∀ ab ∈ tab, 2 ≤ ab.name.length)
    {name : List Char} (hname : 2 ≤ name.length) {fuel spaces : ℕ} {p out : List Char}
    (h : compressFrom tab name fuel p spaces = some out) :
    out.length ≤ spaces + p.length + p.count '@' := by
  induction fuel generalizing p spaces out with
  | zero => cases h
  | succ fuel ih =>
    cases p with
    | nil =>
      cases h
      exact length_putSpaces_le spaces
    | cons c p =>
      rw [compressFrom] at h
      split_ifs at h with hc
      · have hle := ih h
        rw [hc, List.length_cons, List.count_cons_of_ne (by decide)]
        omega
      · obtain ⟨later, hlater, rfl⟩ := Option.map_eq_some_iff.1 h
        have hspaces := length_putSpaces_le spaces
        have hcode := length_token_le htab hname (c :: p)
        have hle := ih hlater
        -- the characters moved over and the rest make up the text
        have hcount : (c :: p).count '@' =
            ((c :: p).take (token tab name (c :: p)).2).count '@' +
              ((c :: p).drop (token tab name (c :: p)).2).count '@' := by
          rw [← List.count_append, List.take_append_drop]
        have hlen := congrArg List.length
          (List.take_append_drop (token tab name (c :: p)).2 (c :: p))
        rw [List.length_append] at hlen
        rw [List.length_append, List.length_append]
        omega

/-- With the default table a line grows by its `@` characters at most. -/
theorem length_compress_le {name inp out : List Char} (hname : 2 ≤ name.length)
    (h : compress defaultTable.entries name inp = some out) :
    out.length ≤ inp.length + inp.count '@' := by
  have htab : ∀ ab ∈ defaultTable.entries, 2 ≤ ab.name.length := by decide
  simpa using length_compressFrom_le htab hname h

theorem length_compress_le_at :
    "@@(mk)".toList.length ≤ "@(mk)".toList.length + "@(mk)".toList.count '@' :=
  length_compress_le (show 2 ≤ "main".toList.length by decide) (by decide)

end EmacsConfig.Global.Compress
