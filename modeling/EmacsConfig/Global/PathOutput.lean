import EmacsConfig.Global.Normalize

/-!
# Paths that are printed (libutil/pathconvert.c, libutil/abs2rel.c)

global prints the path of GPATH relative to the working directory or absolute, and may encode
characters of it. What it prints for a file is read back: `decode_path` undoes the encoding, and
`normalize` takes the relative and the absolute path to the path of GPATH again.
-/

namespace EmacsConfig.Global.PathOutput

open Gparam Pathnames Paths Normalize

/-- The loop to the branched point. `branch` is what is left of path and base from the last slash
on that both have. -/
def seekBranch : List Char → List Char → List Char × List Char →
    (List Char × List Char) × (List Char × List Char)
  | p :: pp, b :: bp, branch =>
    if p = b then seekBranch pp bp (if p = '/' then (p :: pp, b :: bp) else branch)
    else ((p :: pp, b :: bp), branch)
  | pp, bp, branch => ((pp, bp), branch)

/-- The slashes of the base that something follows. -/
def ups : List Char → ℕ
  | [] => 0
  | c :: bp => if c = '/' ∧ bp ≠ [] then ups bp + 1 else ups bp

/-- What is written when path and base part. -/
def fromBranch (branch : List Char × List Char) (size : ℕ) : Except Halt (List Char) :=
  let up := parents (ups branch.2)
  if size ≤ up.length then .error .erange
  else if branch.1 = [] then
    -- `*--rp = 0`
    if up = [] then .error .underrun else .ok up.dropLast
  else if size ≤ up.length + branch.1.tail.length then .error .erange
  else .ok (up ++ branch.1.tail)

def abs2rel (path base : List Char) (size : ℕ) : Except Halt (List Char) :=
  if path.head? ≠ some '/' then
    if size ≤ path.length then .error .erange else .ok path
  else if base.head? ≠ some '/' ∨ size = 0 then .error .einval
  else if size = 1 then .error .erange
  else
    let s := seekBranch path base (path, base)
    if (s.1.1 = [] ∨ s.1.1 = ['/']) ∧ (s.1.2 = [] ∨ s.1.2 = ['/']) then
      let result := if path.getLast? = some '/' then ['.', '/'] else ['.']
      if size ≤ result.length then .error .erange else .ok result
    else if (s.1.1 = [] ∧ s.1.2.head? = some '/') ∨ (s.1.1.head? = some '/' ∧ s.1.2 = []) then
      fromBranch s.1 size
    else fromBranch s.2 size

/-- The examples of the documentation. -/
example : [("/usr/src/sys", "/usr/local/lib"), ("/usr/src/sys", "/usr"),
    ("/usr/src/sys", "/usr/src/sys"), ("/usr", "/usr/src")].map
      (fun p => abs2rel p.1.toList p.2.toList 100) =
    ["../../src/sys", "src/sys", ".", ".."].map fun r => .ok r.toList := by decide +kernel

/-! ## Encoding -/

/-- The table `encode` after `set_encode_chars`. -/
def requiredEncode (chars : List Char) (c : Char) : Bool :=
  c = '%' || (chars.contains c && c ≠ '.' && c ≠ '/')

def hexDigit (n : ℕ) : Char :=
  ['0', '1', '2', '3', '4', '5', '6', '7', '8', '9', 'a', 'b', 'c', 'd', 'e', 'f'].getD n '\x00'

def encodeChar (chars : List Char) (c : Char) : List Char :=
  if requiredEncode chars c then ['%', hexDigit (c.toNat / 16), hexDigit (c.toNat % 16)] else [c]

/-- A character from 128 on is negative, and looked up before the table of digits; the buffer for
the encoded path is written without a check. -/
def encodePath [SysParam] (chars path : List Char) : Except Halt (List Char) :=
  if path.any (requiredEncode chars) then
    if path.any fun c => requiredEncode chars c && 128 ≤ c.toNat then .error .underrun
    else if maxPathLen ≤ (path.flatMap (encodeChar chars)).length then .error .overrun
    else .ok (path.flatMap (encodeChar chars))
  else .ok path

def h2int (c : Char) : ℕ := if 'a' ≤ c then c.toNat - 'a'.toNat + 10 else c.toNat - '0'.toNat

def outofrange (c : Char) : Bool := c < '0' || 'f' < c

/-- `none` is a call of `die`. -/
def decodePath : List Char → Option (List Char)
  | [] => some []
  | '%' :: c₁ :: c₂ :: p =>
    if outofrange c₁ || outofrange c₂ then none
    else (decodePath p).map (Char.ofNat ((h2int c₁ * 16 + h2int c₂) % 256) :: ·)
  | c :: p => if c = '%' then none else (decodePath p).map (c :: ·)

theorem digit_hexDigit :
    ∀ n, n < 16 → outofrange (hexDigit n) = false ∧ h2int (hexDigit n) = n := by
  decide

theorem decodePath_cons {c : Char} (hc : c ≠ '%') (p : List Char) :
    decodePath (c :: p) = (decodePath p).map (c :: ·) := by
  rw [decodePath]
  · rw [if_neg hc]
  · rintro c₁ c₂ p rfl
    exact absurd rfl hc

theorem decodePath_encodeChar {chars : List Char} {c : Char}
    (hc : requiredEncode chars c = true → c.toNat < 128) (p : List Char) :
    decodePath (encodeChar chars c ++ p) = (decodePath p).map (c :: ·) := by
  unfold encodeChar
  split_ifs with hrequired
  · have hlt : c.toNat < 128 := hc hrequired
    obtain ⟨hhigh, hhigh'⟩ := digit_hexDigit (c.toNat / 16) (by omega)
    obtain ⟨hlow, hlow'⟩ := digit_hexDigit (c.toNat % 16) (by omega)
    have hcode : (c.toNat / 16 * 16 + c.toNat % 16) % 256 = c.toNat := by omega
    show decodePath ('%' :: hexDigit (c.toNat / 16) :: hexDigit (c.toNat % 16) :: p) = _
    rw [decodePath, hhigh, hlow, hhigh', hlow', hcode, Char.ofNat_toNat]
    rfl
  · refine decodePath_cons ?_ p
    rintro rfl
    exact hrequired (by simp [requiredEncode])

theorem decodePath_flatMap {chars path : List Char}
    (hpath : ∀ c ∈ path, requiredEncode chars c = true → c.toNat < 128) :
    decodePath (path.flatMap (encodeChar chars)) = some path := by
  induction path with
  | nil => rfl
  | cons c p ih =>
    rw [List.forall_mem_cons] at hpath
    rw [List.flatMap_cons, decodePath_encodeChar hpath.1, ih hpath.2]
    rfl

theorem flatMap_encodeChar_self {chars path : List Char}
    (hpath : ∀ c ∈ path, ¬ requiredEncode chars c = true) :
    path.flatMap (encodeChar chars) = path := by
  induction path with
  | nil => rfl
  | cons c p ih =>
    rw [List.forall_mem_cons] at hpath
    rw [List.flatMap_cons, ih hpath.2, encodeChar, if_neg hpath.1]
    rfl

/-- **`decode_path` gives the path back** whatever characters are to be encoded, unless one of
those that stand in the path is from 128 on or the buffer is too short. -/
theorem decodePath_encodePath_iff [SysParam] (chars path : List Char) :
    (∃ r, encodePath chars path = .ok r ∧ decodePath r = some path) ↔
      ∀ c ∈ path, requiredEncode chars c = true →
        c.toNat < 128 ∧ (path.flatMap (encodeChar chars)).length < maxPathLen := by
  constructor
  · rintro ⟨r, h, -⟩ c hc hrequired
    have hany : path.any (requiredEncode chars) = true := List.any_eq_true.2 ⟨c, hc, hrequired⟩
    rw [encodePath, if_pos hany] at h
    split_ifs at h with hhigh hlong
    refine ⟨Nat.lt_of_not_le fun hle => hhigh ?_, Nat.lt_of_not_le hlong⟩
    exact List.any_eq_true.2 ⟨c, hc, by simp [hrequired, hle]⟩
  · intro h
    refine ⟨path.flatMap (encodeChar chars), ?_,
      decodePath_flatMap fun c hc hrequired => (h c hc hrequired).1⟩
    unfold encodePath
    split_ifs with hany hhigh hlong
    · obtain ⟨c, hc, hboth⟩ := List.any_eq_true.1 hhigh
      rw [Bool.and_eq_true, decide_eq_true_eq] at hboth
      exact absurd (h c hc hboth.1).1 (Nat.not_lt.2 hboth.2)
    · obtain ⟨c, hc, hrequired⟩ := List.any_eq_true.1 hany
      exact absurd (h c hc hrequired).2 (Nat.not_lt.2 hlong)
    · rfl
    · rw [flatMap_encodeChar_self fun c hc hrequired =>
        hany (List.any_eq_true.2 ⟨c, hc, hrequired⟩)]

/-! ## Relative paths -/

section

variable {d e t root cwd : Dir} {m n p b : List Char} {branch : List Char × List Char}

theorem seekBranch_nil (p : List Char) (branch : List Char × List Char) :
    seekBranch p [] branch = ((p, []), branch) := by
  cases p <;> rfl

theorem seekBranch_name (hn : '/' ∉ n) (p b : List Char) (branch : List Char × List Char) :
    seekBranch (n ++ p) (n ++ b) branch = seekBranch p b branch := by
  induction n with
  | nil => rfl
  | cons c n ih =>
    rw [List.mem_cons, not_or] at hn
    rw [List.cons_append, List.cons_append, seekBranch, if_pos rfl, if_neg (Ne.symm hn.1), ih hn.2]

theorem seekBranch_common {c : Dir} (hc : Names c) (t e : Dir) (branch : List Char × List Char) :
    ∃ branch', seekBranch (absText (c ++ t)) (absText (c ++ e)) branch =
      seekBranch (absText t) (absText e) branch' := by
  induction c generalizing branch with
  | nil => exact ⟨branch, rfl⟩
  | cons n c ih =>
    have hn : '/' ∉ n := (hc n List.mem_cons_self).noSlash
    have htext (d : Dir) : absText (n :: c ++ d) = '/' :: (n ++ absText (c ++ d)) := rfl
    rw [htext, htext, seekBranch, if_pos rfl, if_pos rfl, seekBranch_name hn]
    exact ih (fun m hm => hc m (List.mem_cons_of_mem n hm)) _

/-- Nothing, or the rest of a path behind a name. -/
def AtEnd (p : List Char) : Prop := p = [] ∨ p.head? = some '/'

theorem atEnd_absText (d : Dir) : AtEnd (absText d) := (head_absText d).symm

theorem atEnd_cons {c : Char} : AtEnd (c :: p) ↔ c = '/' := by
  constructor
  · rintro (h | h)
    · cases h
    · exact Option.some.inj h
  · rintro rfl
    exact .inr rfl

/-- A name does not begin where another one ends. -/
theorem not_atEnd_name (hm : IsName m) (p : List Char) : ¬ AtEnd (m ++ p) := by
  obtain ⟨c, m, rfl⟩ := List.exists_cons_of_ne_nil hm.ne_nil
  rw [List.cons_append, atEnd_cons]
  rintro rfl
  exact hm.noSlash List.mem_cons_self

/-- **Two names that differ**: the loop stops in one of them. -/
theorem seekBranch_apart (hm : '/' ∉ m) (hn : '/' ∉ n) (hne : m ≠ n) (hp : AtEnd p)
    (hb : AtEnd b) (branch : List Char × List Char) :
    ∃ s, seekBranch (m ++ p) (n ++ b) branch = (s, branch) ∧ ¬ (AtEnd s.1 ∧ AtEnd s.2) := by
  induction m generalizing n with
  | nil =>
    cases n with
    | nil => exact absurd rfl hne
    | cons c n =>
      rw [List.mem_cons, not_or] at hn
      have hnot : ¬ AtEnd (c :: (n ++ b)) := fun h => hn.1 (atEnd_cons.1 h).symm
      cases p with
      | nil => exact ⟨([], c :: (n ++ b)), rfl, fun h => hnot h.2⟩
      | cons x p =>
        have hx : x ≠ c := by rw [atEnd_cons.1 hp]; exact hn.1
        refine ⟨(x :: p, c :: (n ++ b)), ?_, fun h => hnot h.2⟩
        rw [List.nil_append, List.cons_append, seekBranch, if_neg hx]
  | cons c m ih =>
    rw [List.mem_cons, not_or] at hm
    have hnot : ¬ AtEnd (c :: (m ++ p)) := fun h => hm.1 (atEnd_cons.1 h).symm
    cases n with
    | nil =>
      cases b with
      | nil => exact ⟨(c :: (m ++ p), []), rfl, fun h => hnot h.1⟩
      | cons x b =>
        have hx : c ≠ x := by rw [atEnd_cons.1 hb]; exact Ne.symm hm.1
        refine ⟨(c :: (m ++ p), x :: b), ?_, fun h => hnot h.1⟩
        rw [List.nil_append, List.cons_append, seekBranch, if_neg hx]
    | cons c' n =>
      rw [List.mem_cons, not_or] at hn
      rw [List.cons_append, List.cons_append, seekBranch]
      by_cases hcc : c = c'
      · subst hcc
        rw [if_pos rfl, if_neg (Ne.symm hm.1)]
        exact ih hm.2 hn.2 fun h => hne (congrArg (c :: ·) h)
      · rw [if_neg hcc]
        exact ⟨_, rfl, fun h => hnot h.1⟩

theorem ups_name (hn : '/' ∉ n) (b : List Char) : ups (n ++ b) = ups b := by
  induction n with
  | nil => rfl
  | cons c n ih =>
    rw [List.mem_cons, not_or] at hn
    rw [List.cons_append, ups, if_neg fun h => hn.1 h.1.symm, ih hn.2]

/-- One `../` for each directory. -/
theorem ups_absText (hd : Names d) : ups (absText d) = d.length := by
  induction d with
  | nil => rfl
  | cons n d ih =>
    have hn : IsName n := hd n List.mem_cons_self
    have htext : absText (n :: d) = '/' :: (n ++ absText d) := rfl
    rw [htext, ups, if_pos ⟨rfl, List.append_ne_nil_of_left_ne_nil hn.ne_nil _⟩,
      ups_name hn.noSlash, ih fun m hm => hd m (List.mem_cons_of_mem n hm), List.length_cons]

/-- The text from the directory `c ++ e` to `c ++ t`. -/
def relText (e t : Dir) : List Char := parents e.length ++ (absText t).tail

theorem fromBranch_eq_ok (hd : Names e) (m : List Char) (t : Dir) {size : ℕ} {r : List Char} :
    fromBranch (absText (m :: t), absText e) size = .ok r ↔
      (relText e (m :: t)).length < size ∧ r = relText e (m :: t) := by
  have hlen : (relText e (m :: t)).length =
      (parents e.length).length + (absText (m :: t)).tail.length := List.length_append
  have hne : absText (m :: t) ≠ [] := List.cons_ne_nil _ _
  unfold fromBranch
  dsimp only
  rw [ups_absText hd, if_neg hne]
  constructor
  · intro h
    split_ifs at h with hup hlong
    cases h
    exact ⟨by omega, rfl⟩
  · rintro ⟨hlt, rfl⟩
    rw [if_neg (by omega), if_neg (by omega)]
    rfl

/-- `abs2rel` once the branched point is found. -/
theorem abs2rel_of_seek {path base : List Char} {s : List Char × List Char} {size : ℕ}
    (hpath : path.head? = some '/') (hbase : base.head? = some '/') (hsize : 1 < size)
    (hseek : seekBranch path base (path, base) = (s, branch))
    (hnot : ¬ ((s.1 = [] ∨ s.1 = ['/']) ∧ (s.2 = [] ∨ s.2 = ['/']))) :
    abs2rel path base size =
      if (s.1 = [] ∧ s.2.head? = some '/') ∨ (s.1.head? = some '/' ∧ s.2 = []) then
        fromBranch s size
      else fromBranch branch size := by
  have hvalid : ¬ (base.head? ≠ some '/' ∨ size = 0) := by
    rw [not_or, not_not]
    exact ⟨hbase, by omega⟩
  unfold abs2rel
  rw [if_neg (not_not.2 hpath), if_neg hvalid, if_neg (by omega), hseek]
  exact if_neg hnot

/-- The base is the root. -/
theorem abs2rel_root (hm : IsName m) {size : ℕ} (hsize : 1 < size) :
    abs2rel (absText (m :: t)) ['/'] size = fromBranch (absText (m :: t), []) size := by
  have hname : ¬ AtEnd (m ++ absText t) := not_atEnd_name hm _
  have hseek (branch : List Char × List Char) : seekBranch (absText (m :: t)) ['/'] branch =
      ((m ++ absText t, []), (absText (m :: t), ['/'])) := by
    show seekBranch ('/' :: (m ++ absText t)) ['/'] branch = _
    rw [seekBranch, if_pos rfl, if_pos rfl, seekBranch_nil]
    rfl
  rw [abs2rel_of_seek rfl rfl hsize (hseek _), if_neg]
  · rfl
  · rintro (⟨h, -⟩ | ⟨h, -⟩)
    · exact hname (.inl h)
    · exact hname (.inr h)
  · rintro ⟨h | h, -⟩
    · exact hname (.inl h)
    · exact hname (.inr (congrArg List.head? h))

/-- The path goes on where the base ends, or they part in a name. -/
theorem abs2rel_below {c : Dir} (hc : Names c) (he : Names e) (hm : IsName m)
    (hapart : ∀ k e', e = k :: e' → k ≠ m) {size : ℕ} (hsize : 1 < size) (hne : c ++ e ≠ []) :
    abs2rel (absText (c ++ m :: t)) (absText (c ++ e)) size =
      fromBranch (absText (m :: t), absText e) size := by
  have hpath : (absText (c ++ m :: t)).head? = some '/' := absText_head (by simp)
  have hbase : (absText (c ++ e)).head? = some '/' := absText_head hne
  obtain ⟨branch, hcommon⟩ :=
    seekBranch_common hc (m :: t) e (absText (c ++ m :: t), absText (c ++ e))
  cases e with
  | nil =>
    have hend : seekBranch (absText (m :: t)) (absText []) branch =
        ((absText (m :: t), []), branch) := seekBranch_nil _ _
    rw [abs2rel_of_seek hpath hbase hsize (hcommon.trans hend), if_pos (.inr ⟨rfl, rfl⟩)]
    · rfl
    · rintro ⟨h | h, -⟩
      · cases h
      · exact not_atEnd_name hm _ (.inl (List.cons.inj h).2)
  | cons k e =>
    have hk : '/' ∉ k := (he k List.mem_cons_self).noSlash
    have hslash : seekBranch (absText (m :: t)) (absText (k :: e)) branch =
        seekBranch (m ++ absText t) (k ++ absText e) (absText (m :: t), absText (k :: e)) := by
      show seekBranch ('/' :: (m ++ absText t)) ('/' :: (k ++ absText e)) branch = _
      rw [seekBranch, if_pos rfl, if_pos rfl]
      rfl
    obtain ⟨s, hstop, hnot⟩ := seekBranch_apart hm.noSlash hk (hapart k e rfl).symm
      (atEnd_absText t) (atEnd_absText e) (absText (m :: t), absText (k :: e))
    have hat {q : List Char} (h : q = [] ∨ q = ['/']) : AtEnd q :=
      h.imp_right (congrArg List.head?)
    rw [abs2rel_of_seek hpath hbase hsize (hcommon.trans (hslash.trans hstop)), if_neg]
    · rintro (⟨h, h'⟩ | ⟨h, h'⟩)
      · exact hnot ⟨.inl h, .inr h'⟩
      · exact hnot ⟨.inr h, .inl h'⟩
    · exact fun h => hnot ⟨hat h.1, hat h.2⟩

/-- **`abs2rel` to a path that is not above the base**: up to where they part, and down. -/
theorem abs2rel_eq_ok {c : Dir} (hc : Names c) (he : Names e) (hm : IsName m)
    (hapart : ∀ k e', e = k :: e' → k ≠ m) {size : ℕ} {r : List Char} :
    abs2rel (absText (c ++ m :: t)) (cwdText (c ++ e)) size = .ok r ↔
      (relText e (m :: t)).length < size ∧ r = relText e (m :: t) := by
  by_cases hsize : 1 < size
  · rw [← fromBranch_eq_ok he m t]
    by_cases hroot : c ++ e = []
    · obtain ⟨rfl, rfl⟩ := List.append_eq_nil_iff.1 hroot
      exact iff_of_eq (congrArg (· = Except.ok r) (abs2rel_root hm hsize))
    · rw [cwdText, if_neg hroot, abs2rel_below hc he hm hapart hsize hroot]
  · -- there is no room for a character
    have hhead : (absText (c ++ m :: t)).head? = some '/' := absText_head (by simp)
    have hpos : 0 < (relText e (m :: t)).length := by
      refine List.length_pos_iff.2 (List.append_ne_nil_of_right_ne_nil _ ?_)
      exact List.append_ne_nil_of_left_ne_nil hm.ne_nil _
    refine iff_of_false (fun h => ?_) fun h => by omega
    unfold abs2rel at h
    rw [if_neg (not_not.2 hhead)] at h
    split_ifs at h with hvalid hone
    · omega
    · omega

/-- Where a path and a base part. -/
theorem exists_apart (h : ¬ t <+: d) :
    ∃ c m t' e, t = c ++ m :: t' ∧ d = c ++ e ∧ ∀ k e', e = k :: e' → k ≠ m := by
  induction t generalizing d with
  | nil => exact absurd (List.nil_prefix) h
  | cons m t ih =>
    cases d with
    | nil => exact ⟨[], m, t, [], rfl, rfl, fun _ _ h => nomatch h⟩
    | cons k d =>
      by_cases hk : k = m
      · subst hk
        have hnot : ¬ t <+: d := fun hle => h (List.cons_prefix_cons.2 ⟨rfl, hle⟩)
        obtain ⟨c, m, t', e, rfl, rfl, hapart⟩ := ih hnot
        exact ⟨k :: c, m, t', e, rfl, rfl, hapart⟩
      · refine ⟨[], m, t, k :: d, rfl, rfl, fun k' e' heq => ?_⟩
        rwa [← (List.cons.inj heq).1]

theorem walk_parents (c e : Dir) : walk (c ++ e) (parents e.length) = c := by
  induction e using List.reverseRecOn with
  | nil => rw [List.append_nil]; exact walk_nil c
  | append_singleton e n ih =>
    rw [List.length_append, List.length_singleton, ← List.append_assoc]
    show walk (c ++ e ++ [n]) ('.' :: '.' :: '/' :: parents e.length) = c
    rw [walk_parent, List.dropLast_concat, ih]

/-- **A relative path leads where it should.** -/
theorem resolve_relText (c e : Dir) (ht : Names (m :: t)) :
    resolve (c ++ e) (relText e (m :: t)) = c ++ m :: t := by
  have hm : IsName m := ht m List.mem_cons_self
  have hhead : (m ++ absText t).head? ≠ some '/' := fun h => not_atEnd_name hm _ (.inr h)
  show resolve (c ++ e) (parents e.length ++ (m ++ absText t)) = _
  rw [resolve_base (isBase_parents _) (fun _ => hhead), resolve_parents, walk_parents,
    ← walk_slash]
  exact walk_absText c ht

theorem endsIn_absText (d : Dir) (n : List Char) : EndsIn n (absText (d ++ [n])) := by
  rw [absText_concat]
  exact EndsIn.append ⟨[], rfl, isBase_nil⟩ _

theorem endsIn_relText (e : Dir) (hn : '/' ∉ n) (h : EndsIn n (absText (m :: t))) :
    EndsIn n (relText e (m :: t)) := by
  have hrest : EndsIn n (m ++ absText t) := EndsIn.behind hn (u := []) h
  show EndsIn n (parents e.length ++ (m ++ absText t))
  cases e.length with
  | zero => exact hrest
  | succ k =>
    have hlast : parents (k + 1) ++ (m ++ absText t) =
        parents k ++ ['.', '.'] ++ '/' :: (m ++ absText t) := by
      rw [parents_succ, List.append_assoc, List.append_assoc]
      rfl
    rw [hlast]
    exact hrest.append _

/-- A name is not taken out. -/
theorem name_begins (hm : IsName m) (hp : p.head? = some '/' ∨ p = []) :
    Fresh (m ++ p) ∧ ¬ ['/'] <+: m ++ p := by
  refine ⟨⟨?_, ?_⟩, ?_⟩ <;> rintro ⟨r, hr⟩
  · exact hm.ne_here (cut_unique (r := ['.']) (by decide) hm.noSlash hp hr).1.symm
  · exact hm.ne_parent (cut_unique (r := ['.', '.']) (by decide) hm.noSlash hp hr).1.symm
  · exact hm.ne_nil (cut_unique (r := []) (by decide) hm.noSlash hp hr).1.symm

/-- A name before a plain text. -/
theorem plain_name (hm : IsName m) (hp : p.head? = some '/' ∨ p = [])
    (hplain : ∀ q, p = '/' :: q → Plain q) : Plain (m ++ p) := by
  rintro u v heq (rfl | ⟨b, rfl⟩)
  · rw [List.nil_append] at heq
    subst heq
    exact name_begins hm hp
  · -- the slash is none of the name
    rw [List.append_assoc, List.singleton_append] at heq
    rcases List.append_eq_append_iff.1 heq with ⟨w, -, rfl⟩ | ⟨w, rfl, hrest⟩
    · cases w with
      | nil => exact hplain v rfl [] v rfl isBase_nil
      | cons c w =>
        have hc : c = '/' := atEnd_cons.1 hp.symm
        subst hc
        exact hplain _ rfl (w ++ ['/']) v (List.append_cons w '/' v) (isBase_append w)
    · cases w with
      | nil => exact hplain v hrest.symm [] v rfl isBase_nil
      | cons c w =>
        rw [← (List.cons.inj hrest).1] at hm
        exact absurd (List.mem_append_right b List.mem_cons_self) hm.noSlash

/-- The text of a directory has nothing to take out. -/
theorem plain_absText (ht : Names (m :: t)) : Plain (m ++ absText t) := by
  have hm : IsName m := ht m List.mem_cons_self
  induction t generalizing m with
  | nil => exact plain_name hm (.inr rfl) fun q h => nomatch h
  | cons k t ih =>
    refine plain_name hm (.inl rfl) fun q h => ?_
    have ht' : Names (k :: t) := fun n hn => ht n (List.mem_cons_of_mem m hn)
    rw [← (List.cons.inj h).2]
    exact ih ht' (ht' k List.mem_cons_self)

/-- The text of a directory does not go above the root. -/
theorem not_above_absText (ht : Names (m :: t)) (size : ℕ) :
    ¬ AboveRoot (absText (m :: t)) size := by
  rintro ⟨-, x, hx⟩
  have hsize : 0 < size := Nat.zero_lt_of_lt (normalizePathname_ok hx).1
  have heq := normalizePathname_normal head_root (plain_absText ht) hsize
  have hself : ['/'] ++ (m ++ absText t) = absText (m :: t) := rfl
  rw [hself, hx] at heq
  split_ifs at heq
  have hnil : m :: t = [] :=
    eq_nil_of_above ht (.inr rfl) ((List.append_nil _).trans (Except.ok.inj heq).symm)
  cases hnil

theorem not_above_relText (e : Dir) (ht : Names (m :: t)) (size : ℕ) :
    ¬ AboveRoot (relText e (m :: t)) size := by
  rintro ⟨habs, -⟩
  rw [relText] at habs
  cases e with
  | nil => exact not_atEnd_name (ht m List.mem_cons_self) (absText t) (.inr habs)
  | cons k e => exact absurd (Option.some.inj habs) (by decide)

theorem normal_absText (ht : Names (m :: t)) : Normal (absText (m :: t)) :=
  ⟨['/'], ['/'], m ++ absText t, rfl, head_root, plain_absText ht⟩

theorem normal_relText (e : Dir) (ht : Names (m :: t)) : Normal (relText e (m :: t)) :=
  ⟨[], parents e.length, m ++ absText t, rfl, ⟨.inl rfl, e.length, rfl⟩, plain_absText ht⟩

end

/-! ## What is printed -/

/-- The types `PATH_THROUGH`, `PATH_ABSOLUTE` and `PATH_RELATIVE`. -/
inductive ConvertType where
  | through
  | absolute
  | relative
  deriving DecidableEq, Repr

/-- The path in the form of the type; `abspath` is the absolute one. -/
def convertTo [SysParam] (type : ConvertType) (abspath cwd path : List Char) : Except Halt (List Char) :=
  match type with
  | .through => .ok path
  | .absolute => .ok abspath
  | .relative => abs2rel abspath cwd maxPathLen

/-- `convert_pathname`; `chars` are the characters to encode, if any, and an error of `abs2rel` ends
in `die`. The absolute path is made of the root and of `path + 1`, the path without its dot. -/
def convertPathname [SysParam] (type : ConvertType) (root cwd path : List Char)
    (chars : Option (List Char)) : Except Halt (List Char) :=
  let abspath := (if root.getLast? = some '/' then root.dropLast else root) ++ path.tail
  (convertTo type abspath cwd path).bind fun path =>
    match chars with
    | none => .ok path
    | some chars => encodePath chars path

section

variable {root cwd ns : Dir} {type : ConvertType} {size : ℕ}

theorem convertPathname_eq [SysParam] (hroot : Names root) (type : ConvertType) (cwd ns : Dir) :
    convertPathname type (cwdText root) (cwdText cwd) ('.' :: absText ns) none =
      convertTo type (absText (root ++ ns)) (cwdText cwd) ('.' :: absText ns) := by
  unfold convertPathname
  rw [cwdText_cut hroot, List.tail_cons, ← absText_append]
  dsimp only
  cases convertTo type (absText (root ++ ns)) (cwdText cwd) ('.' :: absText ns) <;> rfl

/-- **What is printed for a file**, absolute or relative to `cwd`, leads to it from there. -/
theorem printed_leads [SysParam] (hcwd : Names cwd) {t : Dir} (ht : Names t) (hfile : ¬ t <+: cwd)
    (htype : type ≠ .through) {path r : List Char}
    (h : convertTo type (absText t) (cwdText cwd) path = .ok r) :
    Normal r ∧ resolve cwd r = t ∧ (∀ size, ¬ AboveRoot r size) ∧ ∃ n, IsName n ∧ EndsIn n r := by
  obtain ⟨c, m, t, e, rfl, rfl, hapart⟩ := exists_apart hfile
  obtain ⟨init, n, hlast⟩ : ∃ init n, m :: t = init ++ [n] :=
    (List.eq_nil_or_concat' (m :: t)).resolve_left (List.cons_ne_nil m t)
  have ht' : Names (m :: t) := fun x hx => ht x (List.mem_append_right c hx)
  have hn : IsName n := ht' n (by rw [hlast]; simp)
  have hend : EndsIn n (absText (m :: t)) := by
    rw [hlast]
    exact endsIn_absText init n
  cases type with
  | through => exact absurd rfl htype
  | absolute =>
    obtain rfl := Except.ok.inj h
    have hhead : (absText (c ++ m :: t)).head? = some '/' := absText_head (by simp)
    have hresolve : resolve (c ++ e) (absText (c ++ m :: t)) = c ++ m :: t := by
      rw [resolve, if_pos hhead, walk_absText [] ht, List.nil_append]
    have hends : EndsIn n (absText (c ++ m :: t)) := by
      rw [hlast, ← List.append_assoc]
      exact endsIn_absText _ n
    cases c with
    | nil => exact ⟨normal_absText ht, hresolve, not_above_absText ht, n, hn, hends⟩
    | cons k c => exact ⟨normal_absText ht, hresolve, not_above_absText ht, n, hn, hends⟩
  | relative =>
    have hc : Names c := fun x hx => ht x (List.mem_append_left _ hx)
    have he : Names e := fun x hx => hcwd x (List.mem_append_right c hx)
    obtain ⟨-, rfl⟩ := (abs2rel_eq_ok hc he (ht' m List.mem_cons_self) hapart).1 h
    exact ⟨normal_relText e ht', resolve_relText c e ht', not_above_relText e ht', n, hn,
      endsIn_relText e hn.noSlash hend⟩

/-- **What global prints for a file is found again**: absolute or relative to the working directory,
`normalize` takes it in that directory to the path of GPATH that it was printed for, exactly when
the printed path, the absolute path and the path of GPATH fit in the buffers. -/
theorem printed_path_found [SysParam] (hroot : Names root) (hcwd : Names cwd) (hns : Names ns)
    (hne : ns ≠ []) (hfile : ¬ root ++ ns <+: cwd) (htype : type ≠ .through) {r : List Char}
    (hprint : convertPathname type (cwdText root) (cwdText cwd) ('.' :: absText ns) none = .ok r) :
    Normalize.normalize r (absText root ++ ['/']) (cwdText cwd) size =
        .ok (some ('.' :: absText ns)) ↔
      r.length < size ∧ (absText (root ++ ns)).length < maxPathLen ∧
        ('.' :: absText ns).length < size := by
  have htree : Names (root ++ ns) := fun n hn =>
    (List.mem_append.1 hn).elim (hroot n) (hns n)
  rw [convertPathname_eq hroot] at hprint
  obtain ⟨hnormal, hsame, hup, n, hn, hend⟩ := printed_leads hcwd htree hfile htype hprint
  have htree' : treePath root (resolve cwd r) = some ('.' :: absText ns) := by
    rw [hsame, treePath, if_neg (by simpa using hne), if_pos (List.prefix_append _ _),
      List.drop_left]
  rw [normalize_eq_ok hroot hcwd hn hend (hup size), and_iff_left htree'.symm]
  constructor
  · rintro ⟨hfit, habs, htext⟩
    rw [hsame] at habs
    exact ⟨hnormal.ok_iff.1 hfit, habs, htext _ htree'⟩
  · rintro ⟨hfit, habs, htext⟩
    refine ⟨hnormal.ok_iff.2 hfit, by rwa [hsame], fun q hq => ?_⟩
    rw [htree'] at hq
    exact Option.some.inj hq ▸ htext

section

attribute [local instance] linux

theorem printed_path_found_up :
    convertPathname .relative (cwdText ["r".toList]) (cwdText ["r".toList, "a".toList])
        ('.' :: absText ["b".toList, "c.h".toList]) none = .ok "../b/c.h".toList ∧
      Normalize.normalize "../b/c.h".toList (absText ["r".toList] ++ ['/'])
        (cwdText ["r".toList, "a".toList]) 9 = .ok (some "./b/c.h".toList) := by
  have hns : Names ["b".toList, "c.h".toList] :=
    List.forall_mem_cons.2 ⟨⟨by decide, by decide, by decide, by decide⟩,
      List.forall_mem_singleton.2 ⟨by decide, by decide, by decide, by decide⟩⟩
  have hprint : convertPathname .relative (cwdText ["r".toList]) (cwdText ["r".toList, "a".toList])
      ('.' :: absText ["b".toList, "c.h".toList]) none = .ok "../b/c.h".toList := by decide +kernel
  exact ⟨hprint, (printed_path_found names_r names_ra hns (by decide) (by decide) (by decide)
    hprint).2 ⟨by decide, by decide, by decide⟩⟩

end

end

end EmacsConfig.Global.PathOutput
