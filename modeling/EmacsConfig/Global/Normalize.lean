import EmacsConfig.Global.Gparam
import EmacsConfig.Global.Paths

/-!
# Paths of the source tree (libutil/abs2rel.c)

GPATH knows a file by its path from the root of the source tree, with `./` before it.
`normalize` takes what a user writes, in any directory, to that path: it normalizes the text,
makes it absolute with `rel2abs` and takes the root off. A file has one such path, however it is
written, with one exception: an absolute path that goes above `/`.
-/

namespace EmacsConfig.Global.Normalize

open Gparam Pathnames Paths

/-- The loop up to the root: what is left of the path, and of the base, last character first. -/
def upToRoot : List Char → List Char → List Char × List Char
  | '.' :: '.' :: '/' :: p, bp => upToRoot p (backUp bp)
  | '.' :: '/' :: p, bp => upToRoot p bp
  | ['.', '.'], bp => ([], backUp bp)
  | p, bp => (p, bp)

/-- The branch for `.` and `./`, which keeps a slash at the end of `./`. -/
def rel2absHere (path base : List Char) (size : ℕ) : Except Halt (List Char) :=
  if size ≤ base.length then .error .erange
  else if path = ['.', '/'] then
    if base.getLast? = some '/' then .ok base
    else if size ≤ base.length + 1 then .error .erange
    else .ok (base ++ ['/'])
  else .ok (if base.getLast? = some '/' ∧ 1 < base.length then base.dropLast else base)

def rel2abs (path base : List Char) (size : ℕ) : Except Halt (List Char) :=
  if path.head? = some '/' then
    if size ≤ path.length then .error .erange else .ok path
  else if base.head? ≠ some '/' ∨ size = 0 then .error .einval
  else if size = 1 then .error .erange
  else if path = ['.'] ∨ path = ['.', '/'] then rel2absHere path base size
  else
    let s := upToRoot path (if base.getLast? = some '/' then base.dropLast else base).reverse
    if size ≤ s.2.length then .error .erange
    -- `*(pp - 1)` with nothing before
    else if path = [] then .error .underrun
    else
      let slash := if s.1 ≠ [] ∨ path.getLast? = some '/' ∨ s.2 = [] then ['/'] else []
      let result := s.2.reverse ++ slash ++ s.1
      if size ≤ result.length then .error .erange else .ok result

/-- `./` and `p` are copied; `strlimcpy` calls `die` when they do not fit. -/
def putPath (size : ℕ) (p : List Char) : Except Halt (Option (List Char)) :=
  if size < p.length + 3 then .error .erange else .ok (some ('.' :: '/' :: p))

/-- `none` is the null pointer for a path out of the tree; every error ends in `die`. -/
def normalize [SysParam] (path root cwd : List Char) (size : ℕ) : Except Halt (Option (List Char)) :=
  (normalizePathname path size).bind fun result =>
    (if path.head? = some '/' then
      if maxPathLen < result.length then .error .erange
      -- `strcpy(abs, result)`
      else if result.length = maxPathLen then .error .overrun
      else .ok result
    else rel2abs result cwd maxPathLen).bind fun abs =>
      if root.isPrefixOf abs then putPath size (abs.drop root.length)
      else if root = abs ++ ['/'] then putPath size ['/']
      else .ok none

section

attribute [local instance] linux

example : ["../b.c", "./c/./d.c", "/r/s/../t.c", "../../q.c", "/../r/t.c", "../../r"].map
    (fun p => normalize p.toList "/r/".toList "/r/s".toList 100) =
    ["./b.c", "./s/c/d.c", "./t.c", "", "", ".//"].map fun p =>
      .ok (if p = "" then none else some p.toList) := by
  decide +kernel

end

/-- What `getcwd` returns. -/
def cwdText (d : Dir) : List Char := if d = [] then ['/'] else absText d

section

variable {x p : List Char} {d : Dir}

theorem backUp_append {m : List Char} (hm : '/' ∉ m) (y : List Char) :
    backUp (m ++ '/' :: y) = y := by
  induction m with
  | nil => rfl
  | cons c m ih =>
    rw [List.mem_cons, not_or] at hm
    rw [List.cons_append, backUp, List.dropWhile_cons_of_pos (by simpa using Ne.symm hm.1)]
    exact ih hm.2

theorem backUp_absText (hd : Names d) :
    backUp (absText d).reverse = (absText d.dropLast).reverse := by
  rcases List.eq_nil_or_concat' d with rfl | ⟨d, n, rfl⟩
  · rfl
  · have hn : '/' ∉ n.reverse := fun hmem => (hd n (by simp)).noSlash (List.mem_reverse.1 hmem)
    rw [absText_concat, List.dropLast_concat, List.reverse_append, List.reverse_cons,
      List.append_assoc, List.singleton_append, backUp_append hn]

theorem upToRoot_parents (hd : Names d) (hfresh : Fresh x) (hx : x ≠ ['.', '.']) (k : ℕ) :
    upToRoot (parents k ++ x) (absText d).reverse = (x, (absText (walk d (parents k))).reverse) ∧
      (absText (walk d (parents k))).length ≤ (absText d).length := by
  induction k generalizing d with
  | zero =>
    have hwalk : walk d (parents 0) = d := walk_nil d
    rw [hwalk]
    refine ⟨?_, Nat.le_refl _⟩
    show upToRoot x _ = _
    rw [upToRoot]
    · rintro t rfl
      exact hfresh.2 ⟨t, rfl⟩
    · rintro t rfl
      exact hfresh.1 ⟨t, rfl⟩
    · exact hx
  | succ k ih =>
    have hwalk : walk d (parents (k + 1)) = walk d.dropLast (parents k) := walk_parent d (parents k)
    obtain ⟨hup, hle⟩ := ih hd.dropLast
    have hshorter := length_backUp_le (absText d).reverse
    rw [backUp_absText hd, List.length_reverse, List.length_reverse] at hshorter
    rw [hwalk]
    refine ⟨?_, Nat.le_trans hle hshorter⟩
    show upToRoot (parents k ++ x) (backUp (absText d).reverse) = _
    rw [backUp_absText hd, hup]

/-- **The names of a path** that has nothing to take out and ends in a name. -/
theorem Plain.names (h : Plain x) {n : List Char} (hn : IsName n) (hend : EndsIn n x) :
    ∃ e, '/' :: x = absText e ∧ ∀ d, walk d x = d ++ e := by
  obtain ⟨u, rfl, hu⟩ := hend
  induction hlen : u.length using Nat.strongRecOn generalizing u n with
  | ind k ih =>
    subst hlen
    rcases hu with rfl | ⟨b, rfl⟩
    · refine ⟨[n], ?_, fun d => walk_name d hn⟩
      rw [absText, List.flatMap_cons, List.flatMap_nil, List.append_nil]
      rfl
    · -- the component before the last slash
      have hsplit : ∃ u m, b = u ++ m ∧ '/' ∉ m ∧ IsBase u := by
        rcases backUp_cases b.reverse with ⟨m, heq, hm⟩ | ⟨hm, -⟩
        · rw [List.reverse_reverse] at heq
          exact ⟨_, m, heq.trans (List.append_cons ..), hm, isBase_append _⟩
        · rw [List.reverse_reverse] at hm
          exact ⟨[], b, rfl, hm, isBase_nil⟩
      obtain ⟨u, m, rfl, hm, hu⟩ := hsplit
      have hslash : Plain (u ++ (m ++ ['/'])) := by
        rw [← List.append_assoc]
        exact Plain.left h
      have hname : IsName m := hslash.isName hu hm
      have hbefore : Plain (u ++ m) := by
        rw [← List.append_assoc] at hslash
        exact hslash.left
      obtain ⟨e, htext, hwalk⟩ := ih u.length (by simp) hname u hu hbefore rfl
      refine ⟨e ++ [n], ?_, fun d => ?_⟩
      · rw [absText_concat, ← htext, List.cons_append, ← List.append_cons]
      · rw [← List.append_cons, walk_append_slash, hwalk, walk_name _ hn, List.append_assoc]

theorem cwdText_head (d : Dir) : (cwdText d).head? = some '/' := by
  cases d with
  | nil => rfl
  | cons n d => rfl

/-- The base before its slash at the end. -/
theorem cwdText_cut (hd : Names d) :
    (if (cwdText d).getLast? = some '/' then (cwdText d).dropLast else cwdText d) = absText d := by
  rcases List.eq_nil_or_concat' d with rfl | ⟨d, n, rfl⟩
  · rfl
  · have hn : IsName n := hd n (by simp)
    have hne : d ++ [n] ≠ [] := by simp
    rw [cwdText, if_neg hne, absText_concat, if_neg]
    rw [List.append_cons, List.getLast?_append_of_ne_nil _ hn.ne_nil]
    exact fun hlast => hn.noSlash (List.mem_of_getLast? hlast)

/-- **`rel2abs` on a normal path** that ends in a name. -/
theorem rel2abs_eq (hd : Names d) (hx : Plain x) {n : List Char} (hn : IsName n)
    (hend : EndsIn n x) (k size : ℕ) :
    rel2abs (parents k ++ x) (cwdText d) size =
      if size = 0 then .error .einval
      else if size ≤ (absText (resolve d (parents k ++ x))).length then .error .erange
      else .ok (absText (resolve d (parents k ++ x))) := by
  obtain ⟨e, htext, hwalk⟩ := Plain.names hx hn hend
  have he' : e ≠ [] := by
    rintro rfl
    cases htext
  have hstay {p : List Char} (heq : x = p) (hp : walk [] p = []) : False := by
    rw [← heq, hwalk, List.nil_append] at hp
    exact he' hp
  have hdots : x ≠ ['.', '.'] := fun heq => hstay heq rfl
  have hhere : x ≠ ['.'] := fun heq => hstay heq rfl
  have hslash : x ≠ ['.', '/'] := fun heq => hstay heq rfl
  have hnil : x ≠ [] := fun heq => hstay heq rfl
  have hpath : (parents k ++ x).head? ≠ some '/' ∧ parents k ++ x ≠ ['.'] ∧
      parents k ++ x ≠ ['.', '/'] := by
    cases k with
    | zero => exact ⟨hx.head_ne, hhere, hslash⟩
    | succ k =>
      refine ⟨fun h => absurd (Option.some.inj h) (by decide), fun h => ?_, fun h => ?_⟩
      · cases (List.cons.inj h).2
      · exact absurd (List.cons.inj (List.cons.inj h).2).1 (by decide)
  obtain ⟨hup, hle⟩ := upToRoot_parents hd (hx [] x rfl isBase_nil).1 hdots k
  have hresolve : resolve d (parents k ++ x) = walk d (parents k) ++ e := by
    rw [resolve_base (isBase_parents k) (fun _ => hx.head_ne), resolve_parents, hwalk]
  have htext' : absText (resolve d (parents k ++ x)) =
      absText (walk d (parents k)) ++ ['/'] ++ x := by
    rw [hresolve, absText_append, ← htext, List.append_assoc]
    rfl
  have hlen : (absText (walk d (parents k)) ++ ['/'] ++ x).length =
      (absText (walk d (parents k))).length + 1 + x.length := by
    rw [List.length_append, List.length_append, List.length_singleton]
  have hpos := List.length_pos_iff.2 hnil
  have hne : parents k ++ x ≠ [] := List.append_ne_nil_of_right_ne_nil _ hnil
  have hput : (if x ≠ [] ∨ (parents k ++ x).getLast? = some '/' ∨
      (absText (walk d (parents k))).reverse = [] then ['/'] else []) = ['/'] :=
    if_pos (.inl hnil)
  have hcwd : ¬ (cwdText d).head? ≠ some '/' := not_not.2 (cwdText_head d)
  rw [htext']
  unfold rel2abs
  rw [if_neg hpath.1]
  rcases Nat.eq_zero_or_pos size with rfl | hsize
  · rw [if_pos (.inr rfl), if_pos rfl]
  · have hzero : size ≠ 0 := Nat.ne_of_gt hsize
    rw [if_neg (not_or.2 ⟨hcwd, hzero⟩), if_neg hzero, if_neg (not_or.2 hpath.2), cwdText_cut hd, hup]
    dsimp only
    rw [List.length_reverse, if_neg hne, hput, List.reverse_reverse]
    -- a buffer too short for the text is found too short at one of three places
    split_ifs <;> first | rfl | omega

/-- How GPATH knows what `t` leads to; the root itself gets a slash too many. -/
def treePath (root t : Dir) : Option (List Char) :=
  if t = root then some ['.', '/', '/']
  else if root <+: t then some ('.' :: absText (t.drop root.length))
  else none

/-- The path goes above the root of the file system. -/
def AboveRoot (path : List Char) (size : ℕ) : Prop :=
  path.head? = some '/' ∧ ∃ x, normalizePathname path size = .ok ('/' :: (parent ++ x))

theorem putPath_eq_ok {size : ℕ} {p : List Char} {q : Option (List Char)} :
    putPath size p = .ok q ↔ (∀ r, some ('.' :: '/' :: p) = some r → r.length < size) ∧
      q = some ('.' :: '/' :: p) := by
  have hlen : ('.' :: '/' :: p).length < size ↔ ¬ size < p.length + 3 := by
    rw [List.length_cons, List.length_cons]
    omega
  rw [putPath]
  constructor
  · intro h
    split_ifs at h with hshort
    cases h
    exact ⟨fun r hr => Option.some.inj hr ▸ hlen.2 hshort, rfl⟩
  · rintro ⟨hfit, rfl⟩
    rw [if_neg (hlen.1 (hfit _ rfl))]

/-- The second half of `normalize`. -/
theorem takeRoot_eq_ok {root t : Dir} (hroot : Names root) (ht : Names t) {size : ℕ}
    {q : Option (List Char)} :
    (if (absText root ++ ['/']).isPrefixOf (absText t) then
        putPath size ((absText t).drop (absText root ++ ['/']).length)
      else if absText root ++ ['/'] = absText t ++ ['/'] then putPath size ['/']
      else .ok none) = .ok q ↔
      (∀ r, treePath root t = some r → r.length < size) ∧ q = treePath root t := by
  by_cases hbelow : absText root ++ ['/'] <+: absText t
  · obtain ⟨a, ha⟩ := hbelow
    have hsplit : absText root ++ '/' :: a = absText t := by rw [← ha, ← List.append_cons]
    obtain ⟨n, e, rfl, rfl⟩ := (absText_isPrefix_iff hroot ht).1 hsplit
    have hne : root ++ n :: e ≠ root := by simp
    rw [if_pos (List.isPrefixOf_iff_prefix.2 ⟨_, ha⟩), ← ha, List.drop_left, treePath, if_neg hne,
      if_pos (List.prefix_append _ _), List.drop_left]
    exact putPath_eq_ok
  · have hnot : ¬ (absText root ++ ['/']).isPrefixOf (absText t) := fun h =>
      hbelow (List.isPrefixOf_iff_prefix.1 h)
    rw [if_neg hnot, treePath]
    by_cases heq : t = root
    · subst heq
      rw [if_pos rfl, if_pos rfl]
      exact putPath_eq_ok
    · rw [if_neg heq, if_neg, if_neg]
      · rw [Except.ok.injEq, eq_comm]
        exact ⟨fun h => ⟨(fun r hr => nomatch hr), h⟩, And.right⟩
      · rintro ⟨e, rfl⟩
        cases e with
        | nil => exact heq (List.append_nil root)
        | cons n e =>
          refine hbelow ⟨n ++ absText e, ?_⟩
          rw [absText_append, ← List.append_cons]
          rfl
      · intro h
        exact heq (absText_injective hroot ht (List.append_cancel_right h)).symm

/-- A directory whose text goes above the root is the root. -/
theorem eq_nil_of_above {y : List Char} (hd : Names d) (hy : y.head? = some '/' ∨ y = [])
    (h : absText d ++ y = '/' :: (parent ++ x)) : d = [] := by
  cases d with
  | nil => rfl
  | cons n d =>
    exfalso
    have hname : IsName n := hd n List.mem_cons_self
    have hrest : (absText d ++ y).head? = some '/' ∨ absText d ++ y = [] := by
      rcases head_absText d with hhead | hnil
      · obtain ⟨b, hb⟩ := List.head?_eq_some_iff.1 hhead
        rw [hb]
        exact .inl rfl
      · rwa [hnil]
    have hcut : ['.', '.'] ++ '/' :: x = n ++ (absText d ++ y) := by
      rw [← List.append_assoc]
      exact (List.cons.inj h).2.symm
    exact hname.ne_parent (cut_unique (by decide) hname.noSlash hrest hcut).1.symm

variable {root cwd : Dir} {path n : List Char} {size : ℕ}

/-- What `abs` holds in `normalize`. -/
theorem abs_eq_ok [SysParam] {r : List Char} (hd : Names d) (hn : IsName n) (hend : EndsIn n path)
    (hr : normalizePathname path size = .ok r) (hup : ¬ AboveRoot path size) {a : List Char} :
    (if path.head? = some '/' then
      if maxPathLen < r.length then .error .erange
      else if r.length = maxPathLen then .error .overrun
      else .ok r
    else rel2abs r (cwdText d) maxPathLen) = .ok a ↔
      (absText (resolve d path)).length < maxPathLen ∧ a = absText (resolve d path) := by
  obtain ⟨-, hsame, base, x, rfl, ⟨-, k, rfl⟩, hplain, hlast⟩ := normalizePathname_ok hr
  have hendx : EndsIn n x := hlast n hn.noSlash hend
  rw [← hsame d]
  by_cases habs : path.head? = some '/'
  · have hpre : rootOf path = ['/'] := if_pos habs
    rw [if_pos habs]
    rw [hpre] at hr ⊢
    cases k with
    | succ k => exact absurd ⟨habs, parents k ++ x, by rw [hr]; rfl⟩ hup
    | zero =>
      obtain ⟨e, htext, hwalk⟩ := Plain.names hplain hn hendx
      have hresolve : resolve d (['/'] ++ parents 0 ++ x) = e := by
        show walk [] ('/' :: x) = e
        rw [walk_slash, hwalk, List.nil_append]
      have hself : ['/'] ++ parents 0 ++ x = absText e := htext
      rw [hresolve, hself]
      constructor
      · intro h
        split_ifs at h with hlong hfull
        cases h
        exact ⟨by omega, rfl⟩
      · rintro ⟨hlt, rfl⟩
        rw [if_neg (by omega), if_neg (by omega)]
  · have hpre : rootOf path = [] := if_neg habs
    rw [if_neg habs, hpre, List.nil_append, rel2abs_eq hd hplain hn hendx]
    constructor
    · intro h
      split_ifs at h with hzero hlong
      cases h
      exact ⟨by omega, rfl⟩
    · rintro ⟨hlt, rfl⟩
      rw [if_neg (by omega), if_neg (by omega)]

/-- The path fits in the buffers: the normalized one, the absolute one, and the one of GPATH. -/
structure Fits [SysParam] (root cwd : Dir) (path : List Char) (size : ℕ) : Prop where
  normal : ∃ r, normalizePathname path size = .ok r
  abs : (absText (resolve cwd path)).length < maxPathLen
  tree : ∀ r, treePath root (resolve cwd path) = some r → r.length < size

theorem normalize_eq_ok [SysParam] (hroot : Names root) (hcwd : Names cwd) (hn : IsName n)
    (hend : EndsIn n path) (hup : ¬ AboveRoot path size) {q : Option (List Char)} :
    normalize path (absText root ++ ['/']) (cwdText cwd) size = .ok q ↔
      Fits root cwd path size ∧ q = treePath root (resolve cwd path) := by
  unfold normalize
  cases hr : normalizePathname path size with
  | error e =>
    refine iff_of_false (fun h => nomatch h) ?_
    rintro ⟨⟨⟨r, hok⟩, -, -⟩, -⟩
    rw [hr] at hok
    cases hok
  | ok r =>
    have habs {a : List Char} := abs_eq_ok (d := cwd) (a := a) hcwd hn hend hr hup
    rw [Except.bind]
    constructor
    · intro h
      obtain ⟨a, ha, hput⟩ := bind_ok h
      obtain ⟨hlt, rfl⟩ := habs.1 ha
      obtain ⟨hfit, rfl⟩ := (takeRoot_eq_ok hroot (hcwd.resolve path)).1 hput
      exact ⟨⟨⟨r, hr⟩, hlt, hfit⟩, rfl⟩
    · rintro ⟨⟨-, hlt, hfit⟩, rfl⟩
      rw [habs.2 ⟨hlt, rfl⟩]
      exact (takeRoot_eq_ok hroot (hcwd.resolve path)).2 ⟨hfit, rfl⟩

section

attribute [local instance] linux

theorem names_r : Names ["r".toList] :=
  List.forall_mem_singleton.2 ⟨by decide, by decide, by decide, by decide⟩

theorem names_ra : Names ["r".toList, "a".toList] :=
  List.forall_mem_cons.2 ⟨⟨by decide, by decide, by decide, by decide⟩,
    List.forall_mem_singleton.2 ⟨by decide, by decide, by decide, by decide⟩⟩

end

section

attribute [local instance] linux

end

end

end EmacsConfig.Global.Normalize
