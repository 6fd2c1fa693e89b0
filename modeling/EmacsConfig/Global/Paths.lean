import EmacsConfig.Lib.Pathnames

/-!
# Normalized paths (libutil/abs2rel.c)

`normalize_pathname` takes `.`, empty components and names followed by `..` out of a path. The
path it returns leads to the same directory or file from every working directory, and is
normal: it is returned again for itself. The room in the result buffer is checked before a
character is written, not before the NUL that ends the path.
-/

namespace EmacsConfig.Global.Paths

open Pathnames

/-- `erange` and `einval` are the errors that are returned; `overrun` is a write behind the result
buffer, `underrun` a read before the path. -/
inductive Halt where
  | erange
  | einval
  | overrun
  | underrun
  deriving DecidableEq, Repr

/-- The result buffer up to `q`: `base` is what stands before `final`, `cur` what stands from
there on, last character first. -/
structure Out where
  base : List Char
  cur : List Char
  deriving DecidableEq, Repr

/-- `q - result` -/
def Out.length (o : Out) : ℕ := o.base.length + o.cur.length

def Out.text (o : Out) : List Char := o.base ++ o.cur.reverse

/-- `strcpy(q, "../")` at the end of `base` -/
def putParent (size : ℕ) (base : List Char) : Except Halt (List Char) :=
  if size ≤ base.length + 3 then .error .erange else .ok (base ++ ['.', '.', '/'])

/-- The first loop, over the head of the path: what is left of it, and the buffer. -/
def skipHead (size : ℕ) (base : List Char) : List Char → Except Halt (List Char × List Char)
  | '.' :: '/' :: p => skipHead size base p
  | '.' :: '.' :: '/' :: p => (putParent size base).bind fun base => skipHead size base p
  | p => .ok (base, p)

/-- `while (q > final && *--q != '/')` -/
def backUp (cur : List Char) : List Char := (cur.dropWhile (· ≠ '/')).tail

/-- The loop behind a `/`. At the root of an absolute path `..` has nothing to go back to; the
`/` is there before anything else is written, so `base` alone tells. -/
def skipSlash (size : ℕ) (o : Out) : List Char → Except Halt (Out × List Char)
  | '/' :: p => skipSlash size o p
  | '.' :: '/' :: p => skipSlash size o p
  | '.' :: '.' :: '/' :: p =>
    if o.cur ≠ [] then skipSlash size ⟨o.base, backUp o.cur⟩ p
    else if o.base = ['/'] then skipSlash size o p
    else (putParent size o.base).bind fun base => skipSlash size ⟨base, []⟩ p
  | p => .ok (o, p)

/-- The `/` itself. -/
def putSlash (size : ℕ) (o : Out) : Except Halt Out :=
  if size ≤ o.length then .error .erange
  else if o.cur ≠ [] then .ok ⟨o.base, '/' :: o.cur⟩
  else .ok o

/-- `*q++ = c` -/
def putChar (size : ℕ) (o : Out) (c : Char) : Except Halt Out :=
  if size ≤ o.length then .error .erange else .ok ⟨o.base, c :: o.cur⟩

/-- The second loop; each round takes a character, so as many rounds as there are characters
are enough. -/
def scan (size : ℕ) : ℕ → Out → List Char → Except Halt Out
  | fuel + 1, o, c :: p =>
    if c = '/' then
      (skipSlash size o p).bind fun s => (putSlash size s.1).bind fun o => scan size fuel o s.2
    else (putChar size o c).bind fun o => scan size fuel o p
  | _, o, _ => .ok o

def normalizePathname (path : List Char) (size : ℕ) : Except Halt (List Char) :=
  let start := if path.head? = some '/' then (['/'], path.tail) else ([], path)
  (skipHead size start.1 start.2).bind fun s =>
    (scan size s.2.length ⟨s.1, []⟩ s.2).bind fun o =>
      -- `*q = '\0'`
      if size ≤ o.length then .error .overrun else .ok o.text

example : ["/a", "./a/./b/c", "a////b///c", "../a/b/c", "a/d/../b/c", "a/../b/../c/../d",
    "a/../../d", "/a/../../d"].map (fun p => normalizePathname p.toList 20) =
    ["/a", "a/b/c", "a/b/c", "../a/b/c", "a/b/c", "d", "../d", "/d"].map fun p => .ok p.toList := by
  decide +kernel

/-! ## Normal paths -/

def here : List Char := ['.', '/']
def parent : List Char := ['.', '.', '/']

def parents (k : ℕ) : List Char := (List.replicate k parent).flatten

/-- What a normal path begins with: `pre` is the root of an absolute path, and the parents are
those that come before any name. -/
def Head (pre base : List Char) : Prop :=
  (pre = [] ∨ pre = ['/']) ∧ ∃ k, base = pre ++ parents k

/-- No component to take out begins here; nothing is said of an empty one. -/
def Fresh (p : List Char) : Prop := ¬ here <+: p ∧ ¬ parent <+: p

/-- No component is to be taken out. -/
def Plain (x : List Char) : Prop := ∀ u v, x = u ++ v → IsBase u → Fresh v ∧ ¬ ['/'] <+: v

def Normal (p : List Char) : Prop := ∃ pre base x, p = base ++ x ∧ Head pre base ∧ Plain x

/-- `x` has been written and `p` is left, in the second loop. -/
def Begun (x p : List Char) : Prop :=
  ∀ u v, x = u ++ v → IsBase u → Fresh (v ++ p) ∧ (x ≠ [] → ¬ ['/'] <+: v ++ p)

/-- `x` has been written, and a `/` follows. -/
def Done (x : List Char) : Prop := x = [] ∨ Plain (x ++ ['/'])

section

variable {size fuel : ℕ} {pre base base' x p p' : List Char} {o o' : Out}

theorem parents_succ (k : ℕ) : parents (k + 1) = parents k ++ parent := by
  rw [parents, List.replicate_succ', List.flatten_append, List.flatten_singleton]
  rfl

theorem head_nil : Head [] [] := ⟨.inl rfl, 0, rfl⟩

theorem head_root : Head ['/'] ['/'] := ⟨.inr rfl, 0, rfl⟩

theorem Head.parent (h : Head pre base) : Head pre (base ++ ['.', '.', '/']) := by
  obtain ⟨hpre, k, rfl⟩ := h
  refine ⟨hpre, k + 1, ?_⟩
  rw [parents_succ, List.append_assoc]
  rfl

theorem Head.isBase (h : Head pre base) : IsBase base := by
  obtain ⟨hpre, k, rfl⟩ := h
  cases k with
  | zero =>
    rcases hpre with rfl | rfl
    · exact isBase_nil
    · exact isBase_append []
  | succ k =>
    have hlast : pre ++ parents (k + 1) = pre ++ parents k ++ ['.', '.'] ++ ['/'] := by
      rw [parents_succ, List.append_assoc, List.append_assoc]
      rfl
    rw [hlast]
    exact isBase_append _

theorem isBase_parents (k : ℕ) : IsBase (parents k) :=
  (show Head [] (parents k) from ⟨.inl rfl, k, rfl⟩).isBase

theorem resolve_parents (d : Dir) (k : ℕ) : resolve d (parents k) = walk d (parents k) := by
  refine if_neg ?_
  cases k with
  | zero => exact fun h => nomatch h
  | succ k => exact fun h => absurd (Option.some.inj h) (by decide)

theorem putParent_ok (h : putParent size base = .ok base') : base' = base ++ ['.', '.', '/'] := by
  unfold putParent at h
  split_ifs at h
  exact (Except.ok.inj h).symm

theorem bind_ok {ε α β : Type} {r : Except ε α} {f : α → Except ε β} {b : β}
    (h : r.bind f = .ok b) : ∃ a, r = .ok a ∧ f a = .ok b := by
  cases r with
  | error e => cases h
  | ok a => exact ⟨a, rfl, h⟩

/-- The loop takes whole components. -/
theorem skipHead_split (h : skipHead size base p = .ok (base', p')) :
    ∃ u, IsBase u ∧ p = u ++ p' := by
  induction base, p using skipHead.induct with
  | case1 base p ih =>
    obtain ⟨u, hu, rfl⟩ := ih h
    exact ⟨_, hu.after ['.'], rfl⟩
  | case2 base p ih =>
    rw [skipHead] at h
    obtain ⟨b, -, h⟩ := bind_ok h
    obtain ⟨u, hu, rfl⟩ := ih b h
    exact ⟨_, hu.after ['.', '.'], rfl⟩
  | case3 base p hhere hparent =>
    rw [skipHead] at h
    · cases h
      exact ⟨[], isBase_nil, rfl⟩
    · exact hhere
    · exact hparent

/-- **The first loop** leaves a path that leads to the same place. -/
theorem skipHead_ok (hbase : Head pre base) (h : skipHead size base p = .ok (base', p')) :
    Head pre base' ∧ Fresh p' ∧
      ∀ cwd, walk (resolve cwd base') p' = walk (resolve cwd base) p := by
  induction base, p using skipHead.induct with
  | case1 base p ih =>
    obtain ⟨hhead, hfresh, hwalk⟩ := ih hbase h
    exact ⟨hhead, hfresh, fun cwd => (hwalk cwd).trans (walk_here _ _).symm⟩
  | case2 base p ih =>
    rw [skipHead] at h
    obtain ⟨b, hb, h⟩ := bind_ok h
    obtain rfl := putParent_ok hb
    obtain ⟨hhead, hfresh, hwalk⟩ := ih _ hbase.parent h
    refine ⟨hhead, hfresh, fun cwd => (hwalk cwd).trans ?_⟩
    rw [resolve_parent hbase.isBase, walk_parent]
  | case3 base p hhere hparent =>
    rw [skipHead] at h
    · cases h
      refine ⟨hbase, ⟨?_, ?_⟩, fun _ => rfl⟩
      · rintro ⟨t, rfl⟩
        exact hhere t rfl
      · rintro ⟨t, rfl⟩
        exact hparent t rfl
    · exact hhere
    · exact hparent

theorem Fresh.left {y : List Char} (h : Fresh (x ++ y)) : Fresh x :=
  ⟨fun hx => h.1 (hx.trans (List.prefix_append x y)),
    fun hx => h.2 (hx.trans (List.prefix_append x y))⟩

theorem Plain.left {y : List Char} (h : Plain (x ++ y)) : Plain x := by
  intro u v heq hu
  obtain ⟨hfresh, hslash⟩ := h u (v ++ y) (by rw [heq, List.append_assoc]) hu
  exact ⟨hfresh.left, fun hv => hslash (hv.trans (List.prefix_append v y))⟩

/-- The first character is not a slash. -/
theorem Plain.head_ne (h : Plain x) : x.head? ≠ some '/' := by
  intro hslash
  obtain ⟨t, ht⟩ := List.head?_eq_some_iff.1 hslash
  exact (h [] x rfl isBase_nil).2 ⟨t, ht.symm⟩

/-- A component of a normal path that a slash ends is a name. -/
theorem Plain.isName {u n : List Char} (h : Plain (u ++ (n ++ ['/']))) (hu : IsBase u)
    (hn : '/' ∉ n) : IsName n := by
  obtain ⟨⟨hhere, hparent⟩, hslash⟩ := h u _ rfl hu
  refine ⟨hn, ?_, ?_, ?_⟩ <;> rintro rfl
  · exact hslash (List.prefix_refl _)
  · exact hhere (List.prefix_refl _)
  · exact hparent (List.prefix_refl _)

theorem backUp_cases (cur : List Char) :
    (∃ n, cur.reverse = (backUp cur).reverse ++ '/' :: n ∧ '/' ∉ n) ∨
      ('/' ∉ cur.reverse ∧ backUp cur = []) := by
  induction cur with
  | nil => exact .inr ⟨List.not_mem_nil, rfl⟩
  | cons c cur ih =>
    by_cases hc : c = '/'
    · subst hc
      exact .inl ⟨[], List.reverse_cons, List.not_mem_nil⟩
    · have hback : backUp (c :: cur) = backUp cur := by
        rw [backUp, List.dropWhile_cons_of_pos (by simpa using hc)]
        rfl
      rw [hback, List.reverse_cons]
      rcases ih with ⟨n, heq, hn⟩ | ⟨hn, hnil⟩
      · refine .inl ⟨n ++ [c], ?_, ?_⟩
        · conv_lhs => rw [heq, List.append_assoc, List.cons_append]
        · simpa [hn] using Ne.symm hc
      · exact .inr ⟨by simpa [hn] using Ne.symm hc, hnil⟩

/-- **Back over a name**: this is where its parent leads. -/
theorem Done.backUp {cur : List Char} (h : Done cur.reverse) (hne : cur ≠ []) :
    Done (backUp cur).reverse ∧
      ∀ d, walk d (Paths.backUp cur).reverse = (walk d cur.reverse).dropLast := by
  have hplain : Plain (cur.reverse ++ ['/']) :=
    h.resolve_left fun hnil => hne (List.reverse_eq_nil_iff.1 hnil)
  rcases backUp_cases cur with ⟨n, heq, hn⟩ | ⟨hn, hnil⟩
  · have hsplit : (Paths.backUp cur).reverse ++ '/' :: n ++ ['/'] =
        (Paths.backUp cur).reverse ++ ['/'] ++ (n ++ ['/']) := by simp
    rw [heq, hsplit] at hplain
    have hname : IsName n := hplain.isName (isBase_append _) hn
    refine ⟨.inr hplain.left, fun d => ?_⟩
    rw [heq, walk_append_slash, walk_name _ hname, List.dropLast_concat]
  · have hname : IsName cur.reverse := Plain.isName (u := []) hplain isBase_nil hn
    rw [hnil]
    refine ⟨.inl rfl, fun d => ?_⟩
    rw [walk_name d hname, List.dropLast_concat, List.reverse_nil, walk_nil]

/-- The loop takes whole components. -/
theorem skipSlash_split (h : skipSlash size o p = .ok (o', p')) : ∃ u, IsBase u ∧ p = u ++ p' := by
  induction o, p using skipSlash.induct with
  | case1 o p ih =>
    obtain ⟨u, hu, rfl⟩ := ih h
    exact ⟨_, hu.after [], rfl⟩
  | case2 o p ih =>
    obtain ⟨u, hu, rfl⟩ := ih h
    exact ⟨_, hu.after ['.'], rfl⟩
  | case3 o p hcur ih =>
    rw [skipSlash, if_pos hcur] at h
    obtain ⟨u, hu, rfl⟩ := ih h
    exact ⟨_, hu.after ['.', '.'], rfl⟩
  | case4 o p hcur hroot ih =>
    rw [skipSlash, if_neg hcur, if_pos hroot] at h
    obtain ⟨u, hu, rfl⟩ := ih h
    exact ⟨_, hu.after ['.', '.'], rfl⟩
  | case5 o p hcur hroot ih =>
    rw [skipSlash, if_neg hcur, if_neg hroot] at h
    obtain ⟨b, -, h⟩ := bind_ok h
    obtain ⟨u, hu, rfl⟩ := ih b h
    exact ⟨_, hu.after ['.', '.'], rfl⟩
  | case6 o p hslash hhere hparent =>
    rw [skipSlash] at h
    · cases h
      exact ⟨[], isBase_nil, rfl⟩
    · exact hslash
    · exact hhere
    · exact hparent

theorem length_skipSlash_le (h : skipSlash size o p = .ok (o', p')) : p'.length ≤ p.length := by
  obtain ⟨u, -, rfl⟩ := skipSlash_split h
  rw [List.length_append]
  exact Nat.le_add_left _ _

/-- **The loop behind a slash** leaves a path that leads to the same place. -/
theorem skipSlash_ok (hbase : Head pre o.base) (hdone : Done o.cur.reverse)
    (h : skipSlash size o p = .ok (o', p')) :
    Head pre o'.base ∧ Done o'.cur.reverse ∧ Fresh p' ∧ ¬ ['/'] <+: p' ∧
      ∀ cwd, walk (walk (resolve cwd o'.base) o'.cur.reverse) p' =
        walk (walk (resolve cwd o.base) o.cur.reverse) p := by
  induction o, p using skipSlash.induct with
  | case1 o p ih =>
    obtain ⟨hhead, hdone', hfresh, hslash, hwalk⟩ := ih hbase hdone h
    exact ⟨hhead, hdone', hfresh, hslash, fun cwd => (hwalk cwd).trans (walk_slash _ _).symm⟩
  | case2 o p ih =>
    obtain ⟨hhead, hdone', hfresh, hslash, hwalk⟩ := ih hbase hdone h
    exact ⟨hhead, hdone', hfresh, hslash, fun cwd => (hwalk cwd).trans (walk_here _ _).symm⟩
  | case3 o p hcur ih =>
    obtain ⟨hback, hdrop⟩ := hdone.backUp hcur
    rw [skipSlash, if_pos hcur] at h
    obtain ⟨hhead, hdone', hfresh, hslash, hwalk⟩ := ih hbase hback h
    refine ⟨hhead, hdone', hfresh, hslash, fun cwd => ?_⟩
    rw [hwalk cwd, walk_parent, hdrop]
  | case4 o p hcur hroot ih =>
    -- the parent of the root is the root
    rw [skipSlash, if_neg hcur, if_pos hroot] at h
    obtain ⟨hhead, hdone', hfresh, hslash, hwalk⟩ := ih hbase hdone h
    refine ⟨hhead, hdone', hfresh, hslash, fun cwd => ?_⟩
    rw [hwalk cwd, walk_parent, not_not.1 hcur, hroot]
    rfl
  | case5 o p hcur hroot ih =>
    rw [skipSlash, if_neg hcur, if_neg hroot] at h
    obtain ⟨b, hb, h⟩ := bind_ok h
    obtain rfl := putParent_ok hb
    obtain ⟨hhead, hdone', hfresh, hslash, hwalk⟩ := ih _ hbase.parent (.inl rfl) h
    refine ⟨hhead, hdone', hfresh, hslash, fun cwd => ?_⟩
    rw [hwalk cwd, walk_parent, not_not.1 hcur, List.reverse_nil, walk_nil, walk_nil,
      resolve_parent hbase.isBase]
  | case6 o p hslash hhere hparent =>
    rw [skipSlash] at h
    · cases h
      refine ⟨hbase, hdone, ⟨?_, ?_⟩, ?_, fun _ => rfl⟩
      · rintro ⟨t, rfl⟩
        exact hhere t rfl
      · rintro ⟨t, rfl⟩
        exact hparent t rfl
      · rintro ⟨t, rfl⟩
        exact hslash t rfl
    · exact hslash
    · exact hhere
    · exact hparent

/-! ## The second loop -/

/-- A pattern that ends with its only slash is found up to the slash. -/
theorem prefix_of_slash {w v : List Char} (hw : '/' ∉ w.dropLast) (h : w <+: v ++ '/' :: p) :
    w <+: v ++ ['/'] := by
  by_cases hlen : w.length ≤ (v ++ ['/']).length
  · refine List.prefix_of_prefix_length_le h ?_ hlen
    exact ⟨p, by rw [List.append_assoc]; rfl⟩
  · exfalso
    have hbegin : v ++ ['/'] <+: w := by
      refine List.prefix_of_prefix_length_le ?_ h (Nat.le_of_not_le hlen)
      exact ⟨p, by rw [List.append_assoc]; rfl⟩
    obtain ⟨t, rfl⟩ := hbegin
    have hne : t ≠ [] := by
      rintro rfl
      rw [List.append_nil] at hlen
      exact hlen (Nat.le_refl _)
    rw [List.dropLast_append_of_ne_nil hne] at hw
    exact hw (by simp)

theorem Fresh.of_slash {v : List Char} (h : Fresh (v ++ ['/'])) : Fresh (v ++ '/' :: p) :=
  ⟨fun hv => h.1 (prefix_of_slash (by decide) hv), fun hv => h.2 (prefix_of_slash (by decide) hv)⟩

theorem begun_nil (h : Fresh p) : Begun [] p := by
  intro u v heq hu
  obtain ⟨rfl, rfl⟩ := List.append_eq_nil_iff.1 heq.symm
  exact ⟨h, fun hne => absurd rfl hne⟩

theorem Begun.plain (h : Begun x []) : Plain x := by
  intro u v heq hu
  obtain ⟨hfresh, hslash⟩ := h u v heq hu
  rw [List.append_nil] at hfresh hslash
  refine ⟨hfresh, fun hv => hslash ?_ hv⟩
  rintro rfl
  obtain ⟨rfl, rfl⟩ := List.append_eq_nil_iff.1 heq.symm
  exact absurd hv (by decide)

/-- Before the last character that has been written, or behind it. -/
theorem eq_append_concat {u v : List Char} {c : Char} (h : x ++ [c] = u ++ v) :
    (u = x ++ [c] ∧ v = []) ∨ ∃ v', v = v' ++ [c] ∧ x = u ++ v' := by
  rcases List.eq_nil_or_concat' v with rfl | ⟨v', c', rfl⟩
  · exact .inl ⟨by rw [h, List.append_nil], rfl⟩
  · rw [← List.append_assoc] at h
    obtain ⟨hx, hc⟩ := List.append_inj' h rfl
    exact .inr ⟨v', by rw [List.cons.inj hc |>.1], hx⟩

theorem Begun.push {c : Char} (hc : c ≠ '/') (h : Begun x (c :: p)) : Begun (x ++ [c]) p := by
  intro u v heq hu
  rcases eq_append_concat heq with ⟨rfl, rfl⟩ | ⟨v, rfl, rfl⟩
  · exfalso
    rcases hu with hnil | ⟨b, hb⟩
    · exact absurd hnil (by simp)
    · obtain ⟨-, hlast⟩ := List.append_inj' hb rfl
      exact hc (List.cons.inj hlast).1
  · obtain ⟨hfresh, hslash⟩ := h u v rfl hu
    rw [List.append_assoc]
    refine ⟨hfresh, fun _ => ?_⟩
    by_cases hne : u ++ v = []
    · rw [(List.append_eq_nil_iff.1 hne).2]
      rintro ⟨t, ht⟩
      exact hc (List.cons.inj ht).1.symm
    · exact hslash hne

theorem Begun.done (h : Begun x ('/' :: p)) : Done x := by
  by_cases hx : x = []
  · exact .inl hx
  · refine .inr fun u v heq hu => ?_
    rcases eq_append_concat heq with ⟨rfl, rfl⟩ | ⟨v, rfl, rfl⟩
    · exact ⟨⟨by decide, by decide⟩, by decide⟩
    · obtain ⟨hfresh, hslash⟩ := h u v rfl hu
      rw [List.append_cons] at hfresh hslash
      exact ⟨hfresh.left, fun hv => hslash hx (hv.trans (List.prefix_append _ _))⟩

theorem Done.begun (h : Done x) (hx : x ≠ []) (hfresh : Fresh p) (hslash : ¬ ['/'] <+: p) :
    Begun (x ++ ['/']) p := by
  intro u v heq hu
  obtain ⟨hv, hv'⟩ := h.resolve_left hx u v heq hu
  rcases eq_append_concat heq with ⟨-, rfl⟩ | ⟨v, rfl, -⟩
  · exact ⟨hfresh, fun _ => hslash⟩
  · rw [List.append_assoc, List.singleton_append]
    exact ⟨hv.of_slash, fun _ hbegin => hv' (prefix_of_slash (by decide) hbegin)⟩

/-- **One round of the second loop**: at a slash it skips what is taken out, and writes a slash if
there is something before it; any other character is written. -/
theorem scan_round {c : Char} (h : scan size (fuel + 1) o (c :: p) = .ok o') :
    (c ≠ '/' ∧ scan size fuel ⟨o.base, c :: o.cur⟩ p = .ok o') ∨
    (c = '/' ∧ ∃ o₁ p₁, skipSlash size o p = .ok (o₁, p₁) ∧
      (o₁.cur ≠ [] ∧ scan size fuel ⟨o₁.base, '/' :: o₁.cur⟩ p₁ = .ok o' ∨
        o₁.cur = [] ∧ scan size fuel o₁ p₁ = .ok o')) := by
  rw [scan] at h
  split_ifs at h with hc
  · obtain ⟨⟨o₁, p₁⟩, hskip, h⟩ := bind_ok h
    obtain ⟨o₂, hput, h⟩ := bind_ok h
    refine .inr ⟨hc, o₁, p₁, hskip, ?_⟩
    unfold putSlash at hput
    split_ifs at hput with hroom hcur <;> cases hput
    · exact .inl ⟨hcur, h⟩
    · exact .inr ⟨not_not.1 hcur, h⟩
  · obtain ⟨o₁, hput, h⟩ := bind_ok h
    unfold putChar at hput
    split_ifs at hput
    cases hput
    exact .inl ⟨hc, h⟩

/-- **The second loop** leads to the same place. -/
theorem scan_ok (hbase : Head pre o.base) (hbegun : Begun o.cur.reverse p) (hfuel : p.length ≤ fuel)
    (h : scan size fuel o p = .ok o') :
    Head pre o'.base ∧ Plain o'.cur.reverse ∧
      ∀ cwd, walk (resolve cwd o'.base) o'.cur.reverse =
        walk (resolve cwd o.base) (o.cur.reverse ++ p) := by
  induction fuel generalizing o p with
  | zero =>
    obtain rfl := List.eq_nil_of_length_eq_zero (Nat.le_zero.1 hfuel)
    cases h
    exact ⟨hbase, hbegun.plain, fun cwd => by rw [List.append_nil]⟩
  | succ fuel ih =>
    cases p with
    | nil =>
      cases h
      exact ⟨hbase, hbegun.plain, fun cwd => by rw [List.append_nil]⟩
    | cons c p =>
      rw [List.length_cons, Nat.add_le_add_iff_right] at hfuel
      rcases scan_round h with ⟨hc, h⟩ | ⟨rfl, o₁, p₁, hskip, hput⟩
      · have hnext : Begun (c :: o.cur).reverse p := by
          rw [List.reverse_cons]
          exact hbegun.push hc
        obtain ⟨hhead, hplain, hwalk⟩ := ih (o := ⟨o.base, c :: o.cur⟩) hbase hnext hfuel h
        refine ⟨hhead, hplain, fun cwd => ?_⟩
        rw [hwalk, List.reverse_cons, List.append_assoc, List.singleton_append]
      · obtain ⟨hhead, hdone, hfresh, hslash, hwalk⟩ := skipSlash_ok hbase hbegun.done hskip
        have hlen := length_skipSlash_le hskip
        simp only [walk_append_slash]
        rcases hput with ⟨hcur, h⟩ | ⟨hcur, h⟩
        · have hne : o₁.cur.reverse ≠ [] := fun hnil => hcur (List.reverse_eq_nil_iff.1 hnil)
          have hnext : Begun ('/' :: o₁.cur).reverse p₁ := by
            rw [List.reverse_cons]
            exact hdone.begun hne hfresh hslash
          obtain ⟨hhead', hplain, hwalk'⟩ :=
            ih (o := ⟨o₁.base, '/' :: o₁.cur⟩) hhead hnext (by omega) h
          refine ⟨hhead', hplain, fun cwd => ?_⟩
          rw [hwalk', ← hwalk, List.reverse_cons, ← List.append_cons, walk_append_slash]
        · have hnext : Begun o₁.cur.reverse p₁ := by
            rw [hcur]
            exact begun_nil hfresh
          obtain ⟨hhead', hplain, hwalk'⟩ := ih hhead hnext (by omega) h
          refine ⟨hhead', hplain, fun cwd => ?_⟩
          rw [hwalk', ← hwalk, hcur, List.reverse_nil, List.nil_append, walk_nil]

/-! ## Room -/

theorem skipHead_of_lt (h : base.length + p.length < size) :
    ∃ s, skipHead size base p = .ok s ∧ s.1.length + s.2.length ≤ base.length + p.length := by
  induction base, p using skipHead.induct with
  | case1 base p ih =>
    simp only [List.length_cons] at h ⊢
    obtain ⟨s, hs, hlen⟩ := ih (by omega)
    exact ⟨s, hs, by omega⟩
  | case2 base p ih =>
    simp only [List.length_cons] at h ⊢
    have hlen : (base ++ ['.', '.', '/']).length = base.length + 3 := List.length_append
    obtain ⟨s, hs, hle⟩ := ih (base ++ ['.', '.', '/']) (by omega)
    refine ⟨s, ?_, by omega⟩
    rw [skipHead, putParent, if_neg (by omega)]
    exact hs
  | case3 base p hhere hparent =>
    refine ⟨(base, p), ?_, Nat.le_refl _⟩
    rw [skipHead]
    · exact hhere
    · exact hparent

theorem length_backUp_le (cur : List Char) : (backUp cur).length ≤ cur.length := by
  rcases backUp_cases cur with ⟨n, heq, -⟩ | ⟨-, hnil⟩
  · have := congrArg List.length heq
    rw [List.length_append, List.length_reverse, List.length_reverse] at this
    omega
  · rw [hnil]
    exact Nat.zero_le _

theorem skipSlash_of_lt (h : o.length + p.length < size) :
    ∃ s, skipSlash size o p = .ok s ∧ s.1.length + s.2.length ≤ o.length + p.length := by
  induction o, p using skipSlash.induct with
  | case1 o p ih =>
    simp only [List.length_cons] at h ⊢
    obtain ⟨s, hs, hlen⟩ := ih (by omega)
    exact ⟨s, hs, by omega⟩
  | case2 o p ih =>
    simp only [List.length_cons] at h ⊢
    obtain ⟨s, hs, hlen⟩ := ih (by omega)
    exact ⟨s, hs, by omega⟩
  | case3 o p hcur ih =>
    simp only [List.length_cons] at h ⊢
    have hback : Out.length ⟨o.base, backUp o.cur⟩ ≤ o.length :=
      Nat.add_le_add_left (length_backUp_le o.cur) _
    obtain ⟨s, hs, hlen⟩ := ih (by omega)
    rw [skipSlash, if_pos hcur]
    exact ⟨s, hs, by omega⟩
  | case4 o p hcur hroot ih =>
    simp only [List.length_cons] at h ⊢
    obtain ⟨s, hs, hlen⟩ := ih (by omega)
    rw [skipSlash, if_neg hcur, if_pos hroot]
    exact ⟨s, hs, by omega⟩
  | case5 o p hcur hroot ih =>
    simp only [List.length_cons] at h ⊢
    have hbase : o.length = o.base.length := by rw [Out.length, not_not.1 hcur]; rfl
    have hlen : Out.length ⟨o.base ++ ['.', '.', '/'], []⟩ = o.base.length + 3 :=
      List.length_append
    obtain ⟨s, hs, hle⟩ := ih (o.base ++ ['.', '.', '/']) (by omega)
    rw [skipSlash, if_neg hcur, if_neg hroot, putParent, if_neg (by omega)]
    exact ⟨s, hs, by omega⟩
  | case6 o p hslash hhere hparent =>
    refine ⟨(o, p), ?_, Nat.le_refl _⟩
    rw [skipSlash]
    · exact hslash
    · exact hhere
    · exact hparent

theorem scan_of_lt (h : o.length + p.length < size) :
    ∃ o', scan size fuel o p = .ok o' ∧ o'.length ≤ o.length + p.length := by
  induction fuel generalizing o p with
  | zero => exact ⟨o, by cases p <;> rfl, Nat.le_add_right _ _⟩
  | succ fuel ih =>
    cases p with
    | nil => exact ⟨o, rfl, Nat.le_refl _⟩
    | cons c p =>
      rw [List.length_cons] at h ⊢
      rw [scan]
      split_ifs
      · have hfit : o.length + p.length < size := by omega
        obtain ⟨⟨o₁, p₁⟩, hskip, hlen⟩ := skipSlash_of_lt hfit
        dsimp only at hlen
        have hput : ∃ o₂, putSlash size o₁ = .ok o₂ ∧ o₂.length ≤ o₁.length + 1 := by
          unfold putSlash
          rw [if_neg (by omega)]
          split_ifs
          · exact ⟨_, rfl, Nat.le_refl _⟩
          · exact ⟨_, rfl, Nat.le_succ _⟩
        obtain ⟨o₂, hput, hle⟩ := hput
        obtain ⟨o', hscan, hle'⟩ := ih (o := o₂) (p := p₁) (by omega)
        refine ⟨o', ?_, by omega⟩
        rw [hskip, Except.bind, hput]
        exact hscan
      · have hlen : Out.length ⟨o.base, c :: o.cur⟩ = o.length + 1 := rfl
        obtain ⟨o', hscan, hle⟩ := ih (o := ⟨o.base, c :: o.cur⟩) (p := p) (by omega)
        refine ⟨o', ?_, by omega⟩
        rw [putChar, if_neg (by omega)]
        exact hscan

/-- **A path that fits into the buffer** is normalized. -/
theorem normalizePathname_of_lt {path : List Char} (h : path.length < size) :
    ∃ r, normalizePathname path size = .ok r ∧ r.length ≤ path.length := by
  have hstart : ∃ s, (if path.head? = some '/' then (['/'], path.tail) else ([], path)) = s ∧
      s.1.length + s.2.length = path.length := by
    split_ifs with habs
    · obtain ⟨p, rfl⟩ : ∃ p, path = '/' :: p := List.head?_eq_some_iff.1 habs
      exact ⟨_, rfl, Nat.add_comm ..⟩
    · exact ⟨_, rfl, Nat.zero_add _⟩
  obtain ⟨s, hs, hlen⟩ := hstart
  obtain ⟨s₁, hskip, hlen₁⟩ := skipHead_of_lt (show s.1.length + s.2.length < size by omega)
  have hout : Out.length ⟨s₁.1, []⟩ = s₁.1.length := rfl
  have hfit : Out.length ⟨s₁.1, []⟩ + s₁.2.length < size := by omega
  obtain ⟨o, hscan, hle⟩ : ∃ o, scan size s₁.2.length ⟨s₁.1, []⟩ s₁.2 = .ok o ∧ _ :=
    scan_of_lt hfit
  have hroom : o.length ≤ path.length := by omega
  refine ⟨o.text, ?_, ?_⟩
  · unfold normalizePathname
    rw [hs]
    dsimp only
    rw [hskip, Except.bind, hscan, Except.bind, if_neg (by omega)]
  · rwa [Out.text, List.length_append, List.length_reverse]

/-! ## The last name -/

theorem scan_endsIn {n : List Char} (hn : '/' ∉ n) (hend : EndsIn n (o.cur.reverse ++ p))
    (hfuel : p.length ≤ fuel) (h : scan size fuel o p = .ok o') : EndsIn n o'.cur.reverse := by
  induction fuel generalizing o p with
  | zero =>
    obtain rfl := List.eq_nil_of_length_eq_zero (Nat.le_zero.1 hfuel)
    cases h
    rwa [List.append_nil] at hend
  | succ fuel ih =>
    cases p with
    | nil =>
      cases h
      rwa [List.append_nil] at hend
    | cons c p =>
      rw [List.length_cons, Nat.add_le_add_iff_right] at hfuel
      rcases scan_round h with ⟨-, h⟩ | ⟨rfl, o₁, p₁, hskip, hput⟩
      · refine ih (o := ⟨o.base, c :: o.cur⟩) ?_ hfuel h
        rwa [List.reverse_cons, ← List.append_cons]
      · have hlen := length_skipSlash_le hskip
        obtain ⟨u, hu, rfl⟩ := skipSlash_split hskip
        have hend₁ : EndsIn n p₁ := (hend.behind hn).rest hn hu
        rcases hput with ⟨-, h⟩ | ⟨hcur, h⟩
        · refine ih (o := ⟨o₁.base, '/' :: o₁.cur⟩) ?_ (by omega) h
          rw [List.reverse_cons, ← List.append_cons]
          exact hend₁.append _
        · refine ih ?_ (by omega) h
          rwa [hcur]

/-- The root of an absolute path. -/
def rootOf (path : List Char) : List Char := if path.head? = some '/' then ['/'] else []

/-- **What `normalize_pathname` returns** fits into the buffer, is normal, ends in the same name and
leads to the same place from every directory. -/
theorem normalizePathname_ok {path r : List Char} (h : normalizePathname path size = .ok r) :
    r.length < size ∧ (∀ cwd, resolve cwd r = resolve cwd path) ∧
      ∃ base x, r = base ++ x ∧ Head (rootOf path) base ∧ Plain x ∧
        ∀ n, '/' ∉ n → EndsIn n path → EndsIn n x := by
  have hstart : ∃ base p, Head (rootOf path) base ∧
      (∀ cwd, walk (resolve cwd base) p = resolve cwd path) ∧
      (∀ n, '/' ∉ n → EndsIn n path → EndsIn n p) ∧
      (if path.head? = some '/' then (['/'], path.tail) else ([], path)) = (base, p) := by
    unfold rootOf
    split_ifs with habs
    · obtain ⟨p, rfl⟩ : ∃ p, path = '/' :: p := List.head?_eq_some_iff.1 habs
      refine ⟨_, _, head_root, fun cwd => ?_, fun n hn hend => hend.behind hn (u := []), rfl⟩
      have hroot : resolve cwd ('/' :: p) = walk [] ('/' :: p) := if_pos habs
      rw [hroot, walk_slash]
      rfl
    · refine ⟨_, _, head_nil, fun cwd => ?_, fun _ _ hend => hend, rfl⟩
      have hrel : resolve cwd path = walk cwd path := if_neg habs
      rw [hrel]
      rfl
  obtain ⟨base, p, hbase, hwalk, hend, heq⟩ := hstart
  unfold normalizePathname at h
  rw [heq] at h
  obtain ⟨⟨base₁, p₁⟩, hskip, h⟩ := bind_ok h
  obtain ⟨o, hscan, h⟩ := bind_ok h
  split_ifs at h with hroom
  obtain ⟨hbase₁, hfresh, hwalk₁⟩ := skipHead_ok hbase hskip
  obtain ⟨u, hu, hsplit⟩ := skipHead_split hskip
  obtain ⟨hhead, hplain, hwalk₂⟩ :=
    scan_ok (o := ⟨base₁, []⟩) hbase₁ (begun_nil hfresh) (Nat.le_refl _) hscan
  obtain rfl : o.text = r := Except.ok.inj h
  refine ⟨?_, fun cwd => ?_, _, _, rfl, hhead, hplain, fun n hn hpath => ?_⟩
  · rw [Out.text, List.length_append, List.length_reverse]
    exact Nat.lt_of_not_le hroom
  · rw [Out.text, resolve_base hhead.isBase (fun _ => hplain.head_ne), hwalk₂, List.reverse_nil,
      List.nil_append, hwalk₁, hwalk]
  · have hp : EndsIn n (u ++ p₁) := hsplit ▸ hend n hn hpath
    exact scan_endsIn (o := ⟨base₁, []⟩) hn (hp.rest hn hu) (Nat.le_refl _) hscan

theorem normal_of_ok {path r : List Char} (h : normalizePathname path size = .ok r) : Normal r := by
  obtain ⟨-, -, base, x, heq, hhead, hplain, -⟩ := normalizePathname_ok h
  exact ⟨_, base, x, heq, hhead, hplain⟩

/-! ## Normal paths are left as they are -/

theorem skipHead_fresh (h : Fresh p) (size : ℕ) (base : List Char) :
    skipHead size base p = .ok (base, p) := by
  rw [skipHead]
  · rintro t rfl
    exact h.1 ⟨t, rfl⟩
  · rintro t rfl
    exact h.2 ⟨t, rfl⟩

theorem skipHead_parents (h : Fresh p) {k : ℕ} (hroom : k = 0 ∨ base.length + 3 * k < size) :
    skipHead size base (parents k ++ p) = .ok (base ++ parents k, p) := by
  induction k generalizing base with
  | zero =>
    rw [parents, List.replicate_zero, List.flatten_nil, List.append_nil]
    exact skipHead_fresh h size base
  | succ k ih =>
    have hlen : base.length + 3 * (k + 1) < size := hroom.resolve_left k.succ_ne_zero
    have hput : putParent size base = .ok (base ++ parent) := by
      rw [putParent, if_neg (by omega)]
      rfl
    have hfirst : parents (k + 1) = parent ++ parents k := rfl
    rw [hfirst, List.append_assoc]
    show ((putParent size base).bind fun base => skipHead size base (parents k ++ p)) = _
    rw [hput, Except.bind, ih, List.append_assoc]
    refine .inr ?_
    rw [List.length_append]
    show base.length + 3 + 3 * k < size
    omega

theorem skipSlash_fresh (h : Fresh p) (hslash : ¬ ['/'] <+: p) (size : ℕ) (o : Out) :
    skipSlash size o p = .ok (o, p) := by
  rw [skipSlash]
  · rintro t rfl
    exact hslash ⟨t, rfl⟩
  · rintro t rfl
    exact h.1 ⟨t, rfl⟩
  · rintro t rfl
    exact h.2 ⟨t, rfl⟩

theorem scan_plain (hplain : Plain (o.cur.reverse ++ p)) (hroom : o.length ≤ size)
    (hfuel : p.length ≤ fuel) :
    scan size fuel o p =
      if o.length + p.length ≤ size then .ok ⟨o.base, p.reverse ++ o.cur⟩ else .error .erange := by
  induction fuel generalizing o p with
  | zero =>
    obtain rfl := List.eq_nil_of_length_eq_zero (Nat.le_zero.1 hfuel)
    rw [List.length_nil, Nat.add_zero o.length, if_pos hroom]
    rfl
  | succ fuel ih =>
    cases p with
    | nil =>
      rw [List.length_nil, Nat.add_zero o.length, if_pos hroom]
      rfl
    | cons c p =>
      rw [List.length_cons, Nat.add_le_add_iff_right] at hfuel
      by_cases hfull : size ≤ o.length
      · rw [if_neg (by rw [List.length_cons]; omega), scan]
        split_ifs with hc
        · subst hc
          obtain ⟨hfresh, hslash⟩ := hplain (o.cur.reverse ++ ['/']) p (by simp) (isBase_append _)
          rw [skipSlash_fresh hfresh hslash, Except.bind, putSlash, if_pos hfull]
          rfl
        · rw [putChar, if_pos hfull]
          rfl
      · have hput : scan size (fuel + 1) o (c :: p) = scan size fuel ⟨o.base, c :: o.cur⟩ p := by
          rw [scan]
          split_ifs with hc
          · subst hc
            obtain ⟨hfresh, hslash⟩ := hplain (o.cur.reverse ++ ['/']) p (by simp) (isBase_append _)
            have hcur : o.cur ≠ [] := by
              intro hnil
              rw [hnil] at hplain
              exact (hplain [] _ rfl isBase_nil).2 ⟨p, rfl⟩
            rw [skipSlash_fresh hfresh hslash, Except.bind, putSlash, if_neg hfull, if_pos hcur]
            rfl
          · rw [putChar, if_neg hfull]
            rfl
        have hlen : Out.length ⟨o.base, c :: o.cur⟩ = o.length + 1 := rfl
        rw [hput, ih (o := ⟨o.base, c :: o.cur⟩), hlen, List.length_cons, List.reverse_cons,
          List.append_assoc, Nat.add_assoc, Nat.add_comm 1]
        · rfl
        · rwa [List.reverse_cons, List.append_assoc]
        · omega
        · exact hfuel

theorem skipHead_full {k : ℕ} (hk : k ≠ 0) (hfull : size ≤ base.length + 3 * k) :
    skipHead size base (parents k ++ p) = .error .erange := by
  induction k generalizing base with
  | zero => exact absurd rfl hk
  | succ k ih =>
    show ((putParent size base).bind fun base => skipHead size base (parents k ++ p)) = _
    unfold putParent
    split_ifs with hroom
    · rfl
    · show skipHead size (base ++ ['.', '.', '/']) (parents k ++ p) = _
      have hlen : (base ++ ['.', '.', '/']).length = base.length + 3 := List.length_append
      refine ih ?_ ?_
      · rintro rfl
        omega
      · omega

theorem length_parents (k : ℕ) : (parents k).length = 3 * k := by
  induction k with
  | zero => rfl
  | succ k ih =>
    rw [parents_succ, List.length_append, ih]
    rfl

/-- Where the loops begin on a normal path. -/
theorem start_eq (hpre : pre = [] ∨ pre = ['/']) (hplain : Plain x) (k : ℕ) :
    (if (pre ++ parents k ++ x).head? = some '/' then
      (['/'], (pre ++ parents k ++ x).tail) else ([], pre ++ parents k ++ x)) =
        (pre, parents k ++ x) := by
  rcases hpre with rfl | rfl
  · refine if_neg ?_
    cases k with
    | zero => exact hplain.head_ne
    | succ k => exact fun hdot => absurd (Option.some.inj hdot) (by decide)
  · rfl

theorem length_out (pre : List Char) (k : ℕ) (cur : List Char) :
    Out.length ⟨pre ++ parents k, cur⟩ = pre.length + 3 * k + cur.length := by
  rw [Out.length, List.length_append, length_parents]

/-- **A normal path**: it is returned if it is shorter than the buffer; a path of the same length
is not refused, and its NUL is written behind the buffer. -/
theorem normalizePathname_normal (hbase : Head pre base) (hplain : Plain x) (hsize : 0 < size) :
    normalizePathname (base ++ x) size =
      if (base ++ x).length < size then .ok (base ++ x)
      else if (base ++ x).length = size ∧ (x ≠ [] ∨ base = ['/']) then .error .overrun
      else .error .erange := by
  obtain ⟨hpre, k, rfl⟩ := hbase
  have hfresh : Fresh x := (hplain [] x rfl isBase_nil).1
  have hpos : pre.length ≤ 1 := by rcases hpre with rfl | rfl <;> decide
  have hlen : (pre ++ parents k ++ x).length = pre.length + 3 * k + x.length := by
    rw [List.length_append, List.length_append, length_parents]
  unfold normalizePathname
  rw [start_eq hpre hplain k]
  dsimp only
  by_cases hroom : k = 0 ∨ pre.length + 3 * k < size
  · have hout : Out.length ⟨pre ++ parents k, []⟩ = pre.length + 3 * k := length_out pre k []
    have hle : pre.length + 3 * k ≤ size := by omega
    rw [skipHead_parents hfresh hroom, Except.bind,
      scan_plain (o := ⟨pre ++ parents k, []⟩) hplain (by rw [hout]; exact hle) (Nat.le_refl _),
      hout, hlen]
    by_cases hfit : pre.length + 3 * k + x.length ≤ size
    · have hend : Out.length ⟨pre ++ parents k, x.reverse ++ []⟩ =
          pre.length + 3 * k + x.length := by
        rw [length_out, List.append_nil, List.length_reverse]
      rw [if_pos hfit, Except.bind, hend]
      by_cases hlt : pre.length + 3 * k + x.length < size
      · rw [if_neg (Nat.not_le.2 hlt), if_pos hlt, Out.text, List.append_nil, List.reverse_reverse]
      · rw [if_pos (Nat.not_lt.1 hlt), if_neg hlt, if_pos]
        refine ⟨by omega, ?_⟩
        by_contra hnone
        rw [not_or, not_not] at hnone
        obtain ⟨rfl, hnoroot⟩ := hnone
        rcases hroom with rfl | hroom
        · rcases hpre with rfl | rfl
          · simp at hfit hlt
            omega
          · exact hnoroot rfl
        · simp at hlt
          omega
    · rw [if_neg hfit, if_neg (by omega), if_neg (by omega)]
      rfl
  · rw [not_or, Nat.not_lt] at hroom
    rw [skipHead_full hroom.1 hroom.2, hlen, if_neg (by omega), if_neg]
    · rfl
    · rintro ⟨heq, hx | hroot⟩
      · have := List.length_pos_iff.2 hx
        omega
      · have := congrArg List.length hroot
        rw [List.length_append, length_parents] at this
        have hone : (['/'] : List Char).length = 1 := rfl
        omega

theorem Normal.eq_ok {path : List Char} (h : Normal path) (hsize : path.length < size) :
    normalizePathname path size = .ok path := by
  obtain ⟨pre, base, x, rfl, hbase, hplain⟩ := h
  rw [normalizePathname_normal hbase hplain (Nat.zero_lt_of_lt hsize), if_pos hsize]

/-- A normal path is taken as it is or not at all. -/
theorem Normal.ok_iff {path : List Char} (h : Normal path) :
    (∃ r, normalizePathname path size = .ok r) ↔ path.length < size := by
  refine ⟨fun ⟨r, hr⟩ => ?_, fun hlt => ⟨path, h.eq_ok hlt⟩⟩
  have hsize : 0 < size := Nat.zero_lt_of_lt (normalizePathname_ok hr).1
  obtain ⟨pre, base, x, rfl, hbase, hplain⟩ := h
  rw [normalizePathname_normal hbase hplain hsize] at hr
  split_ifs at hr with hlt
  exact hlt

/-- **`normalize_pathname` keeps what a path means** and does all there is to do: what it returns
leads to the same place from every directory, has nothing left to take out, and is returned again
by every buffer it fits in. -/
theorem normalized_path_kept {path r : List Char} (h : normalizePathname path size = .ok r) :
    Normal r ∧ (∀ cwd, resolve cwd r = resolve cwd path) ∧
      ∀ size', normalizePathname r size' = .ok r ↔ r.length < size' := by
  have hnormal := normal_of_ok h
  refine ⟨hnormal, (normalizePathname_ok h).2.1, fun size' => ⟨fun hagain => ?_, hnormal.eq_ok⟩⟩
  exact (normalizePathname_ok hagain).1

theorem normalized_path_kept_abc : Normal "../a/c".toList ∧
    (∀ cwd, resolve cwd "../a/c".toList = resolve cwd ".././a//b/../c".toList) ∧
      ∀ size', normalizePathname "../a/c".toList size' = .ok "../a/c".toList ↔ 6 < size' :=
  normalized_path_kept (by decide +kernel : normalizePathname ".././a//b/../c".toList 20 = _)

/-- Parents are no more than parents. -/
theorem Plain.eq_nil (h : Plain x) {j k : ℕ} (heq : parents j ++ x = parents k) : x = [] := by
  have hlen := congrArg List.length heq
  rw [List.length_append, length_parents, length_parents] at hlen
  by_cases hjk : k ≤ j
  · exact List.eq_nil_of_length_eq_zero (by omega)
  · exfalso
    obtain ⟨m, rfl⟩ : ∃ m, k = j + (m + 1) := ⟨k - j - 1, by omega⟩
    have hsplit : parents (j + (m + 1)) = parents j ++ (parent ++ parents m) := by
      rw [parents, List.replicate_add, List.flatten_append]
      rfl
    rw [hsplit, List.append_cancel_left_eq] at heq
    exact (h [] x rfl isBase_nil).1.2 ⟨parents m, heq.symm⟩

theorem Head.eq_nil (hbase : Head pre base) (hplain : Plain x) {k : ℕ} (hk : 0 < k)
    (h : base ++ x = parents k ∨ base ++ x = '/' :: parents k) : x = [] := by
  obtain ⟨m, rfl⟩ := Nat.exists_eq_succ_of_ne_zero (Nat.ne_of_gt hk)
  obtain ⟨rfl | rfl, j, rfl⟩ := hbase <;> rcases h with h | h
  · exact hplain.eq_nil h
  · exfalso
    cases j with
    | zero => exact hplain.head_ne (congrArg List.head? h)
    | succ j => exact absurd (List.cons.inj h).1 (by decide)
  · exact absurd (List.cons.inj h).1 (by decide)
  · exact hplain.eq_nil (List.cons.inj h).2

/-- **The NUL behind the buffer**: of the normal paths, those that are as long as the buffer are
not refused, unless they are nothing but parents. -/
theorem normalizePathname_overruns_iff {path : List Char} (h : Normal path) (hsize : 0 < size) :
    normalizePathname path size = .error .overrun ↔
      path.length = size ∧ ¬ ∃ k, 0 < k ∧ (path = parents k ∨ path = '/' :: parents k) := by
  obtain ⟨pre, base, x, rfl, hbase, hplain⟩ := h
  rw [normalizePathname_normal hbase hplain hsize]
  refine ⟨fun hover => ?_, ?_⟩
  · split_ifs at hover with hlt hmore
    · obtain ⟨heq, hshape⟩ := hmore
      refine ⟨heq, ?_⟩
      rintro ⟨k, hk, hparents⟩
      obtain rfl := hbase.eq_nil hplain hk hparents
      obtain rfl := hshape.resolve_left (not_not.2 rfl)
      rcases hparents with hparents | hparents <;>
        have hlen := congrArg List.length hparents <;>
        simp only [List.append_nil, List.length_cons, List.length_nil, length_parents] at hlen <;>
        omega
    · cases hover
  · rintro ⟨heq, hshape⟩
    rw [if_neg (by omega), if_pos]
    refine ⟨heq, ?_⟩
    by_contra hnone
    rw [not_or, not_not] at hnone
    obtain ⟨rfl, hroot⟩ := hnone
    obtain ⟨hpre, k, rfl⟩ := hbase
    rw [List.append_nil] at heq hshape
    refine hshape ⟨k, Nat.pos_of_ne_zero ?_, hpre.imp (congrArg (· ++ parents k))
      (congrArg (· ++ parents k))⟩
    rintro rfl
    rcases hpre with rfl | rfl
    · exact absurd heq (Nat.ne_of_lt hsize)
    · exact hroot rfl

theorem normalizePathname_overruns_iff_ab :
    normalizePathname "a/b".toList 3 = .error .overrun ↔ "a/b".toList.length = 3 ∧
      ¬ ∃ k, 0 < k ∧ ("a/b".toList = parents k ∨ "a/b".toList = '/' :: parents k) :=
  normalizePathname_overruns_iff (normal_of_ok (by decide +kernel :
    normalizePathname "a/b".toList 20 = .ok "a/b".toList)) (by decide)

end

end EmacsConfig.Global.Paths
