import Mathlib.Data.List.Basic
import Mathlib.Data.List.Induction

/-!
# Path names

A directory is the list of the names that lead to it from the root. `walk` goes along the
components of a path: an empty one and `.` stay where they are, `..` goes to the parent, any
other one is a name.
-/

namespace EmacsConfig.Pathnames

abbrev Dir := List (List Char)

def enter (d : Dir) (c : List Char) : Dir :=
  if c = [] ∨ c = ['.'] then d
  else if c = ['.', '.'] then d.dropLast
  else d ++ [c]

/-- `c` is what has been read of a component. -/
def walkFrom (d : Dir) : List Char → List Char → Dir
  | c, [] => enter d c
  | c, x :: p => if x = '/' then walkFrom (enter d c) [] p else walkFrom d (c ++ [x]) p

def walk (d : Dir) (p : List Char) : Dir := walkFrom d [] p

/-- Where a path leads that is used in the directory `cwd`. -/
def resolve (cwd : Dir) (p : List Char) : Dir :=
  if p.head? = some '/' then walk [] p else walk cwd p

/-- A component that is a name. -/
structure IsName (n : List Char) : Prop where
  noSlash : '/' ∉ n
  ne_nil : n ≠ []
  ne_here : n ≠ ['.']
  ne_parent : n ≠ ['.', '.']

section

variable {d cwd : Dir} {p n base : List Char}

@[simp] theorem walk_nil (d : Dir) : walk d [] = d := by
  rw [walk, walkFrom, enter, if_pos (.inl rfl)]

theorem walkFrom_append_slash (d : Dir) (c u v : List Char) :
    walkFrom d c (u ++ '/' :: v) = walk (walkFrom d c u) v := by
  induction u generalizing d c with
  | nil => exact if_pos rfl
  | cons x u ih =>
    rw [List.cons_append, walkFrom, walkFrom]
    split_ifs
    · exact ih _ _
    · exact ih _ _

/-- **A path goes on behind a slash** from where it leads before. -/
theorem walk_append_slash (d : Dir) (u v : List Char) :
    walk d (u ++ '/' :: v) = walk (walk d u) v :=
  walkFrom_append_slash d [] u v

theorem walk_slash (d : Dir) (p : List Char) : walk d ('/' :: p) = walk d p := by
  have := walk_append_slash d [] p
  rwa [List.nil_append, walk_nil] at this

theorem walk_here (d : Dir) (p : List Char) : walk d ('.' :: '/' :: p) = walk d p :=
  walk_append_slash d ['.'] p

theorem walk_parent (d : Dir) (p : List Char) :
    walk d ('.' :: '.' :: '/' :: p) = walk d.dropLast p :=
  walk_append_slash d ['.', '.'] p

theorem walkFrom_component (d : Dir) {c : List Char} (h : '/' ∉ p) :
    walkFrom d c p = enter d (c ++ p) := by
  induction p generalizing c with
  | nil => rw [walkFrom, List.append_nil]
  | cons x p ih =>
    rw [List.mem_cons, not_or] at h
    rw [walkFrom, if_neg (Ne.symm h.1), ih h.2, List.append_assoc, List.singleton_append]

theorem walk_name (d : Dir) (h : IsName n) : walk d n = d ++ [n] := by
  rw [walk, walkFrom_component d h.noSlash, List.nil_append, enter, if_neg, if_neg h.ne_parent]
  rintro (hnil | hhere)
  · exact h.ne_nil hnil
  · exact h.ne_here hhere

/-! ## The beginning of a path -/

/-- Nothing, or what ends in a slash. -/
def IsBase (base : List Char) : Prop := base = [] ∨ ∃ b, base = b ++ ['/']

theorem isBase_nil : IsBase [] := .inl rfl

theorem isBase_append (b : List Char) : IsBase (b ++ ['/']) := .inr ⟨b, rfl⟩

theorem IsBase.after (h : IsBase base) (b : List Char) : IsBase (b ++ '/' :: base) := by
  rcases h with rfl | ⟨base, rfl⟩
  · exact isBase_append b
  · exact .inr ⟨b ++ '/' :: base, by simp⟩

/-- **A path goes on** from where its beginning leads. -/
theorem resolve_base (h : IsBase base) (hrel : base = [] → p.head? ≠ some '/') (cwd : Dir) :
    resolve cwd (base ++ p) = walk (resolve cwd base) p := by
  rcases h with rfl | ⟨b, rfl⟩
  · rw [List.nil_append, resolve, if_neg (hrel rfl)]
    rfl
  · have hhead : (b ++ ['/'] ++ p).head? = (b ++ ['/']).head? := by
      rw [List.head?_append_of_ne_nil]
      exact List.append_ne_nil_of_right_ne_nil b (List.cons_ne_nil _ _)
    have hwalk (d : Dir) : walk d (b ++ ['/'] ++ p) = walk (walk d (b ++ ['/'])) p := by
      rw [List.append_assoc, List.singleton_append, walk_append_slash, walk_append_slash, walk_nil]
    unfold resolve
    rw [hhead]
    split_ifs
    · exact hwalk []
    · exact hwalk cwd

theorem resolve_parent (h : IsBase base) (cwd : Dir) :
    resolve cwd (base ++ ['.', '.', '/']) = (resolve cwd base).dropLast := by
  rw [resolve_base h (fun _ => by decide), walk_parent, walk_nil]

/-! ## The end of a path -/

/-- The last component is `n`. -/
def EndsIn (n p : List Char) : Prop := ∃ u, p = u ++ n ∧ IsBase u

theorem EndsIn.append (h : EndsIn n p) (u : List Char) : EndsIn n (u ++ '/' :: p) := by
  obtain ⟨b, rfl, hb⟩ := h
  exact ⟨u ++ '/' :: b, by simp, hb.after u⟩

theorem EndsIn.behind (hn : '/' ∉ n) {u : List Char} (h : EndsIn n (u ++ '/' :: p)) :
    EndsIn n p := by
  obtain ⟨b, heq, hb⟩ := h
  rw [List.append_cons] at heq
  rcases List.append_eq_append_iff.1 heq with ⟨v, rfl, rfl⟩ | ⟨v, hu, rfl⟩
  · refine ⟨v, rfl, ?_⟩
    rcases List.eq_nil_or_concat' v with rfl | ⟨v, c, rfl⟩
    · exact isBase_nil
    · rcases hb with hnil | ⟨b, hb⟩
      · exact absurd hnil (by simp)
      · rw [← List.append_assoc] at hb
        rw [(List.append_inj' hb rfl).2]
        exact isBase_append v
  · rcases List.eq_nil_or_concat' v with rfl | ⟨v, c, rfl⟩
    · exact ⟨[], rfl, isBase_nil⟩
    · rw [← List.append_assoc] at hu
      have hc := (List.append_inj' hu rfl).2
      rw [← hc] at hn
      exact absurd (by simp) hn

theorem EndsIn.rest (hn : '/' ∉ n) {u : List Char} (hu : IsBase u) (h : EndsIn n (u ++ p)) :
    EndsIn n p := by
  rcases hu with rfl | ⟨u, rfl⟩
  · exact h
  · rw [← List.append_cons] at h
    exact h.behind hn

/-! ## Texts of directories -/

/-- `/usr/src` for the directory `usr`, `src`; nothing for the root. -/
def absText (d : Dir) : List Char := d.flatMap ('/' :: ·)

def Names (d : Dir) : Prop := ∀ n ∈ d, IsName n

theorem absText_append (d e : Dir) : absText (d ++ e) = absText d ++ absText e :=
  List.flatMap_append

theorem absText_concat (d : Dir) (n : List Char) : absText (d ++ [n]) = absText d ++ '/' :: n := by
  rw [absText_append, absText, absText, List.flatMap_cons, List.flatMap_nil, List.append_nil]

theorem Names.dropLast (h : Names d) : Names d.dropLast :=
  fun n hn => h n ((List.dropLast_sublist d).subset hn)

theorem Names.walkFrom (hd : Names d) {c : List Char} (hc : '/' ∉ c) (p : List Char) :
    Names (walkFrom d c p) := by
  have henter (d : Dir) (c : List Char) (hd : Names d) (hc : '/' ∉ c) : Names (enter d c) := by
    unfold enter
    split_ifs with hstay hparent
    · exact hd
    · exact hd.dropLast
    · rw [not_or] at hstay
      intro n hn
      rcases List.mem_append.1 hn with hn | hn
      · exact hd n hn
      · rw [List.mem_singleton.1 hn]
        exact ⟨hc, hstay.1, hstay.2, hparent⟩
  induction p generalizing d c with
  | nil => exact henter d c hd hc
  | cons x p ih =>
    rw [Pathnames.walkFrom]
    split_ifs with hx
    · exact ih (henter d c hd hc) List.not_mem_nil
    · exact ih hd (by simpa [hc] using Ne.symm hx)

/-- A path leads to a directory of names. -/
theorem Names.resolve (hd : Names d) (p : List Char) : Names (resolve d p) := by
  unfold Pathnames.resolve walk
  split_ifs
  · exact Names.walkFrom (fun n hn => absurd hn List.not_mem_nil) List.not_mem_nil p
  · exact hd.walkFrom List.not_mem_nil p

/-- Texts before a slash. -/
theorem cut_unique {r m a b : List Char} (hr : '/' ∉ r) (hm : '/' ∉ m)
    (hb : b.head? = some '/' ∨ b = []) (h : r ++ '/' :: a = m ++ b) : r = m ∧ '/' :: a = b := by
  rcases List.append_eq_append_iff.1 h with ⟨v, rfl, hv⟩ | ⟨v, rfl, rfl⟩
  · cases v with
    | nil => exact ⟨(List.append_nil r).symm, hv⟩
    | cons c v =>
      rw [List.cons_append, List.cons.injEq] at hv
      rw [← hv.1] at hm
      exact absurd (by simp) hm
  · cases v with
    | nil => exact ⟨List.append_nil m, rfl⟩
    | cons c v =>
      rcases hb with hb | hb
      · rw [List.cons_append, List.head?_cons, Option.some.injEq] at hb
        rw [hb] at hr
        exact absurd (by simp) hr
      · cases hb

theorem absText_head {d : Dir} (hd : d ≠ []) : (absText d).head? = some '/' := by
  obtain ⟨n, d, rfl⟩ := List.exists_cons_of_ne_nil hd
  rfl

theorem head_absText (d : Dir) : (absText d).head? = some '/' ∨ absText d = [] := by
  cases d with
  | nil => exact .inr rfl
  | cons n d => exact .inl rfl

/-- **What begins with the text of a directory and a slash** is a name below it. -/
theorem absText_isPrefix_iff {r t : Dir} (hr : Names r) (ht : Names t) {a : List Char} :
    absText r ++ '/' :: a = absText t ↔ ∃ n e, t = r ++ n :: e ∧ a = n ++ absText e := by
  induction r generalizing t with
  | nil =>
    cases t with
    | nil => simp [absText]
    | cons m t =>
      have htext : absText (m :: t) = '/' :: (m ++ absText t) := rfl
      rw [htext]
      constructor
      · intro h
        exact ⟨m, t, rfl, (List.cons.inj h).2⟩
      · rintro ⟨n, e, heq, rfl⟩
        obtain ⟨rfl, rfl⟩ := List.cons.inj heq
        rfl
  | cons n r ih =>
    cases t with
    | nil => simp [absText]
    | cons m t =>
      have hr' : Names r := fun x hx => hr x (List.mem_cons_of_mem _ hx)
      have ht' : Names t := fun x hx => ht x (List.mem_cons_of_mem _ hx)
      have htext (x : List Char) (d : Dir) : absText (x :: d) = '/' :: (x ++ absText d) := rfl
      rw [htext, htext, List.cons_append, List.append_assoc]
      constructor
      · intro h
        obtain ⟨b, hb⟩ : ∃ b, absText r ++ '/' :: a = '/' :: b := by
          rcases head_absText r with hhead | hnil
          · obtain ⟨b, hb⟩ := List.head?_eq_some_iff.1 hhead
            exact ⟨b ++ '/' :: a, by rw [hb]; rfl⟩
          · exact ⟨a, by rw [hnil]; rfl⟩
        have h' := (List.cons.inj h).2
        rw [hb] at h'
        obtain ⟨rfl, hrest⟩ := cut_unique (hr n List.mem_cons_self).noSlash
          (ht m List.mem_cons_self).noSlash (head_absText t) h'
        rw [← hb] at hrest
        obtain ⟨x, e, rfl, ha⟩ := (ih hr' ht').1 hrest
        exact ⟨x, e, rfl, ha⟩
      · rintro ⟨x, e, heq, ha⟩
        obtain ⟨rfl, rfl⟩ := List.cons.inj heq
        rw [(ih hr' ht').2 ⟨x, e, rfl, ha⟩]

theorem absText_injective {r t : Dir} (hr : Names r) (ht : Names t) (h : absText r = absText t) :
    r = t := by
  rcases List.eq_nil_or_concat' r with rfl | ⟨r, n, rfl⟩
  · cases t with
    | nil => rfl
    | cons m t => cases h
  · rw [absText_concat] at h
    obtain ⟨x, e, rfl, hn⟩ := (absText_isPrefix_iff (fun y hy => hr y (by simp [hy])) ht).1 h
    have hname : '/' ∉ n := (hr n (by simp)).noSlash
    cases e with
    | nil => rw [hn, absText, List.flatMap_nil, List.append_nil]
    | cons y e =>
      rw [hn] at hname
      exact absurd (by simp [absText]) hname

/-- **The text of a directory** leads to it. -/
theorem walk_absText (d : Dir) {e : Dir} (he : Names e) : walk d (absText e) = d ++ e := by
  induction e using List.reverseRecOn with
  | nil => rw [List.append_nil]; exact walk_nil d
  | append_singleton e n ih =>
    have hn : IsName n := he n (by simp)
    rw [absText_concat, walk_append_slash, ih fun m hm => he m (by simp [hm]), walk_name _ hn,
      List.append_assoc]

end

end EmacsConfig.Pathnames
