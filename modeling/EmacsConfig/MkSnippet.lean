import EmacsConfig.Lib.Fields
import Mathlib.Data.List.DropRight

/-!
# Snippets from prototypes

`mk_snippet` takes a prototype apart at parentheses and commas and writes a
snippet that calls the function. `mkSnippet_iff` gives the layout on which the
snippet is the prototype: parameters without parentheses and without trailing
blanks (the substitution that should remove them looks for a dollar sign), and
few of the blanks that C allows.
-/

namespace EmacsConfig.MkSnippet

open EmacsConfig.Fields

/-- `\s` -/
def isSpace (c : Char) : Bool := c ∈ [' ', '\t', '\n', '\x0b', '\x0c', '\r']

/-- `[\(\),]` -/
def isSeparator (c : Char) : Bool := c ∈ ['(', ')', ',']

/-- `split(/[\(\),]/, s)`: empty fields at the end are left out. -/
def splitFields (s : List Char) : List (List Char) :=
  (s.splitOnP isSeparator).rdropWhile (· = [])

/-- The position of the last `c`, -1 if there is none. -/
def rindex (s : List Char) (c : Char) : Int := s.length - 1 - (afterLast c s).length

/-- The position of the first `c`, -1 if there is none. -/
def index (s : List Char) (c : Char) : Int := if c ∈ s then s.idxOf c else -1

/-- `s/\s+\$//g`, with the blanks read just before: blanks go together with a
dollar sign that follows them. -/
def dropBlankDollar : List Char → List Char → List Char
  | blanks, [] => blanks
  | blanks, c :: s =>
    if isSpace c then dropBlankDollar (blanks ++ [c]) s
    else if c = '$' ∧ blanks ≠ [] then dropBlankDollar [] s
    else blanks ++ c :: dropBlankDollar [] s

/-- `s/^\s+|\s+\$//g` -/
def trim (arg : List Char) : List Char := dropBlankDollar [] (arg.dropWhile isSpace)

/-- `%d` -/
def decimal (n : Nat) : List Char := Nat.toDigits 10 n

def field (num : Nat) (s : List Char) : List Char :=
  ['$', '{'] ++ decimal num ++ ':' :: s ++ ['}']

def argFields : Nat → List (List Char) → List Char
  | _, [] => []
  | num, arg :: args => field num (trim arg) ++ [',', ' '] ++ argFields (num + 1) args

structure SnippetFile where
  name : List Char
  contents : List Char
  deriving DecidableEq, Repr

def header (funcName : List Char) : List Char :=
  "#name : ".toList ++ funcName ++ " ()\n# --\n".toList

def writeSnippetFile (ret funcName : List Char) (args : List (List Char)) : SnippetFile :=
  let out := '(' :: argFields 1 args
  let out := out.take (rindex out ',').toNat ++ [')', ';']
  let cast := if 0 < index ret '*' then '(' :: field (args.length + 1) ret ++ [')'] else []
  ⟨funcName ++ ['x'], header funcName ++ (cast ++ funcName ++ out)⟩

/-- The snippet file for a line of the function list, if one is written. -/
def mkSnippet (line : List Char) : Option SnippetFile :=
  match splitFields line with
  | [] => none
  | first :: list =>
    let pos := if rindex first '*' < 0 then rindex first ' ' else rindex first '*'
    let funcName := first.drop (pos + 1).toNat
    let ret := first.take (pos + 1).toNat
    if funcName.length < 2 then none
    else if ret.length < 2 then none
    else
      let args := if list.getLast? = some [';'] then list.dropLast else list
      if args = [] then none else some (writeSnippetFile ret funcName args)

/-! ## Prototypes -/

def isIdent (c : Char) : Bool := c.isAlphanum || c = '_'

/-- Parentheses match, and commas are between them. -/
def balanced : Nat → List Char → Bool
  | depth, [] => depth = 0
  | depth, '(' :: s => balanced (depth + 1) s
  | 0, ')' :: _ => false
  | depth + 1, ')' :: s => balanced depth s
  | depth, ',' :: s => 0 < depth && balanced depth s
  | depth, _ :: s => balanced depth s

/-- A parameter declaration with the blanks around it. -/
structure Param where
  lead : List Char
  core : List Char
  trail : List Char
  lead_blank : ∀ c ∈ lead, isSpace c
  trail_blank : ∀ c ∈ trail, isSpace c
  core_ne : core ≠ []
  core_first : ∀ c ∈ core.head?, ¬ isSpace c
  core_last : ∀ c ∈ core.getLast?, ¬ isSpace c
  core_balanced : balanced 0 core

def Param.text (q : Param) : List Char := q.lead ++ q.core ++ q.trail

/-- A prototype with the blanks C allows in it. -/
structure Prototype where
  lead : List Char
  returnType : List Char
  gap1 : List Char
  name : List Char
  gap2 : List Char
  params : List Param
  gap3 : List Char
  tail : List Char
  blank : ∀ c ∈ lead ++ gap1 ++ gap2 ++ gap3 ++ tail, isSpace c
  returnType_plain : ∀ c ∈ returnType, ¬ isSeparator c
  returnType_ne : returnType ≠ []
  returnType_first : ∀ c ∈ returnType.head?, ¬ isSpace c ∧ c ≠ '*'
  returnType_last : ∀ c ∈ returnType.getLast?, ¬ isSpace c
  /-- Only a star needs no blank before the name. -/
  gap1_ne : gap1 = [] → returnType.getLast? = some '*'
  name_ident : ∀ c ∈ name, isIdent c
  name_first : ∀ c ∈ name.head?, ¬ c.isDigit
  name_length : 2 ≤ name.length
  params_ne : params ≠ []

namespace Prototype

def line (p : Prototype) : List Char :=
  p.lead ++ p.returnType ++ p.gap1 ++ p.name ++ p.gap2 ++
    '(' :: ([','].intercalate (p.params.map Param.text) ++ ')' :: (p.gap3 ++ ';' :: p.tail))

/-- The snippet that stands for the prototype: a field for each parameter, and a
cast to a pointer type. -/
def snippet (p : Prototype) : SnippetFile :=
  let fields := p.params.mapIdx fun i q => field (i + 1) q.core
  let cast :=
    if '*' ∈ p.returnType then '(' :: field (p.params.length + 1) p.returnType ++ [')'] else []
  ⟨p.name ++ ['x'],
    header p.name ++ (cast ++ p.name ++ '(' :: ([',', ' '].intercalate fields ++ [')', ';']))⟩

end Prototype

/-- A blank right before a dollar sign. -/
def blankDollar : Bool → List Char → Bool
  | _, [] => false
  | afterBlank, c :: s => (afterBlank && c = '$') || blankDollar (isSpace c) s

/-- The layout `mk_snippet` handles. -/
def Prototype.Regular (p : Prototype) : Prop :=
  p.gap2 = [] ∧ p.gap3 = [] ∧ p.tail = [] ∧
    (if '*' ∈ p.returnType then p.lead = [] ∧ p.gap1 = [] else p.gap1.getLast? = some ' ') ∧
    ∀ q ∈ p.params,
      q.trail = [] ∧ (∀ c ∈ q.core, ¬ isSeparator c) ∧ blankDollar false q.core = false

/-! ## Characters -/

theorem isSpace_plain {c : Char} (h : isSpace c) :
    ¬ isSeparator c ∧ c ≠ '*' ∧ c ≠ ';' ∧ c ≠ '$' ∧ ¬ isIdent c := by
  simp only [isSpace, decide_eq_true_eq, List.mem_cons, List.not_mem_nil, or_false] at h
  rcases h with rfl | rfl | rfl | rfl | rfl | rfl <;> decide

theorem isIdent_plain {c : Char} (h : isIdent c) : ¬ isSeparator c ∧ ¬ isSpace c ∧ c ≠ '*' := by
  refine ⟨fun hsep => ?_, fun hspace => (isSpace_plain hspace).2.2.2.2 h, ?_⟩
  · simp only [isSeparator, decide_eq_true_eq, List.mem_cons, List.not_mem_nil, or_false] at hsep
    rcases hsep with rfl | rfl | rfl <;> revert h <;> decide
  · rintro rfl
    revert h
    decide

theorem decimal_plain {n : Nat} {c : Char} (h : c ∈ decimal n) : ¬ isSeparator c := by
  have hdigit : c.isDigit := Nat.isDigit_of_mem_toDigits (by decide) (by decide) h
  intro hsep
  simp only [isSeparator, decide_eq_true_eq, List.mem_cons, List.not_mem_nil, or_false] at hsep
  rcases hsep with rfl | rfl | rfl <;> revert hdigit <;> decide

theorem field_plain {num : Nat} {s : List Char} (hs : ∀ c ∈ s, ¬ isSeparator c) :
    ∀ c ∈ field num s, ¬ isSeparator c := by
  intro c hc
  simp only [field, List.mem_append, List.mem_cons, List.not_mem_nil, or_false] at hc
  rcases hc with ((((rfl | rfl) | hc) | rfl | hc) | rfl)
  · decide
  · decide
  · exact decimal_plain hc
  · decide
  · exact hs c hc
  · decide

theorem field_injective {num : Nat} {s s' : List Char} (h : field num s = field num s') :
    s = s' := by
  simpa [field] using h

/-! ## Trimming -/

/-- Nothing goes but blanks with a dollar sign. -/
theorem dropBlankDollar_of_not {blanks s : List Char}
    (h : blankDollar (!blanks.isEmpty) s = false) :
    dropBlankDollar blanks s = blanks ++ s := by
  induction s generalizing blanks with
  | nil => simp [dropBlankDollar]
  | cons c s ih =>
    simp only [blankDollar, Bool.or_eq_false_iff] at h
    rw [dropBlankDollar]
    split
    · next hc =>
      have hne : (!(blanks ++ [c]).isEmpty) = true := by cases blanks <;> rfl
      rw [ih (by rw [hne]; simpa [hc] using h.2)]
      simp
    · next hc =>
      have hdollar : ¬ (c = '$' ∧ blanks ≠ []) := by
        rintro ⟨rfl, hne⟩
        simp [hne] at h
      rw [if_neg hdollar, ih (by simpa [hc] using h.2)]
      rfl

theorem length_dropBlankDollar (blanks s : List Char) :
    (dropBlankDollar blanks s).length ≤ blanks.length + s.length := by
  induction s generalizing blanks with
  | nil => simp [dropBlankDollar]
  | cons c s ih =>
    have h1 := ih (blanks ++ [c])
    have h2 := ih []
    rw [List.length_append] at h1
    rw [dropBlankDollar]
    split_ifs <;> simp at h1 h2 ⊢ <;> omega

theorem dropBlankDollar_eq_iff {blanks s : List Char} :
    dropBlankDollar blanks s = blanks ++ s ↔ blankDollar (!blanks.isEmpty) s = false := by
  refine ⟨fun h => ?_, dropBlankDollar_of_not⟩
  induction s generalizing blanks with
  | nil => rfl
  | cons c s ih =>
    rw [dropBlankDollar] at h
    rw [blankDollar, Bool.or_eq_false_iff]
    split at h
    · next hc =>
      have hdollar : c ≠ '$' := (isSpace_plain hc).2.2.2.1
      have hne : (!(blanks ++ [c]).isEmpty) = true := by cases blanks <;> rfl
      have hrest := ih (by rw [h]; simp)
      rw [hne] at hrest
      exact ⟨by simp [hdollar], by rw [hc]; exact hrest⟩
    · next hc =>
      split at h
      · -- the dollar sign and the blanks are gone
        have hlen := length_dropBlankDollar [] s
        rw [h] at hlen
        simp at hlen
        omega
      · next hdollar =>
        have htail : dropBlankDollar [] s = [] ++ s := by simpa using h
        refine ⟨?_, by simpa [hc] using ih htail⟩
        by_cases hd : c = '$' <;> simp_all

/-- Blanks at the end stay. -/
theorem dropBlankDollar_append {t : List Char} (ht : ∀ c ∈ t, isSpace c) (blanks s : List Char) :
    dropBlankDollar blanks (s ++ t) = dropBlankDollar blanks s ++ t := by
  induction s generalizing blanks with
  | nil =>
    have hnone : blankDollar (!blanks.isEmpty) t = false := by
      generalize (!blanks.isEmpty) = b
      induction t generalizing b with
      | nil => rfl
      | cons c t ih =>
        rw [List.forall_mem_cons] at ht
        have hdollar : c ≠ '$' := (isSpace_plain ht.1).2.2.2.1
        simp [blankDollar, hdollar, ih ht.2]
    rw [List.nil_append, dropBlankDollar_of_not hnone]
    rfl
  | cons c s ih =>
    rw [List.cons_append, dropBlankDollar, dropBlankDollar, ih, ih]
    split_ifs <;> simp

theorem trim_text (q : Param) : trim q.text = dropBlankDollar [] q.core ++ q.trail := by
  have hdrop : q.text.dropWhile isSpace = q.core ++ q.trail := by
    obtain ⟨c, s, hcore⟩ := List.exists_cons_of_ne_nil q.core_ne
    have hc : ¬ isSpace c := q.core_first c (by rw [hcore]; rfl)
    rw [Param.text, List.append_assoc, List.dropWhile_append_of_pos q.lead_blank, hcore]
    simp [hc]
  rw [trim, hdrop, dropBlankDollar_append q.trail_blank]

theorem trim_text_eq_iff (q : Param) :
    trim q.text = q.core ↔ q.trail = [] ∧ blankDollar false q.core = false := by
  rw [trim_text]
  constructor
  · intro h
    have htrail : q.trail = [] := by
      by_contra hne
      obtain ⟨t, c, ht⟩ : ∃ t c, q.trail = t ++ [c] :=
        ⟨_, _, (List.dropLast_append_getLast hne).symm⟩
      have hlast : q.core.getLast? = some c := by
        rw [← h, ht]
        simp
      exact q.core_last c hlast (q.trail_blank c (by rw [ht]; simp))
    rw [htrail, List.append_nil] at h
    exact ⟨htrail, dropBlankDollar_eq_iff.1 h⟩
  · rintro ⟨htrail, hdollar⟩
    rw [htrail, List.append_nil]
    exact dropBlankDollar_eq_iff.2 hdollar

/-! ## The printed call -/

/-- The fields of the arguments, numbered from `num`. -/
def fieldsFrom (num : Nat) (args : List (List Char)) : List (List Char) :=
  args.mapIdx fun i a => field (num + i) a

theorem fieldsFrom_cons (num : Nat) (a : List Char) (args : List (List Char)) :
    fieldsFrom num (a :: args) = field num a :: fieldsFrom (num + 1) args := by
  simp only [fieldsFrom, List.mapIdx_cons, Nat.add_zero]
  congr 2
  funext i b
  rw [Nat.add_right_comm, Nat.add_assoc]

theorem argFields_eq (num : Nat) {args : List (List Char)} (hargs : args ≠ []) :
    argFields num args =
      [',', ' '].intercalate (fieldsFrom num (args.map trim)) ++ [',', ' '] := by
  induction args generalizing num with
  | nil => exact absurd rfl hargs
  | cons a args ih =>
    rw [argFields, List.map_cons, fieldsFrom_cons]
    cases args with
    | nil => simp [argFields, fieldsFrom]
    | cons b args =>
      rw [ih (num + 1) (List.cons_ne_nil _ _), List.map_cons, fieldsFrom_cons,
        List.intercalate_cons_cons]
      simp

theorem rindex_append_cons (s : List Char) {c : Char} {t : List Char} (h : c ∉ t) :
    rindex (s ++ c :: t) c = s.length := by
  rw [rindex, afterLast_append_cons _ h, List.length_append, List.length_cons]
  omega

/-- What is written after the cast. -/
def call (name : List Char) (args : List (List Char)) : List Char :=
  name ++ '(' :: ([',', ' '].intercalate (fieldsFrom 1 args) ++ [')', ';'])

def castField (num : Nat) (ret : List Char) : List Char := '(' :: field num ret ++ [')']

theorem writeSnippetFile_eq (ret name : List Char) {args : List (List Char)} (hargs : args ≠ []) :
    writeSnippetFile ret name args =
      ⟨name ++ ['x'], header name ++
        ((if 0 < index ret '*' then castField (args.length + 1) ret else []) ++
          call name (args.map trim))⟩ := by
  have hout : ('(' :: argFields 1 args) =
      ('(' :: [',', ' '].intercalate (fieldsFrom 1 (args.map trim))) ++ ',' :: [' '] := by
    rw [argFields_eq 1 hargs]
    simp
  have hcut := rindex_append_cons ('(' :: [',', ' '].intercalate (fieldsFrom 1 (args.map trim)))
    (show ',' ∉ [' '] by decide)
  simp only [writeSnippetFile, hout, hcut, Int.toNat_natCast, List.take_left']
  simp [call, castField]

theorem Prototype.snippet_eq (p : Prototype) :
    p.snippet = ⟨p.name ++ ['x'], header p.name ++
      ((if '*' ∈ p.returnType then castField (p.params.length + 1) p.returnType else []) ++
        call p.name (p.params.map Param.core))⟩ := by
  have hfields : (p.params.mapIdx fun i q => field (i + 1) q.core) =
      fieldsFrom 1 (p.params.map Param.core) :=
    List.ext_getElem? fun i => by simp [fieldsFrom, Nat.add_comm, Function.comp_def]
  simp only [Prototype.snippet, hfields, call, castField, List.append_assoc]

/-! ## The split line -/

namespace Prototype

variable (p : Prototype)

/-- The return type and the name with the blanks around them. -/
def first : List Char := p.lead ++ p.returnType ++ p.gap1 ++ p.name ++ p.gap2

/-- What follows the closing parenthesis. -/
def last : List Char := p.gap3 ++ ';' :: p.tail

/-- What the parameters are split into. -/
def pieces : List (List Char) := p.params.flatMap fun q => q.text.splitOnP isSeparator

theorem lead_blank : ∀ c ∈ p.lead, isSpace c := fun c hc => p.blank c (by simp [hc])
theorem gap1_blank : ∀ c ∈ p.gap1, isSpace c := fun c hc => p.blank c (by simp [hc])
theorem gap2_blank : ∀ c ∈ p.gap2, isSpace c := fun c hc => p.blank c (by simp [hc])
theorem gap3_blank : ∀ c ∈ p.gap3, isSpace c := fun c hc => p.blank c (by simp [hc])
theorem tail_blank : ∀ c ∈ p.tail, isSpace c := fun c hc => p.blank c (by simp [hc])

theorem first_plain : ∀ c ∈ p.first, isSeparator c = false := by
  intro c hc
  simp only [first, List.mem_append] at hc
  rcases hc with (((hc | hc) | hc) | hc) | hc
  · simpa using (isSpace_plain (p.lead_blank c hc)).1
  · simpa using p.returnType_plain c hc
  · simpa using (isSpace_plain (p.gap1_blank c hc)).1
  · simpa using (isIdent_plain (p.name_ident c hc)).1
  · simpa using (isSpace_plain (p.gap2_blank c hc)).1

theorem last_plain : ∀ c ∈ p.last, isSeparator c = false := by
  intro c hc
  simp only [last, List.mem_append, List.mem_cons] at hc
  rcases hc with hc | rfl | hc
  · simpa using (isSpace_plain (p.gap3_blank c hc)).1
  · rfl
  · simpa using (isSpace_plain (p.tail_blank c hc)).1

end Prototype

theorem splitOnP_intercalate {xs : List (List Char)} (hxs : xs ≠ []) :
    ([','].intercalate xs).splitOnP isSeparator = xs.flatMap fun x => x.splitOnP isSeparator := by
  induction xs with
  | nil => exact absurd rfl hxs
  | cons x xs ih =>
    cases xs with
    | nil => simp
    | cons y xs =>
      rw [List.intercalate_cons_cons, List.append_assoc, List.singleton_append,
        List.splitOnP_append_cons _ _ (by decide), ih (List.cons_ne_nil _ _)]
      rfl

theorem Prototype.splitFields_line (p : Prototype) :
    splitFields p.line = p.first :: (p.pieces ++ [p.last]) := by
  have hparams : p.params.map Param.text ≠ [] := by simpa using p.params_ne
  have hline : p.line =
      p.first ++ '(' :: ([','].intercalate (p.params.map Param.text) ++ ')' :: p.last) := rfl
  have hpieces : ([','].intercalate (p.params.map Param.text)).splitOnP isSeparator = p.pieces := by
    rw [splitOnP_intercalate hparams, List.flatMap_map]
    rfl
  have hkeep : (p.first :: p.pieces ++ [p.last]).rdropWhile (· = []) =
      p.first :: p.pieces ++ [p.last] := by
    apply List.rdropWhile_concat_neg
    simp [Prototype.last]
  rw [splitFields, hline,
    List.splitOnP_append_cons_of_forall_mem p.first_plain '(' rfl,
    List.splitOnP_append_cons _ _ (by rfl), List.splitOnP_eq_singleton p.last_plain, hpieces,
    ← List.cons_append, hkeep]

/-! ## The name -/

/-- The character the code takes for the border between type and name. -/
def border (s : List Char) : Char := if '*' ∈ s then '*' else ' '

theorem rindex_neg_iff {s : List Char} {c : Char} : rindex s c < 0 ↔ c ∉ s := by
  constructor
  · intro h hc
    have hsuffix := afterLast_suffix (c := c) s
    have hle := hsuffix.length_le
    rw [rindex] at h
    have heq := hsuffix.eq_of_length (by omega)
    exact notMem_afterLast (c := c) s (heq.symm ▸ hc)
  · intro hc
    rw [rindex, afterLast_of_notMem hc]
    omega

theorem rindex_toNat (s : List Char) (c : Char) :
    (rindex s c + 1).toNat = s.length - (afterLast c s).length := by
  have := (afterLast_suffix (c := c) s).length_le
  rw [rindex]
  omega

/-- The name and what comes before it, as the code cuts them. -/
theorem mkSnippet_of_fields {line first : List Char} {list : List (List Char)}
    (h : splitFields line = first :: list) :
    mkSnippet line =
      if (afterLast (border first) first).length < 2 then none
      else if first.length - (afterLast (border first) first).length < 2 then none
      else
        let args := if list.getLast? = some [';'] then list.dropLast else list
        if args = [] then none
        else some (writeSnippetFile
          (first.take (first.length - (afterLast (border first) first).length))
          (afterLast (border first) first) args) := by
  have hpos : (if rindex first '*' < 0 then rindex first ' ' else rindex first '*') =
      rindex first (border first) := by
    unfold border
    by_cases hstar : '*' ∈ first
    · rw [if_pos hstar, if_neg (by rwa [rindex_neg_iff, not_not])]
    · rw [if_neg hstar, if_pos (rindex_neg_iff.2 hstar)]
  have hdrop := List.suffix_iff_eq_drop.1 (afterLast_suffix (c := border first) first)
  have hlen : (first.take (first.length - (afterLast (border first) first).length)).length =
      first.length - (afterLast (border first) first).length := by
    rw [List.length_take]
    omega
  unfold mkSnippet
  rw [h]
  dsimp only
  rw [hpos, rindex_toNat, ← hdrop, hlen]

namespace Prototype

variable (p : Prototype)

theorem star_mem_first : '*' ∈ p.first ↔ '*' ∈ p.returnType := by
  have hblank {s : List Char} (hs : ∀ c ∈ s, isSpace c) : '*' ∉ s :=
    fun h => (isSpace_plain (hs '*' h)).2.1 rfl
  have hname : '*' ∉ p.name := fun h => (isIdent_plain (p.name_ident '*' h)).2.2 rfl
  simp [first, hblank p.lead_blank, hblank p.gap1_blank, hblank p.gap2_blank, hname]

theorem border_first : border p.first = border p.returnType := by
  simp only [border, p.star_mem_first]

/-- Behind a star that is the last one there are only blanks and the name. -/
theorem afterLast_star {a b : List Char} (hret : p.returnType = a ++ '*' :: b) (hb : '*' ∉ b) :
    afterLast '*' p.first = b ++ p.gap1 ++ p.name ++ p.gap2 := by
  have hblank {s : List Char} (hs : ∀ c ∈ s, isSpace c) : '*' ∉ s :=
    fun h => (isSpace_plain (hs '*' h)).2.1 rfl
  have hname : '*' ∉ p.name := fun h => (isIdent_plain (p.name_ident '*' h)).2.2 rfl
  have hfirst : p.first = (p.lead ++ a) ++ '*' :: (b ++ p.gap1 ++ p.name ++ p.gap2) := by
    simp [first, hret]
  rw [hfirst]
  exact afterLast_append_cons _ (by simp [hb, hblank p.gap1_blank, hname, hblank p.gap2_blank])

theorem name_not_blank {c : Char} (hc : c ∈ p.name) : ¬ isSpace c :=
  (isIdent_plain (p.name_ident c hc)).2.1

/-- No blank after the name can be part of it. -/
theorem gap2_of_afterLast (h : afterLast ' ' p.first = p.name) : p.gap2 = [] := by
  by_contra hne
  obtain ⟨c, t, hgap⟩ := List.exists_cons_of_ne_nil hne
  by_cases hspace : ' ' ∈ p.gap2
  · -- the name would be cut out of the blanks
    rw [first, afterLast_append_of_mem _ hspace] at h
    obtain ⟨d, hd⟩ := List.exists_mem_of_length_pos (Nat.lt_of_lt_of_le Nat.two_pos p.name_length)
    have hmem : d ∈ p.gap2 := (afterLast_suffix p.gap2).subset (h.symm ▸ hd)
    exact p.name_not_blank hd (p.gap2_blank d hmem)
  · rw [first, afterLast_append_of_notMem _ hspace] at h
    have hc : c ∈ p.name := by
      rw [← h, hgap]
      simp
    exact p.name_not_blank hc (p.gap2_blank c (by rw [hgap]; simp))

/-- The code finds the name if no blank follows it, and if what is before it is
the star of a pointer type or a space. -/
theorem afterLast_eq_name_iff :
    afterLast (border p.first) p.first = p.name ↔
      p.gap2 = [] ∧ if '*' ∈ p.returnType then p.gap1 = [] else p.gap1.getLast? = some ' ' := by
  rw [border_first]
  by_cases hstar : '*' ∈ p.returnType
  · obtain ⟨a, b, hret, hb⟩ := eq_append_cons_last hstar
    rw [border, if_pos hstar, if_pos hstar, p.afterLast_star hret hb]
    constructor
    · intro h
      have hlen := congrArg List.length h
      simp only [List.length_append] at hlen
      exact ⟨List.length_eq_zero_iff.1 (by omega), List.length_eq_zero_iff.1 (by omega)⟩
    · rintro ⟨h2, h1⟩
      have hlast := p.gap1_ne h1
      rcases List.eq_nil_or_concat' b with rfl | ⟨b, x, rfl⟩
      · simp [h1, h2]
      · have hx : p.returnType = (a ++ '*' :: b) ++ [x] := by simpa using hret
        rw [hx, List.getLast?_concat] at hlast
        cases hlast
        exact absurd (List.mem_append_right b List.mem_cons_self) hb
  · rw [border, if_neg hstar, if_neg hstar]
    have hname : ' ' ∉ p.name := fun h => p.name_not_blank h rfl
    constructor
    · intro h
      have h2 := p.gap2_of_afterLast h
      rw [first, h2, List.append_nil, afterLast_append_of_notMem _ hname] at h
      have hnil : afterLast ' ' (p.lead ++ p.returnType ++ p.gap1) = [] := by simpa using h
      have hne : p.gap1 ≠ [] := fun hnil =>
        hstar (List.mem_of_getLast? (p.gap1_ne hnil))
      have hgap := List.dropLast_append_getLast hne
      refine ⟨h2, ?_⟩
      rw [List.getLast?_eq_some_getLast hne]
      by_contra hlast
      have hlast' : ' ' ∉ [p.gap1.getLast hne] := by simpa [eq_comm] using hlast
      rw [← hgap, ← List.append_assoc, afterLast_append_of_notMem _ hlast'] at hnil
      simp at hnil
    · rintro ⟨h2, h1⟩
      obtain ⟨g, hg⟩ := List.getLast?_eq_some_iff.1 h1
      have hfirst : p.first = (p.lead ++ p.returnType ++ g) ++ ' ' :: p.name := by
        simp [first, h2, hg]
      rw [hfirst, afterLast_append_cons _ hname]

end Prototype

/-! ## The snippet -/

/-- A parameter without parentheses has no separators. -/
theorem balanced_plain {s : List Char} (hs : balanced 0 s) (hopen : '(' ∉ s) :
    ∀ c ∈ s, ¬ isSeparator c := by
  induction s with
  | nil => nofun
  | cons c s ih =>
    rw [List.mem_cons, not_or] at hopen
    have hclose : c ≠ ')' := by
      rintro rfl
      simp [balanced] at hs
    have hcomma : c ≠ ',' := by
      rintro rfl
      simp [balanced] at hs
    have hrest : balanced 0 s := by
      unfold balanced at hs
      split at hs <;> simp_all
    rw [List.forall_mem_cons]
    exact ⟨by simp [isSeparator, Ne.symm hopen.1, hclose, hcomma], ih hrest hopen.2⟩

theorem splitOnP_plain (s : List Char) :
    ∀ t ∈ s.splitOnP isSeparator, ∀ c ∈ t, ¬ isSeparator c := by
  induction s with
  | nil => simp
  | cons d s ih =>
    obtain ⟨t, ts, hsplit⟩ := List.exists_cons_of_ne_nil (List.splitOnP_ne_nil isSeparator s)
    rw [hsplit, List.forall_mem_cons] at ih
    rw [List.splitOnP_cons_eq_if_modifyHead, hsplit]
    split
    · rw [List.forall_mem_cons, List.forall_mem_cons]
      exact ⟨nofun, ih⟩
    · next hd =>
      rw [List.modifyHead_cons, List.forall_mem_cons, List.forall_mem_cons]
      exact ⟨⟨hd, ih.1⟩, ih.2⟩

namespace Prototype

variable (p : Prototype)

theorem pieces_plain : ∀ s ∈ p.pieces, ∀ c ∈ s, ¬ isSeparator c := by
  intro s hs
  obtain ⟨q, -, hs⟩ := List.mem_flatMap.1 hs
  exact splitOnP_plain _ s hs

theorem pieces_ne : p.pieces ≠ [] := by
  obtain ⟨q, qs, hparams⟩ := List.exists_cons_of_ne_nil p.params_ne
  simp [pieces, hparams]

/-- Parameters without separators are not cut. -/
theorem pieces_of_plain (h : ∀ q ∈ p.params, ∀ c ∈ q.core, ¬ isSeparator c) :
    p.pieces = p.params.map Param.text := by
  unfold pieces
  generalize p.params = params at h ⊢
  induction params with
  | nil => rfl
  | cons q qs ih =>
    rw [List.forall_mem_cons] at h
    have htext : ∀ c ∈ q.text, isSeparator c = false := by
      intro c hc
      simp only [Param.text, List.mem_append] at hc
      rcases hc with (hc | hc) | hc
      · simpa using (isSpace_plain (q.lead_blank c hc)).1
      · simpa using h.1 c hc
      · simpa using (isSpace_plain (q.trail_blank c hc)).1
    rw [List.flatMap_cons, List.splitOnP_eq_singleton htext, ih h.2]
    rfl

/-- What is left for the arguments: the rest of the line unless it is a
semicolon. -/
def args : List (List Char) := if p.last = [';'] then p.pieces else p.pieces ++ [p.last]

theorem args_ne : p.args ≠ [] := by
  unfold args
  split
  · exact p.pieces_ne
  · simp

theorem last_eq_iff : p.last = [';'] ↔ p.gap3 = [] ∧ p.tail = [] := by
  constructor
  · intro h
    have hlen := congrArg List.length h
    simp only [last, List.length_append, List.length_cons, List.length_nil] at hlen
    exact ⟨List.length_eq_zero_iff.1 (by omega), List.length_eq_zero_iff.1 (by omega)⟩
  · rintro ⟨h3, ht⟩
    simp [last, h3, ht]

/-- What the code takes for the return type. -/
def ret : List Char := p.lead ++ p.returnType ++ p.gap1

theorem length_ret : 2 ≤ p.ret.length := by
  obtain ⟨c, t, hret⟩ := List.exists_cons_of_ne_nil p.returnType_ne
  have hc := p.returnType_first c (by rw [hret]; rfl)
  by_contra hlt
  simp only [ret, hret, List.length_append, List.length_cons] at hlt
  have hgap : p.gap1 = [] := List.length_eq_zero_iff.1 (by omega)
  have ht : t = [] := List.length_eq_zero_iff.1 (by omega)
  have hlast := p.gap1_ne hgap
  rw [hret, ht] at hlast
  exact hc.2 (by simpa using hlast)

theorem index_ret : 0 < index p.ret '*' ↔ '*' ∈ p.returnType := by
  have hlead : '*' ∉ p.lead := fun h => (isSpace_plain (p.lead_blank _ h)).2.1 rfl
  have hgap : '*' ∉ p.gap1 := fun h => (isSpace_plain (p.gap1_blank _ h)).2.1 rfl
  have hmem : '*' ∈ p.ret ↔ '*' ∈ p.returnType := by simp [ret, hlead, hgap]
  obtain ⟨c, t, hret, hc⟩ : ∃ c t, p.ret = c :: t ∧ c ≠ '*' := by
    cases hl : p.lead with
    | cons c t => 
      refine ⟨c, t ++ p.returnType ++ p.gap1, by simp [ret, hl], ?_⟩
      rintro rfl
      exact hlead (hl ▸ List.mem_cons_self)
    | nil =>
      obtain ⟨c, t, hr⟩ := List.exists_cons_of_ne_nil p.returnType_ne
      exact ⟨c, t ++ p.gap1, by simp [ret, hl, hr], (p.returnType_first c (by rw [hr]; rfl)).2⟩
  rw [← hmem, index]
  constructor
  · intro h
    by_contra hstar
    rw [if_neg hstar] at h
    omega
  · intro hstar
    rw [if_pos hstar, hret, List.idxOf_cons_ne _ hc]
    omega

theorem getLast?_fields : (p.pieces ++ [p.last]).getLast? = some [';'] ↔ p.last = [';'] := by
  simp

theorem mkSnippet_eq :
    mkSnippet p.line =
      if (afterLast (border p.first) p.first).length < 2 then none
      else if p.first.length - (afterLast (border p.first) p.first).length < 2 then none
      else some (writeSnippetFile
        (p.first.take (p.first.length - (afterLast (border p.first) p.first).length))
        (afterLast (border p.first) p.first) p.args) := by
  have hargs : (if (p.pieces ++ [p.last]).getLast? = some [';'] then
      (p.pieces ++ [p.last]).dropLast else p.pieces ++ [p.last]) = p.args := by
    simp only [p.getLast?_fields, List.dropLast_concat, args]
  rw [mkSnippet_of_fields p.splitFields_line]
  dsimp only
  rw [hargs, if_neg p.args_ne]

theorem mkSnippet_of_name (h : afterLast (border p.first) p.first = p.name) :
    mkSnippet p.line = some (writeSnippetFile p.ret p.name p.args) := by
  have hfirst : p.first = p.ret ++ p.name := by
    simp [first, ret, (p.afterLast_eq_name_iff.1 h).1]
  have hlen : p.first.length - p.name.length = p.ret.length := by
    rw [hfirst, List.length_append, Nat.add_sub_cancel]
  rw [mkSnippet_eq, h, hlen, if_neg (by have := p.name_length; omega),
    if_neg (by have := p.length_ret; omega), hfirst, List.take_left' rfl]

theorem name_of_mkSnippet (h : mkSnippet p.line = some p.snippet) :
    afterLast (border p.first) p.first = p.name := by
  rw [mkSnippet_eq] at h
  split_ifs at h
  rw [writeSnippetFile_eq _ _ p.args_ne, p.snippet_eq] at h
  simpa using congrArg SnippetFile.name (Option.some.inj h)

end Prototype

/-! ## Reading the call back -/

theorem notMem_of_plain {s : List Char} (h : ∀ c ∈ s, ¬ isSeparator c) : '(' ∉ s ∧ ',' ∉ s :=
  ⟨fun hc => h _ hc rfl, fun hc => h _ hc rfl⟩

theorem fieldsFrom_plain {args : List (List Char)} (hargs : ∀ a ∈ args, ∀ c ∈ a, ¬ isSeparator c)
    (num : Nat) : ∀ f ∈ fieldsFrom num args, ∀ c ∈ f, ¬ isSeparator c := by
  intro f hf
  obtain ⟨i, hi, rfl⟩ := List.mem_mapIdx.1 hf
  exact field_plain (hargs _ (List.getElem_mem hi))

theorem mem_fieldsFrom (num : Nat) {args : List (List Char)} {a : List Char} (ha : a ∈ args) :
    ∃ f ∈ fieldsFrom num args, ∀ c ∈ a, c ∈ f := by
  obtain ⟨i, hi, rfl⟩ := List.getElem_of_mem ha
  exact ⟨field (num + i) args[i], List.mem_mapIdx.2 ⟨i, hi, rfl⟩, fun c hc => by simp [field, hc]⟩

theorem fieldsFrom_injective {num : Nat} {args args' : List (List Char)}
    (h : fieldsFrom num args = fieldsFrom num args') : args = args' := by
  induction args generalizing num args' with
  | nil =>
    cases args' with
    | nil => rfl
    | cons a args' => simp [fieldsFrom] at h
  | cons a args ih =>
    cases args' with
    | nil => simp [fieldsFrom] at h
    | cons a' args' =>
      rw [fieldsFrom_cons, fieldsFrom_cons] at h
      obtain ⟨hfield, hrest⟩ := List.cons.inj h
      rw [field_injective hfield, ih hrest]

/-- The cast and the fields of a call are determined by its text. -/
theorem fields_of_call {ret ret' name : List Char} {k n : Nat} {args args' : List (List Char)}
    {cast : Prop} [Decidable cast] (hret : ∀ c ∈ ret, ¬ isSeparator c)
    (hret' : ∀ c ∈ ret', ¬ isSeparator c) (hname : ∀ c ∈ name, ¬ isSeparator c)
    (h : (if cast then castField k ret else []) ++ call name args =
      (if cast then castField n ret' else []) ++ call name args') :
    (cast → field k ret = field n ret') ∧
      [',', ' '].intercalate (fieldsFrom 1 args) = [',', ' '].intercalate (fieldsFrom 1 args') := by
  by_cases hcast : cast
  · have hopen {m : Nat} {r : List Char} (hr : ∀ c ∈ r, ¬ isSeparator c) :
        '(' ∉ field m r ++ ')' :: name := by
      simp [(notMem_of_plain (field_plain hr)).1, (notMem_of_plain hname).1]
    rw [if_pos hcast, if_pos hcast] at h
    have hcut : (field k ret ++ ')' :: name) ++
        '(' :: ([',', ' '].intercalate (fieldsFrom 1 args) ++ [')', ';']) =
        (field n ret' ++ ')' :: name) ++
        '(' :: ([',', ' '].intercalate (fieldsFrom 1 args') ++ [')', ';']) := by
      simpa [castField, call] using h
    obtain ⟨h1, h2⟩ := cut_unique (hopen hret) (hopen hret') hcut
    exact ⟨fun _ => List.append_cancel_right h1, List.append_cancel_right h2⟩
  · rw [if_neg hcast, if_neg hcast] at h
    refine ⟨fun h => absurd h hcast, ?_⟩
    simpa [call] using h

theorem dropBlankDollar_subset (blanks s : List Char) :
    ∀ c ∈ dropBlankDollar blanks s, c ∈ blanks ∨ c ∈ s := by
  induction s generalizing blanks with
  | nil => exact fun c hc => .inl hc
  | cons d s ih =>
    intro c hc
    rw [dropBlankDollar] at hc
    split at hc
    · rcases ih _ c hc with hc | hc
      · simp only [List.mem_append, List.mem_singleton] at hc
        rcases hc with hc | rfl
        · exact .inl hc
        · exact .inr List.mem_cons_self
      · exact .inr (List.mem_cons_of_mem _ hc)
    · split at hc
      · exact .inr (List.mem_cons_of_mem _ ((ih [] c hc).resolve_left nofun))
      · rcases List.mem_append.1 hc with hc | hc
        · exact .inl hc
        · rcases List.mem_cons.1 hc with rfl | hc
          · exact .inr List.mem_cons_self
          · exact .inr (List.mem_cons_of_mem _ ((ih [] c hc).resolve_left nofun))

theorem trim_plain {a : List Char} (ha : ∀ c ∈ a, ¬ isSeparator c) :
    ∀ c ∈ trim a, ¬ isSeparator c := by
  intro c hc
  have hmem := (dropBlankDollar_subset [] _ c hc).resolve_left nofun
  exact ha c ((List.dropWhile_suffix _).subset hmem)

namespace Prototype

variable (p : Prototype)

theorem args_plain : ∀ a ∈ p.args.map trim, ∀ c ∈ a, ¬ isSeparator c := by
  intro a ha
  obtain ⟨b, hb, rfl⟩ := List.mem_map.1 ha
  refine trim_plain ?_
  have hlast : ∀ c ∈ p.last, ¬ isSeparator c := fun c hc => by simpa using p.last_plain c hc
  unfold args at hb
  split at hb
  · exact p.pieces_plain b hb
  · rcases List.mem_append.1 hb with hb | hb
    · exact p.pieces_plain b hb
    · rw [List.mem_singleton.1 hb]
      exact hlast

theorem ret_plain : ∀ c ∈ p.ret, ¬ isSeparator c := by
  intro c hc
  have hfirst : c ∈ p.first := List.mem_append_left _ (List.mem_append_left _ hc)
  simpa using p.first_plain c hfirst

/-- If the arguments are printed as the parameters, no parameter has a
separator. -/
theorem cores_plain
    (h : [',', ' '].intercalate (fieldsFrom 1 (p.args.map trim)) =
      [',', ' '].intercalate (fieldsFrom 1 (p.params.map Param.core))) :
    ∀ q ∈ p.params, ∀ c ∈ q.core, ¬ isSeparator c := by
  intro q hq
  refine balanced_plain q.core_balanced fun hopen => ?_
  obtain ⟨f, hf, hsub⟩ := mem_fieldsFrom 1 (List.mem_map_of_mem (f := Param.core) hq)
  have hmem : '(' ∈ [',', ' '].intercalate (fieldsFrom 1 (p.params.map Param.core)) :=
    mem_intercalate_of_mem hf (hsub _ hopen)
  rw [← h] at hmem
  rcases mem_intercalate hmem with hmem | ⟨g, hg, hmem⟩
  · revert hmem
    decide
  · exact fieldsFrom_plain p.args_plain 1 g hg _ hmem rfl

theorem regular_of_mkSnippet (h : mkSnippet p.line = some p.snippet) : p.Regular := by
  have hname := p.name_of_mkSnippet h
  obtain ⟨h2, hgap⟩ := p.afterLast_eq_name_iff.1 hname
  rw [p.mkSnippet_of_name hname, writeSnippetFile_eq _ _ p.args_ne, p.snippet_eq] at h
  have hcontents := List.append_cancel_left (congrArg SnippetFile.contents (Option.some.inj h))
  simp only [p.index_ret] at hcontents
  obtain ⟨hcast, hfields⟩ := fields_of_call p.ret_plain p.returnType_plain
    (fun c hc => (isIdent_plain (p.name_ident c hc)).1) hcontents
  have hplain := p.cores_plain hfields
  have hcores : ∀ a ∈ p.params.map Param.core, ∀ c ∈ a, ¬ isSeparator c := by
    simpa using hplain
  have hargs : p.args.map trim = p.params.map Param.core := by
    refine fieldsFrom_injective (intercalate_injective
      (fun f hf => (notMem_of_plain (fieldsFrom_plain p.args_plain 1 f hf)).2)
      (fun f hf => (notMem_of_plain (fieldsFrom_plain hcores 1 f hf)).2) ?_ ?_ hfields)
    · simpa [fieldsFrom] using p.args_ne
    · simpa [fieldsFrom] using p.params_ne
  have hpieces := p.pieces_of_plain hplain
  have hlen : p.args.length = p.params.length := by simpa using congrArg List.length hargs
  have hlast : p.last = [';'] := by
    by_contra hlast
    rw [args, if_neg hlast, hpieces] at hlen
    simp at hlen
  obtain ⟨h3, htail⟩ := p.last_eq_iff.1 hlast
  rw [args, if_pos hlast, hpieces, List.map_map, List.map_inj_left] at hargs
  refine ⟨h2, h3, htail, ?_, fun q hq => ?_⟩
  · by_cases hstar : '*' ∈ p.returnType
    · rw [if_pos hstar] at hgap ⊢
      have hret := hcast hstar
      rw [hlen] at hret
      have hlead := congrArg List.length (field_injective hret)
      simp only [ret, List.length_append] at hlead
      exact ⟨List.length_eq_zero_iff.1 (by omega), hgap⟩
    · rw [if_neg hstar] at hgap ⊢
      exact hgap
  · obtain ⟨htrail, hdollar⟩ := (trim_text_eq_iff q).1 (hargs q hq)
    exact ⟨htrail, hplain q hq, hdollar⟩

theorem mkSnippet_of_regular (h : p.Regular) : mkSnippet p.line = some p.snippet := by
  obtain ⟨h2, h3, htail, hborder, hparams⟩ := h
  have hname : afterLast (border p.first) p.first = p.name := by
    refine p.afterLast_eq_name_iff.2 ⟨h2, ?_⟩
    by_cases hstar : '*' ∈ p.returnType
    · rw [if_pos hstar] at hborder ⊢
      exact hborder.2
    · rw [if_neg hstar] at hborder ⊢
      exact hborder
  have hargs : p.args = p.params.map Param.text := by
    rw [args, if_pos (p.last_eq_iff.2 ⟨h3, htail⟩)]
    exact p.pieces_of_plain fun q hq => (hparams q hq).2.1
  have htrim : (p.params.map Param.text).map trim = p.params.map Param.core := by
    rw [List.map_map, List.map_inj_left]
    intro q hq
    obtain ⟨htrail, -, hdollar⟩ := hparams q hq
    exact (trim_text_eq_iff q).2 ⟨htrail, hdollar⟩
  have hcast : (if '*' ∈ p.returnType then castField (p.params.length + 1) p.ret else []) =
      if '*' ∈ p.returnType then castField (p.params.length + 1) p.returnType else [] := by
    by_cases hstar : '*' ∈ p.returnType
    · rw [if_pos hstar] at hborder
      simp [ret, hborder]
    · rw [if_neg hstar, if_neg hstar]
  rw [p.mkSnippet_of_name hname, writeSnippetFile_eq _ _ p.args_ne, p.snippet_eq, hargs, htrim,
    List.length_map]
  simp only [p.index_ret, hcast]

end Prototype

/-- **Which prototypes come out right**: exactly those of the regular layout. -/
theorem mkSnippet_iff (p : Prototype) : mkSnippet p.line = some p.snippet ↔ p.Regular :=
  ⟨p.regular_of_mkSnippet, p.mkSnippet_of_regular⟩

/-- `void on(int n , void (*f)(int, int));` -/
def onPrototype : Prototype where
  lead := []
  returnType := "void".toList
  gap1 := [' ']
  name := "on".toList
  gap2 := []
  params :=
    [⟨[], "int n".toList, [' '], by simp, by simp [isSpace], by decide, by simp [isSpace],
        by simp [isSpace], by decide⟩,
      ⟨[' '], "void (*f)(int, int)".toList, [], by simp [isSpace], by simp, by decide,
        by simp [isSpace], by simp [isSpace], by decide⟩]
  gap3 := []
  tail := []
  blank := by simp [isSpace]
  returnType_plain := by simp [isSeparator]
  returnType_ne := by decide
  returnType_first := by simp [isSpace]
  returnType_last := by simp [isSpace]
  gap1_ne := by decide
  name_ident := by simp [isIdent]
  name_first := by simp
  name_length := by decide
  params_ne := by simp

/-- A trailing blank stays, and a function pointer is cut at its parentheses and
its comma. -/
theorem not_mkSnippet_on :
    mkSnippet onPrototype.line = some ⟨"onx".toList, "#name : on ()\n# --\n".toList ++
      "on($\x7b1:int n \x7d, $\x7b2:void \x7d, $\x7b3:*f\x7d, $\x7b4:\x7d, ".toList ++
      "$\x7b5:int\x7d, $\x7b6:int\x7d, $\x7b7:\x7d);".toList⟩ ∧
    mkSnippet onPrototype.line ≠ some onPrototype.snippet := by
  decide

end EmacsConfig.MkSnippet
