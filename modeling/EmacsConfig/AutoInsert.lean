import EmacsConfig.FileNames
import EmacsConfig.Lib.Regexp
import EmacsConfig.Lib.Substitution

/-!
# Expanding file templates

`auto-insert-expand` replaces the placeholders of a template one after the
other, each by the value of its expression. The expressions are evaluated
whatever the template has, and `(upcase (file-name-extension buffer-file-name))`
signals without an extension: `autoInsertExpand_iff` says that the templates are
expanded right for the names the templates are for, except those that are all
extension.
-/

namespace EmacsConfig.AutoInsert

open EmacsConfig.Fields EmacsConfig.Regexp EmacsConfig.Substitution EmacsConfig.FileNames
open EmacsConfig.FormatCxx (fileNameExtension fileNameSansVersions_eq fileNameExtension_eq_some)

inductive Signal where
  | wrongTypeArgument
  deriving DecidableEq, Repr

/-- A string or nil. -/
abbrev Value := Option (List Char)

/-- What the expressions read. -/
structure Env where
  bufferFileName : List Char
  absolute : bufferFileName.head? = some '/'
  /-- The case table and the characters of words. -/
  up : Char → Char
  isWord : Char → Bool
  /-- At the time of the call, with the time zone rule. -/
  formatTimeString : Option String → String → List Char
  /-- The variables `user-mail-address`, `user-full-name` and `mail-host-address`. -/
  userMailAddress? : Value
  userFullName? : Value
  mailHostAddress? : Value
  /-- The function of that name, if there is one. -/
  userMailAddress : Option Value
  userFullName : Value
  userLoginName : List Char
  systemName : List Char

/-! ## Case -/

def upcase (env : Env) : Value → Except Signal Value
  | none => .error .wrongTypeArgument
  | some s => .ok (some (s.map env.up))

def upcaseInitialsFrom (env : Env) : Bool → List Char → List Char
  | _, [] => []
  | inWord, c :: s =>
    (if env.isWord c && !inWord then env.up c else c) :: upcaseInitialsFrom env (env.isWord c) s

def upcaseInitials (env : Env) (s : List Char) : List Char := upcaseInitialsFrom env false s

/-! ## The placeholders -/

inductive Placeholder where
  | dir | file | fileSans | fileUpcase | fileUpcaseInit | fileExt | fileExtUpcase
  | date | time | vcDate | year | isoDate
  | author | userName | loginName | hostAddr
  deriving DecidableEq, Repr

namespace Placeholder

def name : Placeholder → String
  | dir => "DIR"
  | file => "FILE"
  | fileSans => "FILE_SANS"
  | fileUpcase => "FILE_UPCASE"
  | fileUpcaseInit => "FILE_UPCASE_INIT"
  | fileExt => "FILE_EXT"
  | fileExtUpcase => "FILE_EXT_UPCASE"
  | date => "DATE"
  | time => "TIME"
  | vcDate => "VC_DATE"
  | year => "YEAR"
  | isoDate => "ISO_DATE"
  | author => "AUTHOR"
  | userName => "USER_NAME"
  | loginName => "LOGIN_NAME"
  | hostAddr => "HOST_ADDR"

/-- `(>>>NAME<<<)` -/
def key (p : Placeholder) : List Char := "(>>>".toList ++ p.name.toList ++ "<<<)".toList

/-- The expression, evaluated. -/
def eval (env : Env) : Placeholder → Except Signal Value
  | dir => .ok (fileNameDirectory env.bufferFileName)
  | file => .ok (some (fileNameNondirectory env.bufferFileName))
  | fileSans => .ok (some (fileNameSansExtension (fileNameNondirectory env.bufferFileName)))
  | fileUpcase =>
    upcase env (some (fileNameSansExtension (fileNameNondirectory env.bufferFileName)))
  | fileUpcaseInit =>
    .ok (some (upcaseInitials env
      (fileNameSansExtension (fileNameNondirectory env.bufferFileName))))
  | fileExt => .ok (fileNameExtension (fileNameNondirectory env.bufferFileName))
  | fileExtUpcase => upcase env (fileNameExtension (fileNameNondirectory env.bufferFileName))
  | date => .ok (some (env.formatTimeString none "%d %b %Y"))
  | time => .ok (some (env.formatTimeString none "%T"))
  | vcDate => .ok (some (env.formatTimeString (some "UTC") "%Y/%m/%d %T"))
  | year => .ok (some (env.formatTimeString none "%Y"))
  | isoDate => .ok (some (env.formatTimeString none "%Y-%m-%d"))
  | author =>
    .ok (env.userMailAddress? <|> env.userMailAddress.getD none <|>
      some (env.userLoginName ++ ['@'] ++ env.systemName))
  | userName => .ok (env.userFullName? <|> env.userFullName)
  | loginName => .ok (some env.userLoginName)
  | hostAddr => .ok (env.mailHostAddress? <|> some env.systemName)

end Placeholder

open Placeholder

def autoInsertExpansionAlist : List Placeholder :=
  [dir, file, fileSans, fileUpcase, fileUpcaseInit, fileExt, fileExtUpcase, date, time, vcDate,
    year, isoDate, author, userName, loginName, hostAddr]

/-! ## The expansion -/

/-- `(replace-string from to)` from the beginning of the buffer; the keys have
capitals, so case counts. It wants a string when there is something to replace. -/
def replaceString (s : List Char) (new : Value) (text : List Char) : Except Signal (List Char) :=
  match new with
  | some new => .ok (replace s new text)
  | none => if s <:+: text then .error .wrongTypeArgument else .ok text

def autoInsertExpand (env : Env) : List Placeholder → List Char → Except Signal (List Char)
  | [], text => .ok text
  | val :: alist, text =>
    match val.eval env with
    | .error s => .error s
    | .ok new =>
      match replaceString val.key new text with
      | .error s => .error s
      | .ok text => autoInsertExpand env alist text

/-! ## The names the templates are for -/

/-- The regexps of the `define-auto-insert`. -/
def autoInsertRegexps (table : CaseTable) : List (Re Char) :=
  let dot (r : Re Char) : Re Char := .seq (anyOf table ['.']) r
  [ dot (.seq (.group 1 (.alt (anyOf table ['H', 'h']) (.alt
      (.seq (anyOf table ['h']) (anyOf table ['h']))
      (word table ['h', 'p'] (anyOf table ['p']))))) .eos),
    dot (.seq (.group 1 (.alt (anyOf table ['C', 'c']) (.alt
      (.seq (anyOf table ['c']) (anyOf table ['c']))
      (word table ['c', 'p'] (anyOf table ['p']))))) .eos),
    dot (word table ['j', 'a', 'v', 'a'] .eos),
    dot (word table ['p', 'y'] .eos) ]

def Accepted (table : CaseTable) (name : List Char) : Prop :=
  ∃ r ∈ autoInsertRegexps table, (stringMatch r name).isSome

instance (table : CaseTable) (name : List Char) : Decidable (Accepted table name) :=
  inferInstanceAs (Decidable (∃ r ∈ autoInsertRegexps table, _))

/-- The name without directory is a dot and an extension. -/
def AllExtension (name : List Char) : Prop :=
  (fileNameNondirectory name).head? = some '.' ∧ '.' ∉ (fileNameNondirectory name).tail

instance (name : List Char) : Decidable (AllExtension name) :=
  inferInstanceAs (Decidable (_ ∧ _))

/-! ## The extension of an accepted name -/

/-- Neither a separator nor the end of a version. -/
def PlainChar (a : Char) : Prop := a ≠ '.' ∧ a ≠ '/' ∧ a ≠ '~'

theorem same_dot {table : CaseTable} {a : Char} (h : same table a '.') : a = '.' :=
  table.eq_of_fold a '.' (by decide) (by decide) (of_decide_eq_true h)

theorem same_plain {table : CaseTable} {a c : Char}
    (hc : c ∈ ['H', 'h', 'p', 'C', 'c', 'j', 'a', 'v', 'y']) (h : same table a c) :
    PlainChar a := by
  have hnot (b : Char) (hascii : b.toNat < 128) (halpha : b.isAlpha = false)
      (hb : ['H', 'h', 'p', 'C', 'c', 'j', 'a', 'v', 'y'].all (· ≠ b)) : a ≠ b := by
    rintro rfl
    have heq : c = a := table.eq_of_fold c a hascii halpha (of_decide_eq_true h).symm
    exact of_decide_eq_true (List.all_eq_true.1 hb c hc) heq
  exact ⟨hnot '.' (by decide) (by decide) (by decide), hnot '/' (by decide) (by decide) (by decide),
    hnot '~' (by decide) (by decide) (by decide)⟩

/-- The words of `r` are made of letters. -/
def Letters (r : Re Char) : Prop := ∀ w rest, Consumes r w rest → w ≠ [] ∧ ∀ a ∈ w, PlainChar a

/-- The words of `r` end the text, and have letters at most. -/
def Suffix (r : Re Char) : Prop := ∀ w rest, Consumes r w rest → rest = [] ∧ ∀ a ∈ w, PlainChar a

theorem suffix_eos : Suffix .eos := by
  rintro w rest ⟨rfl, rfl⟩
  exact ⟨rfl, nofun⟩

section
variable {table : CaseTable} {r s : Re Char}

theorem letters_anyOf {cs : List Char}
    (hcs : cs ⊆ ['H', 'h', 'p', 'C', 'c', 'j', 'a', 'v', 'y']) : Letters (anyOf table cs) := by
  rintro w rest ⟨a, ha, rfl⟩
  obtain ⟨c, hc, hsame⟩ := List.any_eq_true.1 ha
  refine ⟨List.cons_ne_nil _ _, fun b hb => ?_⟩
  rw [List.mem_singleton.1 hb]
  exact same_plain (hcs hc) hsame

theorem Letters.seq (hr : Letters r) (hs : Letters s) : Letters (.seq r s) := by
  rintro w rest ⟨u, v, rfl, hu, hv⟩
  obtain ⟨hne, hplain⟩ := hr u _ hu
  refine ⟨by simp [hne], fun a ha => ?_⟩
  rcases List.mem_append.1 ha with ha | ha
  · exact hplain a ha
  · exact (hs v rest hv).2 a ha

theorem Letters.alt (hr : Letters r) (hs : Letters s) : Letters (.alt r s) := by
  rintro w rest (h | h)
  · exact hr w rest h
  · exact hs w rest h

theorem Letters.group (hr : Letters r) (n : Nat) : Letters (.group n r) := hr

theorem Letters.suffix (hr : Letters r) (hs : Suffix s) : Suffix (.seq r s) := by
  rintro w rest ⟨u, v, rfl, hu, hv⟩
  obtain ⟨hrest, hplain⟩ := hs v rest hv
  refine ⟨hrest, fun a ha => ?_⟩
  rcases List.mem_append.1 ha with ha | ha
  · exact (hr u _ hu).2 a ha
  · exact hplain a ha

/-- A dot and a suffix that begins with a letter. -/
theorem consumes_extension (hr : Letters r) (hs : Suffix s) {w rest : List Char}
    (h : Consumes (.seq (anyOf table ['.']) (.seq r s)) w rest) :
    rest = [] ∧ ∃ ext, w = '.' :: ext ∧ ext ≠ [] ∧ ∀ a ∈ ext, PlainChar a := by
  obtain ⟨u, v, rfl, ⟨a, ha, rfl⟩, hv⟩ := h
  obtain rfl : a = '.' := same_dot (by simpa using ha)
  obtain ⟨hrest, hplain⟩ := hr.suffix hs v rest hv
  obtain ⟨u, t, rfl, hu, -⟩ := hv
  exact ⟨hrest, u ++ t, rfl, by simp [(hr u _ hu).1], hplain⟩

end

theorem accepted_name {table : CaseTable} {name : List Char} (h : Accepted table name) :
    ∃ pre ext, name = pre ++ '.' :: ext ∧ ext ≠ [] ∧ ∀ a ∈ ext, PlainChar a := by
  obtain ⟨r, hr, hmatch⟩ := h
  obtain ⟨pre, w, rest, hname, hw⟩ := (stringMatch_isSome_iff r name).1 hmatch
  have hletter (cs : List Char) (hcs : cs ⊆ ['H', 'h', 'p', 'C', 'c', 'j', 'a', 'v', 'y']) :
      Letters (anyOf table cs) := letters_anyOf hcs
  have hword : rest = [] ∧ ∃ ext, w = '.' :: ext ∧ ext ≠ [] ∧ ∀ a ∈ ext, PlainChar a := by
    simp only [autoInsertRegexps, List.mem_cons, List.not_mem_nil, or_false] at hr
    rcases hr with rfl | rfl | rfl | rfl
    · have hh := hletter ['h'] (by simp)
      have hp := hletter ['p'] (by simp)
      have hH := hletter ['H', 'h'] (by simp)
      have halts := hH.alt ((hh.seq hh).alt (hh.seq (hp.seq hp)))
      exact consumes_extension (halts.group 1) suffix_eos hw
    · have hc := hletter ['c'] (by simp)
      have hp := hletter ['p'] (by simp)
      have hC := hletter ['C', 'c'] (by simp)
      have halts := hC.alt ((hc.seq hc).alt (hc.seq (hp.seq hp)))
      exact consumes_extension (halts.group 1) suffix_eos hw
    · have hj := hletter ['j'] (by simp)
      have ha := hletter ['a'] (by simp)
      have hv := hletter ['v'] (by simp)
      exact consumes_extension hj (ha.suffix (hv.suffix (ha.suffix suffix_eos))) hw
    · have hp := hletter ['p'] (by simp)
      have hy := hletter ['y'] (by simp)
      exact consumes_extension hp (hy.suffix suffix_eos) hw
  obtain ⟨rfl, ext, rfl, hne, hplain⟩ := hword
  exact ⟨pre, ext, by rw [hname, List.append_nil], hne, hplain⟩

/-- An accepted name has an extension unless it is nothing else. -/
theorem fileNameExtension_accepted {table : CaseTable} {name : List Char}
    (h : Accepted table name) :
    (fileNameExtension (fileNameNondirectory name)).isSome ↔ ¬ AllExtension name := by
  obtain ⟨pre, ext, rfl, hne, hplain⟩ := accepted_name h
  have hslash : '/' ∉ '.' :: ext := by
    rw [List.mem_cons, not_or]
    exact ⟨by decide, fun hmem => (hplain _ hmem).2.1 rfl⟩
  have hdot : '.' ∉ ext := fun hmem => (hplain _ hmem).1 rfl
  have htilde : '~' ∉ (afterLast '/' pre ++ '.' :: ext).getLast? := by
    rw [List.getLast?_append_of_ne_nil _ (List.cons_ne_nil _ _), List.getLast?_cons_of_ne_nil hne]
    exact fun hmem => (hplain _ (List.mem_of_getLast? hmem)).2.2 rfl
  unfold AllExtension fileNameNondirectory
  rw [afterLast_append_of_notMem _ hslash]
  have hsans := fileNameSansVersions_eq htilde
  generalize afterLast '/' pre = base at hsans ⊢
  cases base with
  | nil =>
    refine iff_of_false ?_ (by simp [hdot])
    unfold fileNameExtension
    rw [hsans]
    simp [hdot]
  | cons c base =>
    have hsome := (fileNameExtension_eq_some hsans).2 ⟨c :: base, rfl, List.cons_ne_nil _ _, hdot⟩
    rw [hsome]
    refine iff_of_true rfl ?_
    simp

/-! ## The whole expansion -/

theorem name_inj (p q : Placeholder) (h : p.name = q.name) : p = q := by
  revert h
  cases p <;> cases q <;> decide

theorem name_plain (p : Placeholder) : '(' ∉ p.name.toList ∧ '<' ∉ p.name.toList := by
  cases p <;> decide

/-- A key is the only thing in a template that begins with `(>>`. -/
def marks : Marks Char Placeholder where
  first := '('
  mark := '>'
  body p := '>' :: (p.name.toList ++ "<<<)".toList)
  first_ne := by decide
  first_notMem p := by
    have h := (name_plain p).1
    simp [h]
  body_inj p q t h := by
    obtain ⟨u, hu⟩ := h
    have htail : p.name.toList ++ '<' :: ("<<)".toList ++ u) =
        q.name.toList ++ '<' :: ("<<)".toList ++ t) := by simpa using hu
    obtain ⟨hname, -⟩ := cut_unique (name_plain p).2 (name_plain q).2 htail
    exact name_inj p q (String.toList_inj.1 hname)

/-- What a placeholder stands for. -/
def standsFor (env : Env) (p : Placeholder) : List Char :=
  match p.eval env with
  | .ok (some v) => v
  | _ => []

/-- Every expression has a string as value. -/
def Defined (env : Env) : Prop := ∀ p : Placeholder, p.eval env = .ok (some (standsFor env p))

theorem eval_standsFor {env : Env} {p : Placeholder} {v : Value} (h : p.eval env = .ok v)
    (hv : v ≠ none) : p.eval env = .ok (some (standsFor env p)) := by
  obtain ⟨s, rfl⟩ := Option.ne_none_iff_exists'.1 hv
  unfold standsFor
  rw [h]

theorem defined_of_extension {env : Env} (huser : userName.eval env ≠ .ok none)
    (hext : (fileNameExtension (fileNameNondirectory env.bufferFileName)).isSome) :
    Defined env := by
  obtain ⟨ext, hsome⟩ := Option.isSome_iff_exists.1 hext
  have hslash : '/' ∈ env.bufferFileName := List.mem_of_mem_head? (Option.mem_def.2 env.absolute)
  intro p
  cases p with
  | dir => exact eval_standsFor rfl (by simp [fileNameDirectory, hslash])
  | fileExt => exact eval_standsFor rfl (by simp [hsome])
  | fileExtUpcase => exact eval_standsFor (congrArg (upcase env) hsome) (by simp)
  | author => exact eval_standsFor rfl (by simp)
  | userName => exact eval_standsFor rfl fun hnone => huser (congrArg Except.ok hnone)
  | hostAddr => exact eval_standsFor rfl (by simp)
  | _ => rfl

theorem autoInsertExpand_render {env : Env} (hdefined : Defined env)
    (hvalues : ∀ p, standsFor env p ≠ [] ∧ '>' ∉ standsFor env p) (alist : List Placeholder)
    {ts : List (Token Char Placeholder)} (hts : marks.Apart ts)
    (hslots : ∀ p, .slot p ∈ ts → p ∈ alist) :
    autoInsertExpand env alist (marks.render ts) = .ok (fill (standsFor env) ts) := by
  induction alist generalizing ts with
  | nil =>
    have hnone : ∀ p, .slot p ∉ ts := fun p hp => List.not_mem_nil (hslots p hp)
    rw [autoInsertExpand, marks.render_eq_fill hnone]
  | cons p alist ih =>
    obtain ⟨hne, hmark⟩ := hvalues p
    have hreplace : replace p.key (standsFor env p) (marks.render ts) =
        marks.render (fillOne p (standsFor env p) ts) := marks.replace_render p _ hts
    have hrest := ih (marks.apart_fillOne (k := p) hne hmark hts) fun q hq => by
      obtain ⟨hmem, hqp⟩ := Marks.slot_mem_fillOne hq
      exact (List.mem_cons.1 (hslots q hmem)).resolve_left hqp
    rw [autoInsertExpand, hdefined p]
    simp only [replaceString]
    rw [hreplace, hrest, Marks.fill_fillOne]

theorem autoInsertExpand_error {env : Env} {alist : List Placeholder} {p : Placeholder}
    (hp : p ∈ alist) {s : Signal} (herror : p.eval env = .error s) (text : List Char) :
    ∃ s', autoInsertExpand env alist text = .error s' := by
  induction alist generalizing text with
  | nil => cases hp
  | cons q alist ih =>
    unfold autoInsertExpand
    split
    · next s' _ => exact ⟨s', rfl⟩
    · next new hnew =>
      split
      · next s' _ => exact ⟨s', rfl⟩
      · next text' _ =>
        rcases List.mem_cons.1 hp with rfl | hp
        · rw [herror] at hnew
          cases hnew
        · exact ih hp text'

/-- **When templates are expanded right**: for an accepted name, in any order of
the placeholders, a template whose plain text has no `>>` becomes the text with
every placeholder substituted, and no key is left in it, exactly if the name is
not all extension. -/
theorem autoInsertExpand_iff (table : CaseTable) {env : Env} {alist : List Placeholder}
    {template : List (Token Char Placeholder)} (hname : Accepted table env.bufferFileName)
    (halist : alist.Perm autoInsertExpansionAlist) (htemplate : marks.Apart template)
    (huser : userName.eval env ≠ .ok none)
    (hvalues : ∀ (p : Placeholder) v, p.eval env = .ok (some v) → v ≠ [] ∧ '>' ∉ v) :
    (∃ text, autoInsertExpand env alist (marks.render template) = .ok text ∧
        text = fill (standsFor env) template ∧ ∀ p : Placeholder, ¬ p.key <:+: text) ↔
      ¬ AllExtension env.bufferFileName := by
  have hmem : ∀ p : Placeholder, p ∈ alist := fun p => by
    rw [halist.mem_iff]
    cases p <;> decide
  rw [← fileNameExtension_accepted hname]
  constructor
  · rintro ⟨text, hok, -, -⟩
    by_contra hnone
    rw [Option.not_isSome_iff_eq_none] at hnone
    have herror : fileExtUpcase.eval env = .error .wrongTypeArgument := by
      rw [eval, hnone]
      rfl
    obtain ⟨s, hs⟩ := autoInsertExpand_error (hmem _) herror (marks.render template)
    rw [hs] at hok
    cases hok
  · intro hext
    have hdefined := defined_of_extension huser hext
    have hall : ∀ p, standsFor env p ≠ [] ∧ '>' ∉ standsFor env p :=
      fun p => hvalues p _ (hdefined p)
    have hrun := autoInsertExpand_render hdefined hall alist htemplate fun p _ => hmem p
    exact ⟨_, hrun, rfl, marks.not_infix_fill hall htemplate⟩

/-- A user and a time. -/
def sampleEnv (name : List Char) (h : name.head? = some '/') : Env where
  bufferFileName := name
  absolute := h
  up := Char.toUpper
  isWord := Char.isAlphanum
  formatTimeString _ format :=
    if format = "%d %b %Y" then "14 Feb 2011".toList
    else if format = "%T" then "10:20:30".toList
    else if format = "%Y/%m/%d %T" then "2011/02/14 10:20:30".toList
    else if format = "%Y" then "2011".toList
    else "2011-02-14".toList
  userMailAddress? := none
  userFullName? := some "A User".toList
  mailHostAddress? := none
  userMailAddress := none
  userFullName := none
  userLoginName := "user".toList
  systemName := "host".toList

example : autoInsertExpand (sampleEnv "/src/foo.h".toList rfl) autoInsertExpansionAlist
    "#ifndef (>>>FILE_UPCASE<<<)_(>>>FILE_EXT_UPCASE<<<)_ // > (>>>AUTHOR<<<)".toList =
      .ok "#ifndef FOO_H_ // > user@host".toList := by
  rfl

/-- `<(>>>AUTHOR<<<)> (>>>YEAR<<<)` in a header, the last placeholder first. -/
theorem autoInsertExpand_iff_header :
    let env := sampleEnv "/src/foo.h".toList rfl
    let template : List (Token Char Placeholder) :=
      [.char '<', .slot .author, .char '>', .char ' ', .slot .year]
    ∃ text, autoInsertExpand env autoInsertExpansionAlist.reverse (marks.render template) =
        .ok text ∧ text = fill (standsFor env) template ∧
          ∀ p : Placeholder, ¬ p.key <:+: text := by
  intro env template
  have hname : Accepted .exact env.bufferFileName := by decide
  have hvalues (p : Placeholder) :
      (p.eval env).toOption.join.any fun v => v ≠ [] ∧ '>' ∉ v := by
    cases p <;> decide +kernel
  refine (autoInsertExpand_iff .exact hname (List.reverse_perm _) (by decide)
    nofun fun p v hv => ?_).2 (by decide)
  have hp := hvalues p
  rw [hv] at hp
  exact of_decide_eq_true hp

/-- A file named `.h` is accepted and never expanded, whatever is in the template. -/
theorem not_expanded_dot_h :
    let env := sampleEnv "/src/.h".toList rfl
    Accepted .exact env.bufferFileName ∧
      autoInsertExpand env autoInsertExpansionAlist "(>>>YEAR<<<)".toList =
        .error .wrongTypeArgument := by
  exact ⟨by decide, rfl⟩

end EmacsConfig.AutoInsert
