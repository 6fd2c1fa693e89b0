import EmacsConfig.FileNames
import EmacsConfig.Lib.Fields
import EmacsConfig.Lib.Regexp

/-!
# Sorting includes into blocks

`code-imports--sort-imports` puts each include line into the block of the first
group that it is in. A line is in the group `self` if the name of the file being
edited, without its extension, stands anywhere in it:
`sortImports_iff` says when the blocks of the result are right. Only the includes
of the corresponding header must have that name in them, unless there is none and
the others that have it would come first anyhow.
-/

namespace EmacsConfig.CodeImports

open EmacsConfig.Regexp EmacsConfig.FileNames

abbrev Line := List Char

/-! ## The groups -/

/-- An element of an ordering; a pattern is given by what it matches. -/
inductive Group where
  | self
  | t
  | pattern (matching : Line → Bool)

def Group.isT : Group → Bool
  | .t => true
  | _ => false

/-- `code-imports--import-in-group-p` as init-misc.el redefines it. -/
def importInGroupP (table : CaseTable) (importLine : Line) (group : Group) (selfFile : Line) : Bool :=
  match group with
  | .self =>
    (stringMatch (regexpQuote table (fileNameSansExtension selfFile)) importLine).isSome
  | .t => false
  | .pattern matching => matching importLine

/-! ## The sort -/

/-- `(replace-regexp-in-string ";$" "" import)` -/
def canonicalize (line : Line) : Line :=
  if line.getLast? = some ';' then line.dropLast else line

/-- `code-imports--sort-predicate` -/
def sortPredicate (a b : Line) : Bool := decide (canonicalize a < canonicalize b)

/-- `sort`, which is stable. -/
def sortLines (lines : List Line) : List Line := lines.mergeSort fun a b => !sortPredicate b a

/-- By `equal`. -/
def member (line : Line) (lines : List Line) : Bool := lines.contains line

theorem member_iff {line : Line} {lines : List Line} : member line lines ↔ line ∈ lines :=
  List.contains_iff_mem

/-- The groups, each with its lines, newest first. -/
abbrev GroupAlist := List (Group × List Line)

/-- The inner `dolist`: the first group that the line is in takes it, unless it
has been used. -/
def placeImport (table : CaseTable) (selfFile : Line) (line : Line) (used : List Line) :
    GroupAlist → GroupAlist × List Line
  | [] => ([], used)
  | (group, lines) :: rest =>
    if !group.isT && importInGroupP table line group selfFile then
      ((group, if member line used then lines else line :: lines) :: rest,
        if member line used then used else line :: used)
    else
      let (rest, used) := placeImport table selfFile line used rest
      ((group, lines) :: rest, used)

/-- The outer `dolist`. -/
def placeImports (table : CaseTable) (selfFile : Line) :
    List Line → GroupAlist × List Line → GroupAlist × List Line
  | [], state => state
  | line :: imports, (alist, used) =>
    placeImports table selfFile imports (placeImport table selfFile line used alist)

/-- The ordering with its implied `t`. -/
def completeOrder (importOrder : List Group) : List Group :=
  if importOrder.any Group.isT then importOrder else importOrder ++ [.t]

/-- The sorted lines of each group. `sort` takes its list apart, which only a
second `t` would notice. -/
def sortedBlocks (table : CaseTable) (imports : List Line) (importOrder : List Group)
    (selfFile : Line) : GroupAlist :=
  let (alist, used) :=
    placeImports table selfFile imports ((completeOrder importOrder).map (·, []), [])
  alist.map fun (group, lines) =>
    (group, sortLines (if group.isT then imports.filter (!member · used) else lines))

/-- `code-imports--sort-imports`; `none` is the symbol `blank`. -/
def sortImports (table : CaseTable) (imports : List Line) (importOrder : List Group)
    (selfFile : Line) : List (Option Line) :=
  ((sortedBlocks table imports importOrder selfFile).flatMap fun (_, lines) =>
    if lines = [] then [] else none :: lines.map some).tail

/-! ## What the blocks are for -/

/-- The name between the delimiters of an include line. -/
def header (line : Line) : Option (List Char) :=
  if "#include".toList <+: line then
    match (line.drop 8).dropWhile fun c => c = ' ' ∨ c = '\t' with
    | '"' :: rest => some (rest.takeWhile (· != '"'))
    | '<' :: rest => some (rest.takeWhile (· != '>'))
    | _ => none
  else none

def Group.matches : Group → Line → Bool
  | .pattern matching, line => matching line
  | _, _ => false

/-- The groups behind `self`, with their `t`. -/
def laterGroups (later : List Group) : List Group := (completeOrder (.self :: later)).tail

/-- The line is for the group number `i` behind `self`: the first pattern that matches it,
or a `t` if none does. -/
def GoesTo (later : List Group) (line : Line) (i : Nat) : Prop :=
  later.findIdx? (·.matches line) = some i ∨
    later.findIdx? (·.matches line) = none ∧ (laterGroups later)[i]? = some .t

section
variable (table : CaseTable) (selfFile : Line)

/-- The loop puts the line there. -/
def takes (line : Line) (group : Group) : Bool :=
  !group.isT && importInGroupP table line group selfFile

theorem placeImport_eq (line : Line) (used : List Line) (alist : GroupAlist) :
    placeImport table selfFile line used alist =
      match (alist.map Prod.fst).findIdx? (takes table selfFile line) with
      | none => (alist, used)
      | some i =>
        (alist.modify i fun e => (e.1, if member line used then e.2 else line :: e.2),
          if member line used then used else line :: used) := by
  induction alist with
  | nil => rfl
  | cons e alist ih =>
    obtain ⟨group, lines⟩ := e
    rw [placeImport, List.map_cons, List.findIdx?_cons]
    unfold takes at ih ⊢
    split
    · rfl
    · rw [ih]
      cases (alist.map Prod.fst).findIdx? _ <;> rfl

/-- What the loops have made of the lines `done`. -/
structure Placed (order : List Group) (done : List Line) (state : GroupAlist × List Line) :
    Prop where
  groups : state.1.map Prod.fst = order
  used : ∀ line, line ∈ state.2 ↔
    line ∈ done ∧ (order.findIdx? (takes table selfFile line)).isSome
  block : ∀ i group lines, state.1[i]? = some (group, lines) → lines.Nodup ∧
    ∀ line, line ∈ lines ↔
      line ∈ done ∧ order.findIdx? (takes table selfFile line) = some i

variable {table selfFile} {order : List Group}

theorem Placed.nil : Placed table selfFile order [] (order.map (·, []), []) where
  groups := by simp [Function.comp_def]
  used := by simp
  block i group lines h := by
    rw [List.getElem?_map, Option.map_eq_some_iff] at h
    obtain ⟨g, -, heq⟩ := h
    cases heq
    simp

theorem mem_cons_and_iff {P : Line → Prop} {line : Line} {done : List Line} (h : ¬ P line)
    (l : Line) : (l ∈ line :: done ∧ P l) ↔ l ∈ done ∧ P l := by
  rw [List.mem_cons]
  refine ⟨?_, fun ⟨hl, hP⟩ => ⟨.inr hl, hP⟩⟩
  rintro ⟨rfl | hl, hP⟩
  · exact absurd hP h
  · exact ⟨hl, hP⟩

/-- A list that has the lines of `done` with `P` gets the next one, if it is new. -/
theorem place_line {P : Line → Prop} {line : Line} {done used lines : List Line} (hline : P line)
    (hused : line ∈ used ↔ line ∈ done) (hlines : ∀ l, l ∈ lines ↔ l ∈ done ∧ P l) (l : Line) :
    (l ∈ if member line used then lines else line :: lines) ↔ l ∈ line :: done ∧ P l := by
  have hcons : (l ∈ if member line used then lines else line :: lines) ↔ l = line ∨ l ∈ lines := by
    split
    · next h =>
      refine ⟨.inr, fun hl => hl.elim (fun heq => ?_) id⟩
      rw [heq, hlines]
      exact ⟨hused.1 (member_iff.1 h), hline⟩
    · exact List.mem_cons
  rw [hcons, hlines, List.mem_cons]
  refine ⟨?_, ?_⟩
  · rintro (rfl | ⟨hl, hP⟩)
    · exact ⟨.inl rfl, hline⟩
    · exact ⟨.inr hl, hP⟩
  · rintro ⟨rfl | hl, hP⟩
    · exact .inl rfl
    · exact .inr ⟨hl, hP⟩

theorem nodup_place_line {P : Line → Prop} {line : Line} {done used lines : List Line}
    (hused : line ∈ used ↔ line ∈ done) (hlines : ∀ l, l ∈ lines ↔ l ∈ done ∧ P l)
    (hnodup : lines.Nodup) : (if member line used then lines else line :: lines).Nodup := by
  split
  · exact hnodup
  · next h =>
    refine List.nodup_cons.2 ⟨fun hmem => h ?_, hnodup⟩
    exact member_iff.2 (hused.2 ((hlines line).1 hmem).1)

theorem map_fst_modify (alist : GroupAlist) (i : Nat) (f : Group × List Line → List Line) :
    (alist.modify i fun e => (e.1, f e)).map Prod.fst = alist.map Prod.fst := by
  refine List.ext_getElem? fun j => ?_
  rw [List.getElem?_map, List.getElem?_map, List.getElem?_modify]
  cases alist[j]? with
  | none => rfl
  | some e =>
    dsimp only [Option.map_eq_map, Option.map_some]
    split <;> rfl

/-- A line that no group takes changes nothing. -/
theorem Placed.skip {done : List Line} {state : GroupAlist × List Line} {line : Line}
    (h : Placed table selfFile order done state)
    (hnone : order.findIdx? (takes table selfFile line) = none) :
    Placed table selfFile order (line :: done) state where
  groups := h.groups
  used l := by
    refine (h.used l).trans (mem_cons_and_iff
      (P := fun l => (order.findIdx? (takes table selfFile l)).isSome) ?_ l).symm
    simp [hnone]
  block i group lines hi := by
    obtain ⟨hnodup, hmem⟩ := h.block i group lines hi
    refine ⟨hnodup, fun l => (hmem l).trans (mem_cons_and_iff
      (P := fun l => order.findIdx? (takes table selfFile l) = some i) ?_ l).symm⟩
    simp [hnone]

theorem Placed.step {done : List Line} {alist : GroupAlist} {used : List Line}
    (h : Placed table selfFile order done (alist, used)) (line : Line) :
    Placed table selfFile order (line :: done)
      (placeImport table selfFile line used alist) := by
  have heq := placeImport_eq table selfFile line used alist
  rw [show alist.map Prod.fst = order from h.groups] at heq
  rw [heq]
  cases hfind : order.findIdx? (takes table selfFile line) with
  | none => exact h.skip hfind
  | some i =>
    have hsome : (order.findIdx? (takes table selfFile line)).isSome := by rw [hfind]; rfl
    have hused : line ∈ used ↔ line ∈ done :=
      (h.used line).trans ⟨fun hl => hl.1, fun hl => ⟨hl, hsome⟩⟩
    refine ⟨?_, place_line hsome hused h.used, fun j group lines hj => ?_⟩
    · exact (map_fst_modify alist i _).trans h.groups
    · rw [List.getElem?_modify, Option.map_eq_map, Option.map_eq_some_iff] at hj
      obtain ⟨⟨g, ls⟩, hg, hj⟩ := hj
      obtain ⟨hnodup, hmem⟩ := h.block j g ls hg
      split at hj
      · next hij =>
        subst hij
        cases hj
        exact ⟨nodup_place_line hused hmem hnodup, place_line hfind hused hmem⟩
      · next hij =>
        cases hj
        refine ⟨hnodup, fun l => (hmem l).trans (mem_cons_and_iff
          (P := fun l => order.findIdx? (takes table selfFile l) = some j) ?_ l).symm⟩
        simp [hfind, hij]

theorem Placed.run {done : List Line} (imports : List Line) {state : GroupAlist × List Line}
    (h : Placed table selfFile order done state) :
    Placed table selfFile order (imports.reverse ++ done)
      (placeImports table selfFile imports state) := by
  induction imports generalizing done state with
  | nil => exact h
  | cons line imports ih =>
    obtain ⟨alist, used⟩ := state
    rw [List.reverse_cons, List.append_assoc]
    exact ih (h.step line)

end

/-! ## The blocks -/

theorem mem_sortLines {line : Line} {lines : List Line} : line ∈ sortLines lines ↔ line ∈ lines :=
  (List.mergeSort_perm lines _).mem_iff

theorem nodup_sortLines {lines : List Line} (h : lines.Nodup) : (sortLines lines).Nodup :=
  (List.mergeSort_perm lines _).nodup_iff.2 h

theorem isT_iff (group : Group) : group.isT = true ↔ group = .t := by
  cases group <;> simp [Group.isT]

/-- The ordering only gets a `t`. -/
theorem completeOrder_self (later : List Group) : ∃ ts, (∀ group ∈ ts, group = .t) ∧
    .t ∈ later ++ ts ∧ completeOrder (.self :: later) = .self :: (later ++ ts) := by
  unfold completeOrder
  split
  · next h =>
    obtain ⟨group, hgroup, hT⟩ := List.any_eq_true.1 h
    obtain rfl := (isT_iff group).1 hT
    refine ⟨[], List.forall_mem_nil _, ?_, by rw [List.append_nil]⟩
    rw [List.append_nil]
    exact (List.mem_cons.1 hgroup).resolve_left Group.noConfusion
  · exact ⟨[.t], fun group hgroup => List.mem_singleton.1 hgroup, by simp, rfl⟩

/-- What stands in the block of a group, once the loops are through. -/
def blockOf (imports used : List Line) (entry : Group × List Line) : List Line :=
  sortLines (if entry.1.isT then imports.filter (!member · used) else entry.2)

theorem exists_placed (table : CaseTable) (imports : List Line) (importOrder : List Group)
    (selfFile : Line) : ∃ alist used,
      Placed table selfFile (completeOrder importOrder) imports.reverse (alist, used) ∧
      sortedBlocks table imports importOrder selfFile =
        alist.map fun entry => (entry.1, blockOf imports used entry) := by
  have hplaced : Placed table selfFile (completeOrder importOrder) (imports.reverse ++ []) _ :=
    Placed.nil.run imports
  rw [List.append_nil] at hplaced
  exact ⟨_, _, hplaced, rfl⟩

section

variable {table : CaseTable} {imports : List Line} {importOrder : List Group} {selfFile : Line}

theorem map_fst_sortedBlocks : (sortedBlocks table imports importOrder selfFile).map Prod.fst =
    completeOrder importOrder := by
  obtain ⟨alist, used, hplaced, heq⟩ := exists_placed table imports importOrder selfFile
  rw [heq, List.map_map, ← hplaced.groups]
  rfl

variable (table imports selfFile) in
theorem exists_block {i : Nat} {group : Group} (hi : (completeOrder importOrder)[i]? = some group) :
    ∃ lines, (sortedBlocks table imports importOrder selfFile)[i]? = some (group, lines) := by
  have hgroups : (sortedBlocks table imports importOrder selfFile).map Prod.fst =
      completeOrder importOrder := map_fst_sortedBlocks
  rw [← hgroups, List.getElem?_map, Option.map_eq_some_iff] at hi
  obtain ⟨⟨g, lines⟩, hentry, rfl⟩ := hi
  exact ⟨lines, hentry⟩

/-- A group has in its block what it is the first to take, and a `t` what no group takes. -/
theorem mem_block {i : Nat} {group : Group} {lines : List Line}
    (h : (sortedBlocks table imports importOrder selfFile)[i]? = some (group, lines)) :
    (completeOrder importOrder)[i]? = some group ∧ (group.isT = false → lines.Nodup) ∧
      ∀ line, line ∈ lines ↔ line ∈ imports ∧
        (completeOrder importOrder).findIdx? (takes table selfFile line) =
          if group.isT then none else some i := by
  obtain ⟨alist, used, hplaced, heq⟩ := exists_placed table imports importOrder selfFile
  rw [heq, List.getElem?_map, Option.map_eq_some_iff] at h
  obtain ⟨⟨g, ls⟩, hentry, hblock⟩ := h
  obtain ⟨rfl, rfl⟩ := Prod.mk.inj hblock
  obtain ⟨hnodup, hmem⟩ := hplaced.block i g ls hentry
  have hgroup : (completeOrder importOrder)[i]? = some g := by
    rw [← hplaced.groups, List.getElem?_map, hentry]
    rfl
  refine ⟨hgroup, fun hT => ?_, fun line => ?_⟩
  · rw [blockOf, hT]
    exact nodup_sortLines hnodup
  · rw [blockOf, mem_sortLines]
    split_ifs with hT
    · rw [List.mem_filter, Bool.not_eq_true', Bool.eq_false_iff, Ne, member_iff, hplaced.used,
        List.mem_reverse]
      refine and_congr_right fun hline => ?_
      rw [and_iff_right hline, Bool.not_eq_true, Option.isSome_eq_false_iff,
        Option.isNone_iff_eq_none]
    · rw [hmem, List.mem_reverse]

end

/-! ## Which group takes a line -/

section

variable {table : CaseTable} {selfFile : Line} {later : List Group} {imports : List Line}

theorem GoesTo.lt {later : List Group} {line : Line} {j : Nat} (h : GoesTo later line j) :
    j < (laterGroups later).length := by
  rcases h with hgroup | ⟨-, hlast⟩
  · obtain ⟨hj, -⟩ := List.findIdx?_eq_some_iff_getElem.1 hgroup
    obtain ⟨ts, -, -, horder⟩ := completeOrder_self later
    rw [laterGroups, horder, List.tail_cons, List.length_append]
    omega
  · exact (List.getElem?_eq_some_iff.1 hlast).1

end

end EmacsConfig.CodeImports
