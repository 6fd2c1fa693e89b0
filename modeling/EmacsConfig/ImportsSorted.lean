import EmacsConfig.CodeImports
import EmacsConfig.Lib.Grouping
import EmacsConfig.Lib.StableSort
import Mathlib.Data.Char
import Mathlib.Data.List.Lex

/-!
# Sorting sorted includes

`code-imports--sort-imports` collects the lines of a group newest first and sorts them
stably. Applied to what it has sorted it puts every line into the same group again, and
turns round the lines of a group that differ only in a final `;`.
-/

namespace EmacsConfig.ImportsSorted

open CodeImports Regexp StableSort

/-- The lines without the blanks. -/
def importLines (sorted : List (Option Line)) : List Line := sorted.filterMap id

def le (a b : Line) : Bool := !sortPredicate b a

theorem le_iff {a b : Line} : le a b ↔ canonicalize a ≤ canonicalize b := by
  rw [le, sortPredicate, Bool.not_eq_true', decide_eq_false_iff_not, not_lt]

theorem le_trans' (a b c : Line) (hab : le a b) (hbc : le b c) : le a c := by
  rw [le_iff] at *
  exact hab.trans hbc

theorem le_total' (a b : Line) : le a b || le b a := by
  rw [Bool.or_eq_true, le_iff, le_iff]
  exact le_total _ _

theorem sorted_sortLines (lines : List Line) : (sortLines lines).Pairwise fun a b => le a b :=
  List.pairwise_mergeSort le_trans' le_total' lines

theorem sortLines_sorted {lines : List Line} (h : lines.Pairwise fun a b => le a b) :
    sortLines lines = lines :=
  List.mergeSort_of_pairwise h

/-- Sorted lines that are turned round and sorted again. -/
theorem sortLines_reverse_iff {lines : List Line} (h : lines.Pairwise fun a b => le a b)
    (hnodup : lines.Nodup) : sortLines lines.reverse = lines ↔
      lines.Pairwise fun a b => canonicalize a ≠ canonicalize b := by
  have hiff : sortLines lines.reverse = lines ↔ lines.Pairwise fun a b => ¬ le b a :=
    mergeSort_reverse_iff le_trans' le_total' h hnodup
  rw [hiff]
  constructor <;> intro hties
  · refine hties.imp fun hnot heq => hnot ?_
    rw [le_iff, heq]
  · refine (hties.and h).imp fun hne hba => hne.1 ?_
    rw [le_iff] at hba
    exact le_antisymm (le_iff.1 hne.2) hba

section

variable (table : CaseTable) (selfFile : Line) (order : List Group)

/-- The group that takes the line. -/
def groupOf (line : Line) : Option ℕ := order.findIdx? (takes table selfFile line)

/-- The state of the loops after the lines `done`, newest first, if none of them has been
placed twice. -/
def placed (done : List Line) : GroupAlist × List Line :=
  (order.mapIdx fun i group => (group, done.filter fun l => groupOf table selfFile order l = some i),
    done.filter fun l => (groupOf table selfFile order l).isSome)

variable {table selfFile order}

theorem placeImport_placed {done : List Line} {line : Line}
    (hnew : (groupOf table selfFile order line).isSome → line ∉ done) :
    placeImport table selfFile line (placed table selfFile order done).2
        (placed table selfFile order done).1 =
      placed table selfFile order (line :: done) := by
  have hgroups : (placed table selfFile order done).1.map Prod.fst = order := by
    refine List.ext_getElem? fun i => ?_
    simp [placed, Function.comp_def]
  rw [placeImport_eq, hgroups]
  cases hgroup : order.findIdx? (takes table selfFile line) with
  | none =>
    have hnone : groupOf table selfFile order line = none := hgroup
    simp [placed, hnone]
  | some i =>
    have hsome : groupOf table selfFile order line = some i := hgroup
    have hmember : member line (placed table selfFile order done).2 = false := by
      rw [Bool.eq_false_iff, Ne, member_iff]
      exact fun hmem => hnew (by rw [hsome]; rfl) (List.mem_of_mem_filter hmem)
    simp only [hmember, Bool.false_eq_true, if_false]
    rw [Prod.mk.injEq]
    constructor
    · refine List.ext_getElem? fun j => ?_
      rw [List.getElem?_modify]
      simp only [placed, List.getElem?_mapIdx, List.filter_cons, hsome]
      by_cases hij : i = j
      · subst hij
        simp [Function.comp_def]
      · simp [hij]
    · simp [placed, hsome]

theorem placeImports_placed {imports done : List Line}
    (hnodup : ((imports.reverse ++ done).filter fun l =>
      (groupOf table selfFile order l).isSome).Nodup) :
    placeImports table selfFile imports (placed table selfFile order done) =
      placed table selfFile order (imports.reverse ++ done) := by
  induction imports generalizing done with
  | nil => rfl
  | cons line imports ih =>
    have hsplit : (line :: imports).reverse ++ done = imports.reverse ++ (line :: done) := by simp
    rw [hsplit] at hnodup ⊢
    rw [← ih hnodup, ← placeImport_placed]
    · rfl
    · intro hsome hmem
      have htwice := (hnodup.sublist (List.Sublist.filter _ (List.sublist_append_right _ _)))
      rw [List.filter_cons, if_pos hsome, List.nodup_cons] at htwice
      exact htwice.1 (List.mem_filter.2 ⟨hmem, hsome⟩)

end

/-- The blocks of lines none of which is placed twice. -/
theorem sortedBlocks_eq (table : CaseTable) {imports : List Line} (importOrder : List Group)
    (selfFile : Line)
    (hnodup : (imports.filter fun l =>
      (groupOf table selfFile (completeOrder importOrder) l).isSome).Nodup) :
    sortedBlocks table imports importOrder selfFile =
      (completeOrder importOrder).mapIdx fun i group => (group, sortLines
        (if group.isT then
          imports.filter fun l => groupOf table selfFile (completeOrder importOrder) l = none
        else (imports.filter fun l =>
          groupOf table selfFile (completeOrder importOrder) l = some i).reverse)) := by
  have hstart : ((completeOrder importOrder).map fun group => (group, ([] : List Line)), []) =
      placed table selfFile (completeOrder importOrder) [] := by
    rw [placed, Prod.mk.injEq]
    exact ⟨List.ext_getElem? fun i => by simp, rfl⟩
  have hplaced : placeImports table selfFile imports
        (placed table selfFile (completeOrder importOrder) []) =
      placed table selfFile (completeOrder importOrder) imports.reverse := by
    rw [placeImports_placed, List.append_nil]
    rw [List.append_nil, List.filter_reverse, List.nodup_reverse]
    exact hnodup
  unfold sortedBlocks
  rw [hstart, hplaced]
  refine List.ext_getElem? fun i => ?_
  simp only [placed, List.getElem?_map, List.getElem?_mapIdx, Option.map_map, Function.comp_def,
    List.filter_reverse]
  congr! 4 with group
  split_ifs with hT
  · refine List.filter_congr fun line hline => ?_
    rw [Bool.eq_iff_iff, Bool.not_eq_true', decide_eq_true_eq, Bool.eq_false_iff, Ne, member_iff,
      List.mem_reverse, List.mem_filter, and_iff_right hline, Bool.not_eq_true,
      Option.isSome_eq_false_iff, Option.isNone_iff_eq_none]
  · rfl

/-! ## The blocks of what has been sorted -/

section

variable {table : CaseTable} {imports : List Line} {importOrder : List Group} {selfFile : Line}

/-- A block has the lines of its group, sorted. -/
theorem block_spec {i : ℕ} {group : Group} {lines : List Line}
    (h : (sortedBlocks table imports importOrder selfFile)[i]? = some (group, lines)) :
    (completeOrder importOrder)[i]? = some group ∧ lines.Pairwise (fun a b => le a b) ∧
      (group.isT = false → lines.Nodup) ∧
      ∀ line, line ∈ lines ↔ line ∈ imports ∧
        groupOf table selfFile (completeOrder importOrder) line =
          if group.isT then none else some i := by
  obtain ⟨hgroup, hnodup, hmem⟩ := mem_block h
  refine ⟨hgroup, ?_, hnodup, hmem⟩
  obtain ⟨alist, used, -, heq⟩ := exists_placed table imports importOrder selfFile
  rw [heq, List.getElem?_map, Option.map_eq_some_iff] at h
  obtain ⟨entry, -, hblock⟩ := h
  rw [← (Prod.mk.inj hblock).2]
  exact sorted_sortLines _

theorem eq_of_countP_le_one {α : Type*} {p : α → Bool} {l : List α} (h : l.countP p ≤ 1) {i j : ℕ}
    {a b : α} (hi : l[i]? = some a) (ha : p a) (hj : l[j]? = some b) (hb : p b) : i = j := by
  induction l generalizing i j with
  | nil => cases hi
  | cons c l ih =>
    rw [List.countP_cons] at h
    cases i with
    | zero =>
      cases j with
      | zero => rfl
      | succ j =>
        obtain rfl := Option.some.inj hi
        have hpos : 0 < l.countP p := List.countP_pos_iff.2 ⟨b, List.mem_of_getElem? hj, hb⟩
        rw [if_pos ha] at h
        omega
    | succ i =>
      cases j with
      | zero =>
        obtain rfl := Option.some.inj hj
        have hpos : 0 < l.countP p := List.countP_pos_iff.2 ⟨a, List.mem_of_getElem? hi, ha⟩
        rw [if_pos hb] at h
        omega
      | succ j => rw [ih (by omega) hi hj]

/-- One group takes what the others leave. -/
theorem countP_completeOrder (hT : importOrder.countP Group.isT ≤ 1) :
    (completeOrder importOrder).countP Group.isT ≤ 1 := by
  unfold completeOrder
  split_ifs with hany
  · exact hT
  · have hnone : importOrder.countP Group.isT = 0 := by
      rw [List.countP_eq_zero]
      intro group hgroup hgroupT
      exact hany (List.any_eq_true.2 ⟨group, hgroup, hgroupT⟩)
    rw [List.countP_append, hnone]
    decide

/-- The lines of the sorted imports that belong into a block are those of the block. -/
theorem filter_blocks (hT : importOrder.countP Group.isT ≤ 1) {i : ℕ} {group : Group}
    {lines : List Line}
    (h : (sortedBlocks table imports importOrder selfFile)[i]? = some (group, lines)) :
    ((sortedBlocks table imports importOrder selfFile).flatMap (·.2)).filter (fun line =>
      groupOf table selfFile (completeOrder importOrder) line =
        if group.isT then none else some i) = lines := by
  obtain ⟨hgroup, -, -, hmem⟩ := block_spec h
  have hi : ((sortedBlocks table imports importOrder selfFile).map (·.2))[i]? = some lines := by
    rw [List.getElem?_map, h]
    rfl
  rw [List.flatMap_def, Grouping.filter_flatten_of_only hi, List.filter_eq_self]
  · intro line hline
    rw [decide_eq_true_eq]
    exact ((hmem line).1 hline).2
  · intro j lines' hj hne line hline
    rw [List.getElem?_map, Option.map_eq_some_iff] at hj
    obtain ⟨⟨group', ls⟩, hentry, rfl⟩ := hj
    obtain ⟨hgroup', -, -, hmem'⟩ := block_spec hentry
    rw [decide_eq_true_eq, ((hmem' line).1 hline).2]
    split_ifs with hT' hT''
    · exact fun _ => hne (eq_of_countP_le_one (countP_completeOrder hT) hgroup' hT' hgroup hT'')
    · simp
    · simp
    · simpa using hne

/-- No line that a group takes is there twice. -/
theorem nodup_blocks : (((sortedBlocks table imports importOrder selfFile).flatMap (·.2)).filter
    fun line => (groupOf table selfFile (completeOrder importOrder) line).isSome).Nodup := by
  rw [List.filter_flatMap, List.nodup_flatMap]
  constructor
  · rintro ⟨group, lines⟩ hmem
    obtain ⟨i, hi⟩ := List.getElem?_of_mem hmem
    obtain ⟨-, -, hnodup, hlines⟩ := block_spec hi
    cases hT : group.isT with
    | false => exact (hnodup hT).filter _
    | true =>
      rw [List.filter_eq_nil_iff.2]
      · exact List.nodup_nil
      · intro line hline
        rw [((hlines line).1 hline).2, if_pos hT]
        exact Bool.false_ne_true
  · rw [List.pairwise_iff_getElem]
    intro i j hi hj hlt line hline hline'
    obtain ⟨-, -, -, hlines⟩ := block_spec (List.getElem?_eq_getElem hi)
    obtain ⟨-, -, -, hlines'⟩ := block_spec (List.getElem?_eq_getElem hj)
    obtain ⟨hline, hsome⟩ := List.mem_filter.1 hline
    have hgroup := ((hlines line).1 hline).2
    have hgroup' := ((hlines' line).1 (List.mem_of_mem_filter hline')).2
    rw [hgroup] at hgroup' hsome
    split_ifs at hgroup' hsome with hT hT'
    · cases hsome
    · obtain rfl := Option.some.inj hgroup'
      exact lt_irrefl _ hlt

/-- A block turned round and sorted; the last resort keeps the order of its lines. -/
def turned (entry : Group × List Line) : Group × List Line :=
  (entry.1, if entry.1.isT then entry.2 else sortLines entry.2.reverse)

/-- **Sorted imports, sorted again**: each line is in its block again, and the blocks of the
groups have been turned round before the sort. -/
theorem sortedBlocks_again (hT : importOrder.countP Group.isT ≤ 1) :
    sortedBlocks table ((sortedBlocks table imports importOrder selfFile).flatMap (·.2))
        importOrder selfFile =
      (sortedBlocks table imports importOrder selfFile).map turned := by
  have hgroups : (sortedBlocks table imports importOrder selfFile).map Prod.fst =
      completeOrder importOrder := map_fst_sortedBlocks
  rw [sortedBlocks_eq table importOrder selfFile nodup_blocks]
  refine List.ext_getElem? fun i => ?_
  rw [List.getElem?_mapIdx, List.getElem?_map]
  conv_lhs => rw [← hgroups, List.getElem?_map, Option.map_map]
  cases hi : (sortedBlocks table imports importOrder selfFile)[i]? with
  | none => rfl
  | some entry =>
    obtain ⟨group, lines⟩ := entry
    obtain ⟨-, hsorted, -, -⟩ := block_spec hi
    have hfilter := filter_blocks hT hi
    rw [hgroups]
    simp only [turned, Option.map_some, Function.comp_apply, Option.some.injEq, Prod.mk.injEq,
      true_and]
    split_ifs at hfilter ⊢ with hgroup
    · rw [hfilter, sortLines_sorted hsorted]
    · rw [hfilter]

end

/-- The blocks, each after a blank line. -/
def separated (blocks : GroupAlist) : List (Option Line) :=
  blocks.flatMap fun (_, lines) => if lines = [] then [] else none :: lines.map some

theorem importLines_separated (blocks : GroupAlist) :
    importLines (separated blocks) = blocks.flatMap (·.2) := by
  induction blocks with
  | nil => rfl
  | cons entry blocks ih =>
    obtain ⟨group, lines⟩ := entry
    unfold importLines separated at ih ⊢
    rw [List.flatMap_cons, List.flatMap_cons, List.filterMap_append, ih]
    congr 1
    dsimp only
    split_ifs with hnil
    · exact hnil.symm
    · simp [List.filterMap_map]

theorem head_separated (blocks : GroupAlist) : ∀ line ∈ (separated blocks).head?, line = none := by
  induction blocks with
  | nil => nofun
  | cons entry blocks ih =>
    obtain ⟨group, lines⟩ := entry
    rw [separated, List.flatMap_cons]
    dsimp only
    split_ifs
    · exact ih
    · rintro line ⟨⟩
      rfl

section

variable {table : CaseTable} {imports : List Line} {importOrder : List Group} {selfFile : Line}

theorem importLines_sortImports : importLines (sortImports table imports importOrder selfFile) =
    (sortedBlocks table imports importOrder selfFile).flatMap (·.2) := by
  rw [← importLines_separated]
  have hhead := head_separated (sortedBlocks table imports importOrder selfFile)
  show importLines (separated _).tail = _
  cases hsep : separated (sortedBlocks table imports importOrder selfFile) with
  | nil => rfl
  | cons line rest =>
    rw [hsep] at hhead
    rw [hhead line rfl]
    rfl

theorem t_mem_completeOrder (importOrder : List Group) : .t ∈ completeOrder importOrder := by
  unfold completeOrder
  split_ifs with hany
  · obtain ⟨group, hgroup, hT⟩ := List.any_eq_true.1 hany
    exact (isT_iff group).1 hT ▸ hgroup
  · exact List.mem_append_right _ (List.mem_singleton_self _)

/-- **No line is lost**, and none is added. -/
theorem mem_sortImports {line : Line} :
    line ∈ importLines (sortImports table imports importOrder selfFile) ↔ line ∈ imports := by
  rw [importLines_sortImports, List.mem_flatMap]
  constructor
  · rintro ⟨⟨group, lines⟩, hentry, hline⟩
    obtain ⟨i, hi⟩ := List.getElem?_of_mem hentry
    obtain ⟨-, -, -, hmem⟩ := block_spec hi
    exact ((hmem line).1 hline).1
  · intro hline
    have hentry {i : ℕ} {group : Group} (hi : (completeOrder importOrder)[i]? = some group)
        (hgroup : groupOf table selfFile (completeOrder importOrder) line =
          if group.isT then none else some i) :
        ∃ entry ∈ sortedBlocks table imports importOrder selfFile, line ∈ entry.2 := by
      obtain ⟨lines, hlines⟩ := exists_block table imports selfFile hi
      obtain ⟨-, -, hmem⟩ := mem_block hlines
      exact ⟨_, List.mem_of_getElem? hlines, (hmem line).2 ⟨hline, hgroup⟩⟩
    cases hgroup : groupOf table selfFile (completeOrder importOrder) line with
    | none =>
      obtain ⟨i, hi⟩ := List.getElem?_of_mem (t_mem_completeOrder importOrder)
      exact hentry hi hgroup
    | some i =>
      obtain ⟨hi, htakes, -⟩ := List.findIdx?_eq_some_iff_getElem.1 hgroup
      rw [takes, Bool.and_eq_true, Bool.not_eq_true'] at htakes
      exact hentry (List.getElem?_eq_getElem hi) (by rw [htakes.1]; exact hgroup)

theorem sortImports_ne_nil (h : imports ≠ []) :
    sortImports table imports importOrder selfFile ≠ [] := by
  intro hnil
  obtain ⟨line, hline⟩ := List.exists_mem_of_ne_nil _ h
  have hmem : line ∈ importLines (sortImports table imports importOrder selfFile) :=
    mem_sortImports.2 hline
  rw [hnil] at hmem
  cases hmem

/-- The first and the last of the lines are no blanks. -/
theorem ends_of_separated (blocks : GroupAlist) : separated blocks = [] ∨
    (∃ line rest, separated blocks = none :: some line :: rest) ∧
      ∃ init line, separated blocks = init ++ [some line] := by
  induction blocks with
  | nil => exact .inl rfl
  | cons entry blocks ih =>
    obtain ⟨group, lines⟩ := entry
    rw [separated, List.flatMap_cons]
    dsimp only
    split_ifs with hnil
    · exact ih
    · obtain ⟨line, lines', rfl⟩ := List.exists_cons_of_ne_nil hnil
      refine .inr ⟨⟨line, lines'.map some ++ separated blocks, rfl⟩, ?_⟩
      rcases ih with ih | ⟨-, init, last, hlast⟩
      · rw [separated] at ih
        rw [ih, List.append_nil, ← List.dropLast_append_getLast (List.cons_ne_nil line lines')]
        exact ⟨_, _, by rw [List.map_append, List.map_singleton, ← List.cons_append]⟩
      · rw [separated] at hlast
        exact ⟨_, last, by rw [hlast, ← List.append_assoc]⟩

theorem ends_of_sortImports (h : sortImports table imports importOrder selfFile ≠ []) :
    (∃ line rest, sortImports table imports importOrder selfFile = some line :: rest) ∧
      ∃ init line, sortImports table imports importOrder selfFile = init ++ [some line] := by
  have hsort : sortImports table imports importOrder selfFile =
    (separated (sortedBlocks table imports importOrder selfFile)).tail := rfl
  rw [hsort] at h ⊢
  rcases ends_of_separated (sortedBlocks table imports importOrder selfFile) with
    hnil | ⟨⟨line, rest, hfirst⟩, init, last, hlast⟩
  · rw [hnil] at h
    exact absurd rfl h
  · refine ⟨⟨line, rest, by rw [hfirst, List.tail_cons]⟩, ?_⟩
    cases init with
    | nil =>
      rw [hlast] at hfirst
      cases hfirst
    | cons o init => exact ⟨init, last, by rw [hlast, List.cons_append, List.tail_cons]⟩

/-- The lines of a group are right as they are exactly when no two of them are ties. -/
theorem sortLines_block_iff {i : ℕ} {group : Group} {lines : List Line}
    (h : (sortedBlocks table imports importOrder selfFile)[i]? = some (group, lines))
    (hT : group.isT = false) : sortLines lines.reverse = lines ↔
      ∀ a ∈ imports, ∀ b ∈ imports,
        groupOf table selfFile (completeOrder importOrder) a = some i →
        groupOf table selfFile (completeOrder importOrder) b = some i →
        canonicalize a = canonicalize b → a = b := by
  obtain ⟨-, hsorted, hnodup, hmem⟩ := block_spec h
  rw [hT] at hmem
  rw [sortLines_reverse_iff hsorted (hnodup hT)]
  constructor
  · intro hne a ha b hb hia hib heq
    by_contra hab
    have hsymm : Std.Symm fun a b : Line => canonicalize a ≠ canonicalize b := ⟨fun _ _ h => h.symm⟩
    exact hne.forall ((hmem a).2 ⟨ha, hia⟩) ((hmem b).2 ⟨hb, hib⟩) hab heq
  · intro hsame
    refine (hnodup hT).imp_of_mem fun {a b} ha hb hab heq => hab ?_
    obtain ⟨ha, hia⟩ := (hmem a).1 ha
    obtain ⟨hb, hib⟩ := (hmem b).1 hb
    exact hsame a ha b hb hia hib heq

/-- Two sorts show the same lines when each block is the same. -/
theorem sortImports_eq_iff (hT : importOrder.countP Group.isT ≤ 1) :
    sortImports table (importLines (sortImports table imports importOrder selfFile)) importOrder
        selfFile = sortImports table imports importOrder selfFile ↔
      ∀ entry ∈ sortedBlocks table imports importOrder selfFile, turned entry = entry := by
  rw [importLines_sortImports]
  have hagain : sortedBlocks table
        ((sortedBlocks table imports importOrder selfFile).flatMap (·.2)) importOrder selfFile =
      (sortedBlocks table imports importOrder selfFile).map turned := sortedBlocks_again hT
  constructor
  · intro heq
    have hlines := congrArg importLines heq
    rw [importLines_sortImports, importLines_sortImports, hagain, List.flatMap_def,
      List.flatMap_def, List.map_map] at hlines
    have hlengths : ((sortedBlocks table imports importOrder selfFile).map
          ((·.2) ∘ turned)).map List.length =
        ((sortedBlocks table imports importOrder selfFile).map (·.2)).map List.length := by
      rw [List.map_map, List.map_map]
      refine List.map_congr_left fun entry _ => ?_
      simp only [turned, Function.comp_apply]
      split_ifs
      · rfl
      · rw [sortLines, List.length_mergeSort, List.length_reverse]
    have hsame := List.eq_iff_flatten_eq.2 ⟨hlines, hlengths⟩
    rw [List.map_inj_left] at hsame
    exact fun entry hentry => Prod.ext rfl (hsame entry hentry)
  · intro hsame
    rw [sortImports, hagain, List.map_congr_left hsame, List.map_id']
    rfl

/-- **Sorting twice**: what has been sorted stays as it is exactly when no two lines of a group
differ only in a final `;`. -/
theorem sortImports_again_iff (hT : importOrder.countP Group.isT ≤ 1) :
    sortImports table (importLines (sortImports table imports importOrder selfFile)) importOrder
        selfFile = sortImports table imports importOrder selfFile ↔
      ∀ a ∈ imports, ∀ b ∈ imports, ∀ i,
        groupOf table selfFile (completeOrder importOrder) a = some i →
        groupOf table selfFile (completeOrder importOrder) b = some i →
        canonicalize a = canonicalize b → a = b := by
  rw [sortImports_eq_iff hT]
  constructor
  · intro hsame a ha b hb i hia hib
    obtain ⟨hi, htakes, -⟩ := List.findIdx?_eq_some_iff_getElem.1 hia
    have hgroups : (sortedBlocks table imports importOrder selfFile).map Prod.fst =
        completeOrder importOrder := map_fst_sortedBlocks
    have hlt : i < (sortedBlocks table imports importOrder selfFile).length := by
      rwa [← hgroups, List.length_map] at hi
    have hentry := List.getElem?_eq_getElem hlt
    have hgroup : ((sortedBlocks table imports importOrder selfFile)[i]).1.isT = false := by
      simp only [← hgroups, List.getElem_map, takes, Bool.and_eq_true, Bool.not_eq_true'] at htakes
      exact htakes.1
    refine (sortLines_block_iff hentry hgroup).1 ?_ a ha b hb hia hib
    have hturned := congrArg Prod.snd (hsame _ (List.getElem_mem hlt))
    rwa [turned, hgroup] at hturned
  · rintro hsame ⟨group, lines⟩ hentry
    obtain ⟨i, hi⟩ := List.getElem?_of_mem hentry
    cases hT : group.isT with
    | true => rw [turned, hT]; rfl
    | false =>
      rw [turned, hT]
      exact Prod.ext rfl ((sortLines_block_iff hi hT).2 fun a ha b hb hia hib =>
        hsame a ha b hb i hia hib)

end

end EmacsConfig.ImportsSorted
