import EmacsConfig.ImportsSorted
import EmacsConfig.Lib.Lines
import Mathlib.Data.List.DropRight

/-!
# Organizing the includes of a buffer

`code-imports-organize-imports` cuts the block of import lines out of the buffer, sorts
its lines and pastes them back. The block goes from the first import line to the last line
before one that is neither an import nor blank.
-/

namespace EmacsConfig.OrganizeImports

open CodeImports ImportsSorted Lines Regexp

inductive Signal where
  | wrongTypeArgument
  | error (message : String)
  deriving DecidableEq, Repr

/-- The variables and the file that the commands work with. `makeRelative` is
`code-imports--make-relative`, and `unusedImportP` is `code-imports-unused-import-p` in a buffer
with this text, which is nil but in java-mode. The orders for Java have no `self`, which stands
for a header. -/
structure Setup where
  table : CaseTable
  javaMode : Bool
  bufferFileName : Option (List Char)
  importOrder : List Group
  java_no_self : javaMode → ∀ group ∈ importOrder, group ≠ .self
  makeRelative : List Char → CodeImports.Line
  unusedImportP : List Char → CodeImports.Line → Bool

/-- The file that `self` is looked up with; nil in java-mode, where it is not used. -/
def Setup.selfFile (cfg : Setup) : Except Signal CodeImports.Line :=
  if cfg.javaMode then .ok []
  else match cfg.bufferFileName with
    | some name => .ok (cfg.makeRelative name)
    | none => .error .wrongTypeArgument

/-- The text of the buffer after a command, and whether it has signalled. -/
structure Result where
  text : List Char
  signal : Option Signal
  deriving DecidableEq, Repr

/-! ## Lines -/

section

variable (table : CaseTable)

def startsWith : List Char → CodeImports.Line → Bool
  | [], _ => true
  | _ :: _, [] => false
  | c :: w, a :: line => same table a c && startsWith w line

/-- `code-imports-import-regex` -/
def importLine (line : CodeImports.Line) : Bool :=
  startsWith table "import".toList line || startsWith table "#include".toList line

/-- `\s` stands for a space in the string. -/
def blankLineP (line : CodeImports.Line) : Bool := line.all (· = ' ')

def validImportBlockLineP (line : CodeImports.Line) : Bool :=
  importLine table line || blankLineP line

def disrupting (line : CodeImports.Line) : Bool :=
  ["//", "/*", "#ifdef", "#else", "#endif"].any fun w => startsWith table w.toList line

def interspersed : List CodeImports.Line → Bool
  | l₁ :: l₂ :: l₃ :: lines =>
    importLine table l₁ && disrupting table l₂ && importLine table l₃ ||
      interspersed (l₂ :: l₃ :: lines)
  | _ => false

end

def linesOf (text : List Char) : List CodeImports.Line :=
  ((split '\n' text).1 ++ [(split '\n' text).2]).map (·.1)

def currentLine (z : Zipper Char) : CodeImports.Line := (z.bol '\n').after.takeWhile (· != '\n')

/-- `forward-line`, to the end of the buffer when there is no further line. -/
def forwardLine (z : Zipper Char) : Zipper Char :=
  (z.forward '\n').getD ⟨z.after.reverse ++ z.before, []⟩

/-- `(forward-line -1)`, to the beginning of the buffer from the first line. -/
def backwardLine (z : Zipper Char) : Zipper Char := (z.backward '\n').getD (z.bol '\n')

/-- The beginning of the first line that a search from the beginning of the buffer stops at. -/
def findLine (p : CodeImports.Line → Bool) (text : List Char) : Option (Zipper Char) :=
  ((linesOf text).findIdx? p).map (lineAt (split '\n' text).1 (split '\n' text).2)

/-! ## The commands -/

/-- What `code-imports--cut-imports` returns, and the text it leaves. -/
structure Cut where
  point : ℕ
  imports : List CodeImports.Line
  text : List Char
  deriving DecidableEq, Repr

/-- The first loop, which passes over the block; there are not more lines than characters. -/
def skipBlock (table : CaseTable) : ℕ → Zipper Char → Zipper Char
  | 0, z => z
  | n + 1, z =>
    if validImportBlockLineP table (currentLine z) && !z.after.isEmpty then
      skipBlock table n (forwardLine z)
    else z

/-- The second loop, back over empty lines; `none` when it has not ended. -/
def skipBack : ℕ → Zipper Char → Option (Zipper Char)
  | 0, _ => none
  | n + 1, z => if currentLine z = [] then skipBack n (backwardLine z) else some z

/-- `(split-string ... "\n" t)` -/
def splitString (s : List Char) : List CodeImports.Line := (linesOf s).filter (· ≠ [])

def cutBlock (table : CaseTable) (fuel : ℕ) (text : List Char) (start : Zipper Char) : Option Cut :=
  (skipBack fuel (backwardLine (skipBlock table text.length start))).map fun z =>
    let cutPoint := start.before.length
    let point := ((forwardLine z).bol '\n').before.length
    ⟨cutPoint, splitString ((text.take (max cutPoint point)).drop (min cutPoint point)),
      text.take (min cutPoint point) ++ text.drop (max cutPoint point)⟩

/-- `code-imports--is-dot-h-file`; in the string `\.` stands for any character. -/
def isDotHFile (cfg : Setup) (name : List Char) : Bool :=
  (linesOf name).any fun line =>
    match line.reverse with
    | h :: _ :: _ => same cfg.table h 'h'
    | _ => false

/-- The place for imports in a buffer that has none. -/
def noImports (cfg : Setup) (text : List Char) : Except Signal Cut :=
  let after (w : List Char) : Zipper Char :=
    forwardLine ((findLine (startsWith cfg.table w) text).getD ⟨[], text⟩)
  let start : Except Signal (Zipper Char) :=
    if cfg.javaMode then .ok (after "package ".toList)
    else match cfg.bufferFileName with
      | some name =>
        if isDotHFile cfg name then .ok (after "#define".toList) else .ok ⟨[], text⟩
      | none => .error .wrongTypeArgument
  start.map fun z =>
    let z := if blankLineP (currentLine z) then forwardLine z else z
    ⟨z.before.length, [], text⟩

/-- `none` is a command that does not return. -/
def cutImports (cfg : Setup) (fuel : ℕ) (text : List Char) : Option (Except Signal Cut) :=
  match findLine (importLine cfg.table) text with
  | some start => (cutBlock cfg.table fuel text start).map .ok
  | none => some (noImports cfg text)

/-- `none` is the symbol `blank`. -/
def pasteImports (text : List Char) (cutPoint : ℕ) (imports : List (Option CodeImports.Line)) :
    List Char :=
  text.take cutPoint ++ ['\n'].intercalate (imports.map (·.getD [])) ++
    '\n' :: text.drop cutPoint

/-- The lines that go into the sort; `newLines` are those of the files to add. -/
def keptLines (cfg : Setup) (text : List Char) (imports newLines : List CodeImports.Line) :
    List CodeImports.Line :=
  (imports.filter fun line => !cfg.unusedImportP text line) ++ newLines

/-- Without a name to look `self` up with, the imports have been cut out already. -/
def addImports (cfg : Setup) (fuel : ℕ) (newLines : List CodeImports.Line) (text : List Char) :
    Option Result :=
  (cutImports cfg fuel text).map fun
    | .error signal => ⟨text, some signal⟩
    | .ok cut =>
      match cfg.selfFile with
      | .error signal => ⟨cut.text, some signal⟩
      | .ok selfFile =>
        ⟨pasteImports cut.text cut.point (sortImports cfg.table
          (keptLines cfg cut.text cut.imports newLines) cfg.importOrder selfFile), none⟩

def organizeImports (cfg : Setup) (fuel : ℕ) (text : List Char) : Option Result :=
  if interspersed cfg.table (linesOf text) then
    some ⟨text, some (.error
      "Cannot manipulate imports when comments or precompiler statements are interspersed")⟩
  else addImports cfg fuel [] text

/-! ## Moving over lines -/

/-- The point at the beginning of the first line of `rest`. -/
def atLine (pre rest : List (Lines.Line '\n')) (r : Lines.Line '\n') : Zipper Char :=
  ⟨(ser pre).reverse, ser rest ++ r.1⟩

section

variable {pre rest : List (Lines.Line '\n')} {l r : Lines.Line '\n'}

theorem atLine_eq (pre rest : List (Lines.Line '\n')) (r : Lines.Line '\n') :
    atLine pre rest r = lineAt (pre ++ rest) r pre.length := by
  rw [atLine, lineAt, List.take_left, List.drop_left]

theorem bol_atLine : (atLine pre rest r).bol '\n' = atLine pre rest r := by
  rw [atLine_eq, bol_lineAt]

theorem currentLine_atLine : currentLine (atLine pre (l :: rest) r) = l.1 := by
  rw [currentLine, bol_atLine, atLine, ser, List.append_assoc, List.cons_append]
  exact (takeWhile_line l.2 _).1

theorem currentLine_last : currentLine (atLine pre [] r) = r.1 := by
  rw [currentLine, bol_atLine]
  exact (takeWhile_rest r.2).1

theorem forwardLine_atLine : forwardLine (atLine pre (l :: rest) r) = atLine (pre ++ [l]) rest r := by
  have hlt : pre.length < (pre ++ l :: rest).length := by simp
  rw [forwardLine, atLine_eq, forward_lineAt hlt, Option.getD_some, atLine_eq]
  simp

/-- The end of the buffer. -/
theorem forwardLine_last : forwardLine (atLine pre [] r) = ⟨r.1.reverse ++ (ser pre).reverse, []⟩ := by
  have hnone : (atLine pre [] r).forward '\n' = none := by
    rw [atLine_eq, List.append_nil, forward_rest]
  rw [forwardLine, hnone]
  rfl

theorem backwardLine_congr {z z' : Zipper Char} (h : z.bol '\n' = z'.bol '\n') :
    backwardLine z = backwardLine z' := by
  rw [backwardLine, backwardLine, Zipper.backward, Zipper.backward, h]

theorem backwardLine_atLine :
    backwardLine (atLine (pre ++ [l]) rest r) = atLine pre (l :: rest) r := by
  have hlt : pre.length < (pre ++ [l] ++ rest).length := by simp
  have hbol : (atLine (pre ++ [l]) rest r).bol '\n' =
      lineAt (pre ++ [l] ++ rest) r (pre.length + 1) := by
    rw [bol_atLine, atLine_eq, List.length_append, List.length_singleton]
  rw [backwardLine, backward_succ hlt hbol, Option.getD_some, atLine_eq, List.append_assoc]
  rfl

/-- From the first line there is no line before. -/
theorem backwardLine_first : backwardLine (atLine [] rest r) = atLine [] rest r := by
  have hbol : (atLine [] rest r).bol '\n' = lineAt rest r 0 := by
    rw [bol_atLine, atLine_eq]
    rfl
  rw [backwardLine, backward_zero hbol, Option.getD_none, bol_atLine]

theorem bol_end : Zipper.bol '\n' ⟨r.1.reverse ++ (ser pre).reverse, []⟩ = atLine pre [] r := by
  rw [bol_of_line (by simpa using r.2), List.reverse_reverse]
  simp [atLine, ser]

/-! ## The loops -/

theorem skipBlock_run {table : CaseTable} {run : List (Lines.Line '\n')}
    (hrun : ∀ l ∈ run, validImportBlockLineP table l.1) (n : ℕ) :
    skipBlock table (run.length + n) (atLine pre (run ++ rest) r) =
      skipBlock table n (atLine (pre ++ run) rest r) := by
  induction run generalizing pre with
  | nil => simp
  | cons l run ih =>
    rw [List.forall_mem_cons] at hrun
    have hafter : (atLine pre (l :: run ++ rest) r).after.isEmpty = false := by
      simp [atLine, ser]
    have hlen : (l :: run).length + n = run.length + n + 1 := by
      rw [List.length_cons]
      omega
    rw [hlen, skipBlock, hafter, List.cons_append, currentLine_atLine, hrun.1, forwardLine_atLine]
    simp only [Bool.not_false, Bool.and_self, if_true]
    rw [ih hrun.2, List.append_assoc, List.singleton_append]

/-- Where the first loop ends, and the line before. -/
theorem backwardLine_skipBlock {table : CaseTable}
    (hrest : ∀ l ∈ rest.head?, ¬ validImportBlockLineP table l.1) (n : ℕ) :
    backwardLine (skipBlock table n (atLine pre rest r)) = backwardLine (atLine pre rest r) := by
  cases n with
  | zero => rfl
  | succ n =>
    cases rest with
    | cons l rest =>
      have hl : validImportBlockLineP table l.1 = false := Bool.eq_false_iff.2 (hrest l rfl)
      rw [skipBlock, currentLine_atLine, hl]
      rfl
    | nil =>
      rw [skipBlock]
      split_ifs
      · have hend : ∀ n, skipBlock table n (⟨r.1.reverse ++ (ser pre).reverse, []⟩ : Zipper Char) =
            ⟨r.1.reverse ++ (ser pre).reverse, []⟩ := by
          intro n
          cases n with
          | zero => rfl
          | succ n =>
            rw [skipBlock]
            simp
        rw [forwardLine_last, hend]
        exact backwardLine_congr (bol_end.trans bol_atLine.symm)
      · rfl

/-- Back over empty lines. -/
theorem skipBack_run {run : List (Lines.Line '\n')} (hrun : ∀ l ∈ run, l.1 = []) (hl : l.1 ≠ [])
    (n : ℕ) : skipBack (run.length + 1 + n) (backwardLine (atLine (pre ++ [l] ++ run) rest r)) =
      some (atLine pre (l :: (run ++ rest)) r) := by
  induction run using List.reverseRecOn generalizing rest with
  | nil =>
    rw [List.append_nil, backwardLine_atLine, List.length_nil, Nat.zero_add, Nat.add_comm, skipBack,
      currentLine_atLine, if_neg hl, List.nil_append]
  | append_singleton run l' ih =>
    have hlen : (run ++ [l']).length + 1 + n = run.length + 1 + n + 1 := by
      rw [List.length_append, List.length_singleton]
      omega
    rw [← List.append_assoc, backwardLine_atLine, hlen, skipBack, currentLine_atLine,
      if_pos (hrun l' (by simp)), ih fun l hl => hrun l (List.mem_append_left _ hl)]
    simp

/-- Back over nothing but empty lines the loop does not end. -/
theorem skipBack_forever {run : List (Lines.Line '\n')} (hrun : ∀ l ∈ run, l.1 = []) (hl : l.1 = [])
    (n : ℕ) : skipBack n (atLine run (l :: rest) r) = none := by
  induction n generalizing run l rest with
  | zero => rfl
  | succ n ih =>
    rw [skipBack, currentLine_atLine, if_pos hl]
    rcases run.eq_nil_or_concat with rfl | ⟨run, l', rfl⟩
    · rw [backwardLine_first]
      exact ih hrun hl
    · rw [List.concat_eq_append] at hrun ⊢
      rw [backwardLine_atLine]
      exact ih (fun k hk => hrun k (List.mem_append_left _ hk)) (hrun l' (by simp))

end

/-! ## The block -/

/-- The lines of a text around its import block. -/
structure Block (table : CaseTable) (ls pre block blanks post : List (Lines.Line '\n')) : Prop where
  eq : ls = pre ++ (block ++ (blanks ++ post))
  pre : ∀ l ∈ pre, ¬ importLine table l.1
  first : ∃ l ls', block = l :: ls' ∧ importLine table l.1
  valid : ∀ l ∈ block, validImportBlockLineP table l.1
  last : ∃ ls' l, block = ls' ++ [l] ∧ l.1 ≠ []
  blanks : ∀ l ∈ blanks, l.1 = []
  post : ∀ l ∈ post.head?, ¬ validImportBlockLineP table l.1

theorem blankLineP_nil : blankLineP [] = true := rfl

theorem not_importLine_nil (table : CaseTable) : ¬ importLine table [] := Bool.false_ne_true

theorem exists_block {table : CaseTable} {ls : List (Lines.Line '\n')}
    (h : ∃ l ∈ ls, importLine table l.1) :
    ∃ pre block blanks post, Block table ls pre block blanks post := by
  obtain ⟨l, hl, himport⟩ := h
  set rest := ls.dropWhile fun l => !importLine table l.1 with hrest
  have hne : rest ≠ [] := by
    intro hnil
    rw [hrest, List.dropWhile_eq_nil_iff] at hnil
    have := hnil l hl
    rw [himport] at this
    cases this
  obtain ⟨b, bs, hb⟩ := List.exists_cons_of_ne_nil hne
  have hfirst : importLine table b.1 := by
    have := List.head?_dropWhile_not (fun l : Lines.Line '\n' => !importLine table l.1) ls
    rw [← hrest, hb] at this
    simpa using this
  set run := rest.takeWhile fun l => validImportBlockLineP table l.1 with hrun
  have hrunb : run = b :: bs.takeWhile fun l => validImportBlockLineP table l.1 := by
    rw [hrun, hb, List.takeWhile_cons_of_pos]
    rw [validImportBlockLineP, hfirst]
    rfl
  have hblock : run.rdropWhile (fun l => decide (l.1 = [])) ≠ [] := by
    rw [Ne, List.rdropWhile_eq_nil_iff]
    intro hall
    have hnil := hall b (by rw [hrunb]; exact List.mem_cons_self)
    rw [decide_eq_true_eq] at hnil
    rw [hnil] at hfirst
    exact not_importLine_nil table hfirst
  have hbegin := List.rdropWhile_prefix (fun l : Lines.Line '\n' => decide (l.1 = [])) (l := run)
  refine ⟨ls.takeWhile fun l => !importLine table l.1, run.rdropWhile fun l => l.1 = [],
    run.rtakeWhile fun l => l.1 = [], rest.dropWhile fun l => validImportBlockLineP table l.1,
    ⟨?_, ?_, ?_, ?_, ?_, ?_, ?_⟩⟩
  · rw [← List.append_assoc (run.rdropWhile _), List.rdropWhile_append_rtakeWhile,
      List.takeWhile_append_dropWhile, hrest, List.takeWhile_append_dropWhile]
  · intro l hl
    have := List.mem_takeWhile_imp hl
    simpa using this
  · rw [hrunb, List.prefix_cons_iff, ← hrunb] at hbegin
    obtain ⟨ls', hls', -⟩ := hbegin.resolve_left hblock
    exact ⟨b, ls', hls', hfirst⟩
  · intro l hl
    have := List.mem_takeWhile_imp (hbegin.subset hl)
    exact this
  · have hlast := List.rdropWhile_last_not (fun l : Lines.Line '\n' => decide (l.1 = [])) run hblock
    exact ⟨_, _, (List.dropLast_append_getLast hblock).symm, by simpa using hlast⟩
  · intro l hl
    have := List.mem_rtakeWhile_imp hl
    simpa using this
  · intro l hl
    have := List.head?_dropWhile_not (fun l : Lines.Line '\n' => validImportBlockLineP table l.1) rest
    rw [hl] at this
    simpa using this

theorem length_le_ser (ls : List (Lines.Line '\n')) : ls.length ≤ (ser ls).length := by
  induction ls with
  | nil => exact le_rfl
  | cons l ls ih =>
    rw [ser, List.length_cons, List.length_append, List.length_cons]
    omega

theorem linesOf_join (ls : List (Lines.Line '\n')) (r : Lines.Line '\n') :
    linesOf (ser ls ++ r.1) = (ls ++ [r]).map (·.1) := by
  rw [linesOf, split_join]

theorem splitString_ser (ls : List (Lines.Line '\n')) :
    splitString (ser ls) = (ls.map (·.1)).filter (· ≠ []) := by
  have hjoin : ser ls = ser ls ++ (Lines.Line.empty : Lines.Line '\n').1 := by simp [Line.empty]
  rw [splitString, hjoin, linesOf_join, List.map_append, List.filter_append, List.map_singleton,
    List.filter_singleton]
  simp [Line.empty]

section

variable {table : CaseTable} {ls pre block blanks post : List (Lines.Line '\n')}

theorem Block.findLine (h : Block table ls pre block blanks post) (r : Lines.Line '\n') :
    findLine (importLine table) (ser ls ++ r.1) =
      some (atLine pre (block ++ (blanks ++ post)) r) := by
  obtain ⟨l, ls', rfl, hl⟩ := h.first
  have hpre : (pre.map (·.1)).findIdx? (importLine table) = none := by
    rw [List.findIdx?_eq_none_iff]
    intro line hline
    obtain ⟨k, hk, rfl⟩ := List.mem_map.1 hline
    exact Bool.eq_false_iff.2 (h.pre k hk)
  have hidx : ((ls ++ [r]).map (·.1)).findIdx? (importLine table) = some pre.length := by
    rw [h.eq, List.append_assoc, List.map_append, List.findIdx?_append, hpre, List.cons_append,
      List.cons_append, List.map_cons, List.findIdx?_cons, if_pos hl]
    simp
  rw [OrganizeImports.findLine, linesOf_join, hidx, split_join, Option.map_some, atLine_eq, h.eq]

/-- **The loops** end behind the last line of the block that is not empty. -/
theorem Block.loops (h : Block table ls pre block blanks post) (r : Lines.Line '\n') {n fuel : ℕ}
    (hn : block.length + blanks.length ≤ n) (hfuel : blanks.length < fuel) :
    (skipBack fuel (backwardLine (skipBlock table n (atLine pre (block ++ (blanks ++ post)) r)))).map
        (fun z => (forwardLine z).bol '\n') = some (atLine (pre ++ block) (blanks ++ post) r) := by
  have hvalid : ∀ l ∈ block ++ blanks, validImportBlockLineP table l.1 := by
    intro l hl
    rcases List.mem_append.1 hl with hl | hl
    · exact h.valid l hl
    · rw [h.blanks l hl, validImportBlockLineP, blankLineP_nil, Bool.or_true]
  obtain ⟨n, rfl⟩ := Nat.exists_eq_add_of_le hn
  obtain ⟨m, rfl⟩ : ∃ m, fuel = blanks.length + 1 + m := Nat.exists_eq_add_of_le hfuel
  rw [← List.append_assoc block, ← List.length_append, skipBlock_run hvalid,
    backwardLine_skipBlock h.post]
  obtain ⟨ls', l, rfl, hl⟩ := h.last
  rw [← List.append_assoc, ← List.append_assoc, skipBack_run h.blanks hl, Option.map_some,
    forwardLine_atLine, bol_atLine]

theorem Block.cutImports {cfg : Setup} (h : Block cfg.table ls pre block blanks post)
    (r : Lines.Line '\n') {fuel : ℕ} (hfuel : blanks.length < fuel) :
    cutImports cfg fuel (ser ls ++ r.1) = some (.ok ⟨(ser pre).length,
      (block.map (·.1)).filter (· ≠ []), ser pre ++ (ser (blanks ++ post) ++ r.1)⟩) := by
  have htext : ser ls ++ r.1 = ser pre ++ (ser block ++ (ser (blanks ++ post) ++ r.1)) := by
    rw [h.eq, ser_append, ser_append, List.append_assoc, List.append_assoc]
  have hlen : block.length + blanks.length ≤ (ser ls ++ r.1).length := by
    have := length_le_ser ls
    have hls := congrArg List.length h.eq
    simp only [List.length_append] at hls ⊢
    omega
  have hloops := h.loops r hlen hfuel
  rw [Option.map_eq_some_iff] at hloops
  obtain ⟨z, hz, hpoint⟩ := hloops
  have hbeg : (atLine pre (block ++ (blanks ++ post)) r).before.length = (ser pre).length := by
    rw [atLine, List.length_reverse]
  have hend : (atLine (pre ++ block) (blanks ++ post) r).before.length =
      (ser pre).length + (ser block).length := by
    rw [atLine, List.length_reverse, ser_append, List.length_append]
  rw [OrganizeImports.cutImports, h.findLine r]
  simp only [cutBlock, hz, Option.map_some, hpoint, hbeg, hend]
  rw [max_eq_right (by omega), min_eq_left (by omega), htext, List.take_length_add_append,
    List.take_left, List.drop_left, List.take_left, splitString_ser, ← List.drop_drop,
    List.drop_left, List.drop_left]

end

/-! ## The lines pasted -/

/-- The lines that are inserted for the sorted imports. -/
def pastedLines (sorted : List (Option CodeImports.Line)) : List CodeImports.Line :=
  if sorted = [] then [[]] else sorted.map (·.getD [])

theorem intercalate_eq_ser {ms : List (Lines.Line '\n')} (hne : ms ≠ []) :
    ['\n'].intercalate (ms.map (·.1)) ++ ['\n'] = ser ms := by
  induction ms with
  | nil => exact absurd rfl hne
  | cons m ms ih =>
    cases ms with
    | nil => simp [ser, List.intercalate]
    | cons m' ms =>
      rw [ser, ← ih (List.cons_ne_nil _ _)]
      simp [List.intercalate]

theorem exists_lines {xs : List CodeImports.Line} (h : ∀ line ∈ xs, '\n' ∉ line) :
    ∃ ms : List (Lines.Line '\n'), ms.map (·.1) = xs := by
  induction xs with
  | nil => exact ⟨[], rfl⟩
  | cons x xs ih =>
    rw [List.forall_mem_cons] at h
    obtain ⟨ms, hms⟩ := ih h.2
    exact ⟨⟨x, h.1⟩ :: ms, congrArg (x :: ·) hms⟩

theorem intercalate_pasted {sorted : List (Option CodeImports.Line)} {ms : List (Lines.Line '\n')}
    (hms : ms.map (·.1) = pastedLines sorted) :
    ['\n'].intercalate (sorted.map (·.getD [])) ++ ['\n'] = ser ms := by
  unfold pastedLines at hms
  split_ifs at hms with hnil
  · obtain ⟨m, rfl, hm⟩ := List.map_eq_singleton_iff.1 hms
    rw [hnil, ser, ser, hm]
    rfl
  · rw [← hms, intercalate_eq_ser]
    rintro rfl
    exact hnil (List.map_eq_nil_iff.1 hms.symm)

section

variable {cfg : Setup} {ls pre block blanks post ms : List (Lines.Line '\n')}
  {newLines : List CodeImports.Line} {selfFile : CodeImports.Line}

/-- What stands around the block. -/
def around (pre blanks post : List (Lines.Line '\n')) (r : Lines.Line '\n') : List Char :=
  ser pre ++ (ser (blanks ++ post) ++ r.1)

/-- **Adding imports** replaces the block and nothing else. -/
theorem Block.addImports (h : Block cfg.table ls pre block blanks post) (r : Lines.Line '\n')
    (hself : cfg.selfFile = .ok selfFile)
    (hms : ms.map (·.1) = pastedLines (sortImports cfg.table
      (keptLines cfg (around pre blanks post r) ((block.map (·.1)).filter (· ≠ [])) newLines)
      cfg.importOrder selfFile))
    {fuel : ℕ} (hfuel : blanks.length < fuel) :
    addImports cfg fuel newLines (ser ls ++ r.1) =
      some ⟨ser (pre ++ (ms ++ (blanks ++ post))) ++ r.1, none⟩ := by
  have hbehind : ser (ms ++ (blanks ++ post)) = ser ms ++ ser (blanks ++ post) := ser_append ms _
  rw [OrganizeImports.addImports, h.cutImports r hfuel, Option.map_some]
  simp only [hself, Option.some.injEq, Result.mk.injEq, and_true]
  rw [pasteImports, List.take_left, List.drop_left, ser_append pre, hbehind,
    ← intercalate_pasted hms]
  simp only [around, List.append_assoc, List.cons_append, List.nil_append]

theorem exists_pasted (cfg : Setup) (selfFile : CodeImports.Line) (text : List Char)
    (block : List (Lines.Line '\n')) (newLines : List CodeImports.Line) (hnew : ∀ line ∈ newLines, '\n' ∉ line) :
    ∃ ms : List (Lines.Line '\n'), ms.map (·.1) = pastedLines (sortImports cfg.table
      (keptLines cfg text ((block.map (·.1)).filter (· ≠ [])) newLines)
      cfg.importOrder selfFile) := by
  refine exists_lines fun line hline => ?_
  unfold pastedLines at hline
  split_ifs at hline
  · rw [List.mem_singleton] at hline
    simp [hline]
  · obtain ⟨o, ho, rfl⟩ := List.mem_map.1 hline
    cases o with
    | none => simp
    | some line =>
      have hmem : line ∈ importLines (sortImports cfg.table _ cfg.importOrder selfFile) :=
        List.mem_filterMap.2 ⟨some line, ho, rfl⟩
      rw [mem_sortImports, keptLines, List.mem_append] at hmem
      rcases hmem with hmem | hmem
      · obtain ⟨l, -, rfl⟩ := List.mem_map.1 (List.mem_of_mem_filter (List.mem_of_mem_filter hmem))
        exact l.2
      · exact hnew line hmem

end

theorem mem_pastedLines {sorted : List (Option CodeImports.Line)} {line : CodeImports.Line}
    (hne : line ≠ []) : line ∈ pastedLines sorted ↔ line ∈ importLines sorted := by
  have hlines : ∀ sorted : List (Option CodeImports.Line),
      line ∈ sorted.map (·.getD []) ↔ line ∈ importLines sorted := by
    intro sorted
    rw [List.mem_map, importLines, List.mem_filterMap]
    constructor
    · rintro ⟨o, ho, rfl⟩
      cases o with
      | none => exact absurd rfl hne
      | some line => exact ⟨some line, ho, rfl⟩
    · rintro ⟨o, ho, rfl⟩
      exact ⟨_, ho, rfl⟩
  unfold pastedLines
  split_ifs with hnil
  · rw [hnil]
    simpa [importLines] using hne
  · exact hlines sorted

theorem blanks_length_lt {table : CaseTable} {ls pre block blanks post : List (Lines.Line '\n')}
    (h : Block table ls pre block blanks post) (r : Lines.Line '\n') {fuel : ℕ}
    (hfuel : (ser ls ++ r.1).length < fuel) : blanks.length < fuel := by
  have hls := congrArg List.length h.eq
  have hser := length_le_ser ls
  simp only [List.length_append] at hls hfuel
  omega

section

variable {table : CaseTable}

/-- Up to the first import line nothing is interspersed. -/
theorem interspersed_append {xs ys : List CodeImports.Line}
    (hxs : ∀ line ∈ xs, ¬ importLine table line) :
    interspersed table (xs ++ ys) = interspersed table ys := by
  induction xs with
  | nil => rfl
  | cons x xs ih =>
    rw [List.forall_mem_cons] at hxs
    have hx : importLine table x = false := Bool.eq_false_iff.2 hxs.1
    rw [← ih hxs.2, List.cons_append]
    rcases xs ++ ys with - | ⟨l₂, - | ⟨l₃, lines⟩⟩
    · rfl
    · rfl
    · rw [interspersed, hx, Bool.false_and, Bool.false_and, Bool.false_or]

/-- A block with no comments in it matters for its last line alone. -/
theorem interspersed_block {xs ys : List CodeImports.Line} {line : CodeImports.Line}
    (hxs : ∀ line ∈ xs, ¬ disrupting table line) (hline : ¬ disrupting table line) :
    interspersed table (xs ++ line :: ys) = interspersed table (line :: ys) := by
  induction xs with
  | nil => rfl
  | cons x xs ih =>
    rw [List.forall_mem_cons] at hxs
    rw [← ih hxs.2, List.cons_append]
    have hsecond : ∀ l ∈ (xs ++ line :: ys).head?, disrupting table l = false := by
      intro l hl
      cases xs with
      | nil =>
        obtain rfl := Option.some.inj hl
        exact Bool.eq_false_iff.2 hline
      | cons x' xs =>
        obtain rfl := Option.some.inj hl
        exact Bool.eq_false_iff.2 (hxs.2 _ List.mem_cons_self)
    rcases hys : xs ++ line :: ys with - | ⟨l₂, - | ⟨l₃, lines⟩⟩
    · rfl
    · rfl
    · rw [hys] at hsecond
      rw [interspersed, hsecond l₂ rfl, Bool.and_false, Bool.false_and, Bool.false_or]

theorem interspersed_congr {line line' : CodeImports.Line} (ys : List CodeImports.Line)
    (h : importLine table line = importLine table line') :
    interspersed table (line :: ys) = interspersed table (line' :: ys) := by
  rcases ys with - | ⟨l₂, - | ⟨l₃, lines⟩⟩
  · rfl
  · rfl
  · rw [interspersed, interspersed, h]

/-- Two words at the beginning of one line. -/
theorem startsWith_both {v w : List Char} {line : CodeImports.Line} (hv : startsWith table v line)
    (hw : startsWith table w line) : (v.zip w).all fun c => same table c.1 c.2 := by
  induction line generalizing v w with
  | nil =>
    cases v with
    | nil => rfl
    | cons c v => cases hv
  | cons a line ih =>
    cases v with
    | nil => rfl
    | cons c v =>
      cases w with
      | nil => rfl
      | cons d w =>
        rw [startsWith, Bool.and_eq_true] at hv hw
        rw [List.zip_cons_cons, List.all_cons, Bool.and_eq_true]
        refine ⟨?_, ih hv.2 hw.2⟩
        exact decide_eq_true ((of_decide_eq_true hv.1).symm.trans (of_decide_eq_true hw.1))

theorem not_disrupting_of_import {line : CodeImports.Line} (h : importLine table line) :
    ¬ disrupting table line := by
  intro hdis
  obtain ⟨w, hw, hstarts⟩ := List.any_eq_true.1 hdis
  -- two letters of a word and the other are no cases of each other
  have hwords : ∀ v ∈ ["import", "#include"], ∀ w ∈ ["//", "/*", "#ifdef", "#else", "#endif"],
      (v.toList.zip w.toList).any fun c =>
        c.1.toNat < 128 ∧ c.2.toNat < 128 ∧ c.1.toLower ≠ c.2.toLower := by
    decide
  have hv : ∃ v ∈ ["import", "#include"], startsWith table v.toList line := by
    rw [importLine, Bool.or_eq_true] at h
    rcases h with h | h
    · exact ⟨_, List.mem_cons_self, h⟩
    · exact ⟨_, List.mem_cons_of_mem _ List.mem_cons_self, h⟩
  obtain ⟨v, hv, hstarts'⟩ := hv
  obtain ⟨c, hc, hne⟩ := List.any_eq_true.1 (hwords v hv w hw)
  obtain ⟨h1, h2, hlower⟩ := of_decide_eq_true hne
  have hsame := List.all_eq_true.1 (startsWith_both hstarts' hstarts) c hc
  exact hlower (table.toLower_of_fold c.1 c.2 h1 h2 (of_decide_eq_true hsame))

theorem not_disrupting_nil : ¬ disrupting table [] := Bool.false_ne_true

end

section

variable {cfg : Setup} {ls : List (Lines.Line '\n')} {r : Lines.Line '\n'}

theorem organizeImports_eq_none {fuel : ℕ} {text : List Char} : organizeImports cfg fuel text = none ↔
    interspersed cfg.table (linesOf text) = false ∧ cutImports cfg fuel text = none := by
  unfold organizeImports addImports
  split_ifs with h
  · simp [h]
  · simp [h]

theorem cutImports_none {text : List Char} (h : ∀ line ∈ linesOf text, ¬ importLine cfg.table line)
    (fuel : ℕ) : cutImports cfg fuel text = some (noImports cfg text) := by
  have hidx : (linesOf text).findIdx? (importLine cfg.table) = none := by
    rw [List.findIdx?_eq_none_iff]
    exact fun line hline => Bool.eq_false_iff.2 (h line hline)
  rw [cutImports, findLine, hidx, Option.map_none]

/-- The only import is what follows the last newline: the first loop ends where it began. -/
theorem cutImports_last (hls : ∀ l ∈ ls, ¬ importLine cfg.table l.1)
    (hr : importLine cfg.table r.1) (fuel : ℕ) :
    cutImports cfg fuel (ser ls ++ r.1) = none ↔
      skipBack fuel (backwardLine (atLine ls [] r)) = none := by
  have hpre : (ls.map (·.1)).findIdx? (importLine cfg.table) = none := by
    rw [List.findIdx?_eq_none_iff]
    intro line hline
    obtain ⟨k, hk, rfl⟩ := List.mem_map.1 hline
    exact Bool.eq_false_iff.2 (hls k hk)
  have hidx : ((ls ++ [r]).map (·.1)).findIdx? (importLine cfg.table) = some ls.length := by
    rw [List.map_append, List.findIdx?_append, hpre, List.map_singleton, List.findIdx?_singleton,
      if_pos hr]
    simp
  have hstart : findLine (importLine cfg.table) (ser ls ++ r.1) = some (atLine ls [] r) := by
    rw [findLine, linesOf_join, hidx, split_join, Option.map_some, atLine_eq, List.append_nil]
  rw [cutImports, hstart]
  show Option.map _ (Option.map _ _) = none ↔ _
  rw [Option.map_eq_none_iff, Option.map_eq_none_iff, backwardLine_skipBlock]
  nofun

theorem exists_last_line (h : ∃ l ∈ ls, l.1 ≠ []) :
    ∃ pre l run, ls = pre ++ [l] ++ run ∧ l.1 ≠ [] ∧ ∀ k ∈ run, k.1 = [] := by
  induction ls using List.reverseRecOn with
  | nil =>
    obtain ⟨l, hl, -⟩ := h
    cases hl
  | append_singleton ls l ih =>
    by_cases hl : l.1 = []
    · have h' : ∃ k ∈ ls, k.1 ≠ [] := by
        obtain ⟨k, hk, hne⟩ := h
        rcases List.mem_append.1 hk with hk | hk
        · exact ⟨k, hk, hne⟩
        · obtain rfl := List.mem_singleton.1 hk
          exact absurd hl hne
      obtain ⟨pre, k, run, rfl, hk, hrun⟩ := ih h'
      refine ⟨pre, k, run ++ [l], by rw [← List.append_assoc], hk, fun j hj => ?_⟩
      rcases List.mem_append.1 hj with hj | hj
      · exact hrun j hj
      · obtain rfl := List.mem_singleton.1 hj
        exact hl
    · exact ⟨ls, l, [], (List.append_nil _).symm, hl, nofun⟩

/-- **The command that does not return**: it goes round for ever exactly when the only import is
what follows the last newline, and nothing but empty lines stand before it. -/
theorem organize_never_returns_iff (cfg : Setup) (text : List Char) :
    (∀ fuel, organizeImports cfg fuel text = none) ↔
      importLine cfg.table (split '\n' text).2.1 ∧ (split '\n' text).1 ≠ [] ∧
        ∀ l ∈ (split '\n' text).1, l.1 = [] := by
  have hjoin := join_split '\n' text
  generalize (split '\n' text).1 = ls at hjoin ⊢
  generalize (split '\n' text).2 = r at hjoin ⊢
  subst hjoin
  simp only [organizeImports_eq_none]
  by_cases himport : ∃ l ∈ ls, importLine cfg.table l.1
  · -- the block ends with a line that is not empty
    constructor
    · intro hnone
      obtain ⟨pre, block, blanks, post, h⟩ := exists_block himport
      have hcut := (hnone (blanks.length + 1)).2
      rw [h.cutImports r (Nat.lt_succ_self _)] at hcut
      cases hcut
    · rintro ⟨-, -, hempty⟩
      obtain ⟨l, hl, himport⟩ := himport
      rw [hempty l hl] at himport
      exact absurd himport (not_importLine_nil _)
  · push Not at himport
    by_cases hr : importLine cfg.table r.1
    · have hr' : r.1 ≠ [] := by
        intro hnil
        rw [hnil] at hr
        exact not_importLine_nil _ hr
      simp only [cutImports_last himport hr]
      constructor
      · intro hnone
        refine ⟨hr, ?_, ?_⟩
        · rintro rfl
          have hstop := (hnone 1).2
          rw [backwardLine_first, skipBack, currentLine_last, if_neg hr'] at hstop
          cases hstop
        · by_contra hempty
          push Not at hempty
          obtain ⟨pre, l, run, hls, hl, hrun⟩ := exists_last_line hempty
          have hstop := (hnone (run.length + 1 + 0)).2
          rw [hls, skipBack_run hrun hl] at hstop
          cases hstop
      · rintro ⟨-, hne, hempty⟩ fuel
        refine ⟨?_, ?_⟩
        · rw [linesOf_join, List.map_append, interspersed_append]
          · rfl
          · intro line hline
            obtain ⟨k, hk, rfl⟩ := List.mem_map.1 hline
            exact himport k hk
        · obtain ⟨run, l, rfl⟩ := List.eq_nil_or_concat ls |>.resolve_left hne
          rw [List.concat_eq_append] at hempty ⊢
          rw [backwardLine_atLine]
          exact skipBack_forever (fun k hk => hempty k (List.mem_append_left _ hk))
            (hempty l (by simp)) fuel
    · constructor
      · intro hnone
        have hcut := (hnone 0).2
        rw [cutImports_none] at hcut
        · cases hcut
        · intro line hline
          rw [linesOf_join, List.map_append, List.mem_append, List.map_singleton,
            List.mem_singleton] at hline
          rcases hline with hline | rfl
          · obtain ⟨k, hk, rfl⟩ := List.mem_map.1 hline
            exact himport k hk
          · exact hr
      · rintro ⟨hr', -, -⟩
        exact absurd hr' hr

end

/-! ## Organizing twice -/

section

variable {cfg : Setup} {ls pre block blanks post ms : List (Lines.Line '\n')}
  {selfFile : CodeImports.Line}

theorem pasted_import {imports : List CodeImports.Line} {l : Lines.Line '\n'}
    (himports : ∀ line ∈ imports, importLine cfg.table line)
    (hms : ms.map (·.1) =
      pastedLines (sortImports cfg.table imports cfg.importOrder selfFile))
    (hl : l ∈ ms) (hne : l.1 ≠ []) : importLine cfg.table l.1 := by
  have hmem : l.1 ∈ ms.map (·.1) := List.mem_map.2 ⟨l, hl, rfl⟩
  rw [hms, mem_pastedLines hne, mem_sortImports] at hmem
  exact himports _ hmem

/-- What is pasted is a block again. -/
theorem Block.pasted {imports : List CodeImports.Line} (h : Block cfg.table ls pre block blanks post)
    (himports : ∀ line ∈ imports, importLine cfg.table line) (hne : imports ≠ [])
    (hms : ms.map (·.1) =
      pastedLines (sortImports cfg.table imports cfg.importOrder selfFile)) :
    Block cfg.table (pre ++ (ms ++ (blanks ++ post))) pre ms blanks post := by
  have hsorted : sortImports cfg.table imports cfg.importOrder selfFile ≠ [] :=
    sortImports_ne_nil hne
  have hmap := hms
  rw [pastedLines, if_neg hsorted] at hmap
  obtain ⟨⟨line, rest, hfirst⟩, init, line', hlast⟩ := ends_of_sortImports hsorted
  have hmem : ∀ line, some line ∈ sortImports cfg.table imports cfg.importOrder selfFile →
      importLine cfg.table line := by
    intro line hline
    exact himports line (mem_sortImports.1 (List.mem_filterMap.2 ⟨_, hline, rfl⟩))
  refine ⟨rfl, h.pre, ?_, fun l hl => ?_, ?_, h.blanks, h.post⟩
  · rw [hfirst, List.map_cons] at hmap
    obtain ⟨m, ms', rfl, hm, -⟩ := List.map_eq_cons_iff.1 hmap
    refine ⟨m, ms', rfl, ?_⟩
    rw [hm]
    exact hmem line (by rw [hfirst]; exact List.mem_cons_self)
  · rw [validImportBlockLineP]
    by_cases hnil : l.1 = []
    · rw [hnil, blankLineP_nil, Bool.or_true]
    · rw [pasted_import himports hms hl hnil, Bool.true_or]
  · rw [hlast, List.map_append] at hmap
    obtain ⟨ms', last, rfl, -, hsingle⟩ := List.map_eq_append_iff.1 hmap
    obtain ⟨m, rfl, hm⟩ := List.map_eq_singleton_iff.1 hsingle
    refine ⟨ms', m, rfl, fun hnil => not_importLine_nil cfg.table ?_⟩
    rw [← hnil, hm]
    exact hmem line' (by rw [hlast]; exact List.mem_append_right _ List.mem_cons_self)

/-- Of the block its last line counts. -/
theorem Block.interspersed (h : Block cfg.table ls pre block blanks post)
    (hblock : ∀ l ∈ block, l.1 ≠ [] → importLine cfg.table l.1) (ys : List CodeImports.Line) :
    ∃ line, importLine cfg.table line ∧ interspersed cfg.table (ls.map (·.1) ++ ys) =
      interspersed cfg.table (line :: ((blanks ++ post).map (·.1) ++ ys)) := by
  have hnot : ∀ l ∈ block, ¬ disrupting cfg.table l.1 := by
    intro l hl
    by_cases hnil : l.1 = []
    · rw [hnil]
      exact not_disrupting_nil
    · exact not_disrupting_of_import (hblock l hl hnil)
  have hpre : ∀ line ∈ pre.map (·.1), ¬ importLine cfg.table line := by
    intro line hline
    obtain ⟨l, hl, rfl⟩ := List.mem_map.1 hline
    exact h.pre l hl
  obtain ⟨ls', last, rfl, hlast⟩ := h.last
  have hsplit : ls.map (·.1) ++ ys =
      pre.map (·.1) ++ (ls'.map (·.1) ++ last.1 :: ((blanks ++ post).map (·.1) ++ ys)) := by
    rw [h.eq]
    simp
  refine ⟨last.1, hblock last (by simp) hlast, ?_⟩
  rw [hsplit, interspersed_append hpre, interspersed_block _ (hnot last (by simp))]
  intro line hline
  obtain ⟨l, hl, rfl⟩ := List.mem_map.1 hline
  exact hnot l (List.mem_append_left _ hl)

/-- Organizing does not bring about comments between imports. -/
theorem Block.interspersed_pasted (h : Block cfg.table ls pre block blanks post)
    (h' : Block cfg.table (pre ++ (ms ++ (blanks ++ post))) pre ms blanks post)
    (hblock : ∀ l ∈ block, l.1 ≠ [] → importLine cfg.table l.1)
    (hms : ∀ l ∈ ms, l.1 ≠ [] → importLine cfg.table l.1) (r : Lines.Line '\n') :
    OrganizeImports.interspersed cfg.table
        (linesOf (ser (pre ++ (ms ++ (blanks ++ post))) ++ r.1)) =
      OrganizeImports.interspersed cfg.table (linesOf (ser ls ++ r.1)) := by
  obtain ⟨line, hline, heq⟩ := h.interspersed hblock [r.1]
  obtain ⟨line', hline', heq'⟩ := h'.interspersed hms [r.1]
  have hlines : ∀ ks : List (Lines.Line '\n'),
      linesOf (ser ks ++ r.1) = ks.map (·.1) ++ [r.1] := by
    intro ks
    rw [linesOf_join, List.map_append, List.map_singleton]
  rw [hlines, hlines, heq, heq']
  exact interspersed_congr _ (hline'.trans hline.symm)

/-- The lines that are blanks in what is sorted, told from the lines. -/
def unpaste (line : CodeImports.Line) : Option CodeImports.Line := if line = [] then none else some line

theorem map_unpaste {sorted : List (Option CodeImports.Line)} (hne : sorted ≠ [])
    (h : ∀ line ∈ importLines sorted, line ≠ []) : (pastedLines sorted).map unpaste = sorted := by
  rw [pastedLines, if_neg hne, List.map_map]
  refine (List.map_congr_left fun o ho => ?_).trans (List.map_id _)
  cases o with
  | none => rfl
  | some line =>
    have hline : line ≠ [] := h line (List.mem_filterMap.2 ⟨_, ho, rfl⟩)
    show unpaste line = some line
    rw [unpaste, if_neg hline]

/-- Organizing again sorts the lines that were pasted. -/
theorem filter_pastedLines {sorted : List (Option CodeImports.Line)}
    (h : ∀ line ∈ importLines sorted, line ≠ []) :
    (pastedLines sorted).filter (· ≠ []) = importLines sorted := by
  by_cases hne : sorted = []
  · rw [hne]
    rfl
  · have hmap := map_unpaste hne h
    have hlines : importLines ((pastedLines sorted).map unpaste) =
        (pastedLines sorted).filter (· ≠ []) := by
      induction pastedLines sorted with
      | nil => rfl
      | cons line lines ih =>
        rw [importLines] at ih ⊢
        by_cases hline : line = []
        · subst hline
          simpa [unpaste] using ih
        · simpa [unpaste, hline] using ih
    rw [← hlines, hmap]

/-- What organizing again does to what has been pasted. -/
theorem Block.organizes_again {imports : List CodeImports.Line} {r : Lines.Line '\n'} {fuel : ℕ}
    (h : Block cfg.table (pre ++ (ms ++ (blanks ++ post))) pre ms blanks post)
    (hself : cfg.selfFile = .ok selfFile) (hlines : ∀ line ∈ imports, importLine cfg.table line) (hne : imports ≠ [])
    (hused : ∀ line ∈ imports, ¬ cfg.unusedImportP (around pre blanks post r) line)
    (hms : ms.map (·.1) =
      pastedLines (sortImports cfg.table imports cfg.importOrder selfFile))
    (hfuel : blanks.length < fuel) :
    OrganizeImports.addImports cfg fuel [] (ser (pre ++ (ms ++ (blanks ++ post))) ++ r.1) =
        some ⟨ser (pre ++ (ms ++ (blanks ++ post))) ++ r.1, none⟩ ↔
      sortImports cfg.table
          (importLines (sortImports cfg.table imports cfg.importOrder selfFile))
          cfg.importOrder selfFile =
        sortImports cfg.table imports cfg.importOrder selfFile := by
  have hnil : ∀ line ∈ imports, line ≠ [] := by
    rintro line hline rfl
    exact not_importLine_nil _ (hlines [] hline)
  set sorted := sortImports cfg.table imports cfg.importOrder selfFile with hsorted
  have hmem : ∀ line ∈ importLines sorted, line ∈ imports := fun line hline =>
    mem_sortImports.1 hline
  have hkept : keptLines cfg (around pre blanks post r) ((ms.map (·.1)).filter (· ≠ [])) [] =
      importLines sorted := by
    rw [hms, filter_pastedLines fun line hline => hnil line (hmem line hline), keptLines,
      List.append_nil, List.filter_eq_self]
    intro line hline
    rw [Bool.not_eq_true', Bool.eq_false_iff]
    exact hused line (hmem line hline)
  obtain ⟨ms₂, hms₂⟩ := exists_pasted cfg selfFile (around pre blanks post r) ms [] nofun
  rw [h.addImports r hself hms₂ hfuel, Option.some_inj, Result.mk.injEq,
    and_iff_left rfl]
  rw [hkept] at hms₂
  have hsome : importLines sorted ≠ [] := by
    obtain ⟨line, hline⟩ := List.exists_mem_of_ne_nil _ hne
    exact List.ne_nil_of_mem (mem_sortImports.2 hline)
  constructor
  · intro htext
    have hsplit := congrArg (fun text => (split '\n' text).1) htext
    simp only [split_join] at hsplit
    have heq : ms₂ = ms := List.append_cancel_right (List.append_cancel_left hsplit)
    have hmap : (pastedLines sorted).map unpaste = sorted :=
      map_unpaste (sortImports_ne_nil hne) fun line hline => hnil line (hmem line hline)
    have hmap₂ : (pastedLines (sortImports cfg.table (importLines sorted) cfg.importOrder
          selfFile)).map unpaste =
        sortImports cfg.table (importLines sorted) cfg.importOrder selfFile :=
      map_unpaste (sortImports_ne_nil hsome) fun line hline =>
        hnil line (hmem line (mem_sortImports.1 hline))
    rw [← hmap₂, ← hms₂, heq, hms, hmap]
  · intro hagain
    rw [hagain, ← hms] at hms₂
    have hinj : Function.Injective fun l : Lines.Line '\n' => l.1 := Subtype.val_injective
    rw [hinj.list_map hms₂]

/-- **Organizing twice**: what has been organized stays as it is exactly when no two of the lines
that one group but `t` takes differ only in a final `;`; such lines change places each time. -/
theorem organize_again_iff {cfg : Setup} {text : List Char} {cut : Cut}
    {selfFile : CodeImports.Line} (hself : cfg.selfFile = .ok selfFile)
    (hcut : cutImports cfg (text.length + 1) text = some (.ok cut))
    (himport : ∃ l ∈ (split '\n' text).1, importLine cfg.table l.1)
    (hcomments : interspersed cfg.table (linesOf text) = false)
    (hlines : ∀ line ∈ cut.imports, importLine cfg.table line)
    (hkept : keptLines cfg cut.text cut.imports [] ≠ [])
    (hT : cfg.importOrder.countP Group.isT ≤ 1) :
    ∃ text₁,
      (∀ fuel, text.length < fuel → organizeImports cfg fuel text = some ⟨text₁, none⟩) ∧
      ((∀ fuel, text₁.length < fuel → organizeImports cfg fuel text₁ = some ⟨text₁, none⟩) ↔
        ∀ a ∈ keptLines cfg cut.text cut.imports [], ∀ b ∈ keptLines cfg cut.text cut.imports [], ∀ i,
          groupOf cfg.table selfFile (completeOrder cfg.importOrder) a = some i →
          groupOf cfg.table selfFile (completeOrder cfg.importOrder) b = some i →
          canonicalize a = canonicalize b → a = b) := by
  obtain ⟨pre, block, blanks, post, h⟩ := exists_block himport
  have hjoin := join_split '\n' text
  generalize (split '\n' text).1 = ls at h hjoin
  generalize (split '\n' text).2 = r at hjoin
  subst hjoin
  rw [h.cutImports r (blanks_length_lt h r (Nat.lt_succ_self _)), Option.some_inj] at hcut
  obtain rfl := Except.ok.inj hcut
  dsimp only at hlines hkept ⊢
  change keptLines cfg (around pre blanks post r) _ [] ≠ [] at hkept
  change ∃ text₁, _ ∧ (_ ↔ ∀ a ∈ keptLines cfg (around pre blanks post r) _ [],
    ∀ b ∈ keptLines cfg (around pre blanks post r) _ [], ∀ i, _)
  obtain ⟨ms, hms⟩ := exists_pasted cfg selfFile (around pre blanks post r) block [] nofun
  set kept := keptLines cfg (around pre blanks post r) ((block.map (·.1)).filter (· ≠ [])) []
    with hkeptEq
  have hsub : ∀ line ∈ kept, line ∈ (block.map (·.1)).filter (· ≠ []) ∧
      ¬ cfg.unusedImportP (around pre blanks post r) line := by
    intro line hline
    rw [hkeptEq, keptLines, List.append_nil, List.mem_filter, Bool.not_eq_true'] at hline
    exact ⟨hline.1, Bool.eq_false_iff.1 hline.2⟩
  have himports : ∀ line ∈ kept, importLine cfg.table line := fun line hline =>
    hlines line (hsub line hline).1
  have hblock : ∀ l ∈ block, l.1 ≠ [] → importLine cfg.table l.1 := fun l hl hne =>
    hlines l.1 (List.mem_filter.2 ⟨List.mem_map.2 ⟨l, hl, rfl⟩, by simpa using hne⟩)
  have h' := h.pasted himports hkept hms
  have hcomments' := h.interspersed_pasted h' hblock (fun l => pasted_import himports hms) r
  rw [hcomments] at hcomments'
  refine ⟨ser (pre ++ (ms ++ (blanks ++ post))) ++ r.1, fun fuel hfuel => ?_, ?_⟩
  · rw [organizeImports, hcomments, h.addImports r hself hms (blanks_length_lt h r hfuel)]
    rfl
  · rw [← sortImports_again_iff hT]
    constructor
    · intro hagain
      have hfuel := Nat.lt_succ_self (ser (pre ++ (ms ++ (blanks ++ post))) ++ r.1).length
      have horganize := hagain _ hfuel
      rw [organizeImports, hcomments', if_neg Bool.false_ne_true] at horganize
      exact (h'.organizes_again hself himports hkept (fun line hline => (hsub line hline).2) hms
        (blanks_length_lt h' r hfuel)).1 horganize
    · intro hsorted fuel hfuel
      rw [organizeImports, hcomments', if_neg Bool.false_ne_true]
      exact (h'.organizes_again hself himports hkept (fun line hline => (hsub line hline).2) hms
        (blanks_length_lt h' r hfuel)).2 hsorted

/-- A setup for Java with one group. -/
def comSetup : Setup where
  table := .exact
  javaMode := true
  bufferFileName := none
  importOrder := [.pattern fun line => "import com".toList.isPrefixOf line]
  java_no_self _ group hgroup := by
    rw [List.mem_singleton.1 hgroup]
    nofun
  makeRelative := id
  unusedImportP _ _ := false

/-- Two imports of the group change places. -/
theorem organize_again_com :
    ∃ text₁,
      (∀ fuel, "import com.a;\nimport com.a\n".toList.length < fuel →
        organizeImports comSetup fuel "import com.a;\nimport com.a\n".toList =
          some ⟨text₁, none⟩) ∧
      ¬ ∀ fuel, text₁.length < fuel → organizeImports comSetup fuel text₁ = some ⟨text₁, none⟩ := by
  obtain ⟨text₁, horganize, hiff⟩ := organize_again_iff
    (rfl : comSetup.selfFile = .ok [])
    (by decide +kernel : cutImports comSetup ("import com.a;\nimport com.a\n".toList.length + 1)
      "import com.a;\nimport com.a\n".toList =
        some (.ok ⟨0, ["import com.a;".toList, "import com.a".toList], []⟩))
    (by decide +kernel) (by decide +kernel) (by decide +kernel) (by decide +kernel) (by decide)
  refine ⟨text₁, horganize, fun hagain => ?_⟩
  have heq := hiff.1 hagain "import com.a;".toList (by decide +kernel) "import com.a".toList
    (by decide +kernel) 0 (by decide +kernel) (by decide +kernel) (by decide +kernel)
  exact absurd heq (by decide)

end

end EmacsConfig.OrganizeImports
