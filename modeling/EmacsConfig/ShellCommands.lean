import EmacsConfig.Lib.Shell

/-!
# Shell commands built from buffer data

`chmod+x` and `grep-current-dir` put a file name or a word between single
quotes without looking at it. The command line has the words it should have
exactly if there is no single quote in what is put there (`commandWords_iff`).
-/

namespace EmacsConfig.ShellCommands

open EmacsConfig.Runs EmacsConfig.Shell

/-- `format` with one `%s`. -/
def format : List Char → List Char → List Char
  | '%' :: 's' :: rest, arg => arg ++ rest
  | c :: rest, arg => c :: format rest arg
  | [], _ => []

/-! ## `chmod+x` -/

structure Buffer where
  fileName : List Char
  text : List Char
  deriving DecidableEq, Repr

def chmodCommand (fileName : List Char) : List Char := format "chmod +x '%s'".toList fileName

/-- The shell command run after the buffer has been saved, if any. -/
def chmodX (fileExecutableP : List Char → Bool) (b : Buffer) : Option (List Char) :=
  if "#!".toList <+: b.text ∧ ¬ fileExecutableP b.fileName then some (chmodCommand b.fileName)
  else none

/-! ## `grep-current-dir` -/

inductive SystemType where
  | aix
  | other
  deriving DecidableEq, Repr

/-- How Emacs sees the line ends of the file: with a carriage return left over,
the backslash that continues the string no longer escapes the newline. -/
inductive LineEnd where
  | lf
  | crLf
  deriving DecidableEq, Repr

/-- What a backslash and a line end stand for in a string. -/
def LineEnd.continuation : LineEnd → List Char
  | .lf => []
  | .crLf => ['\r', '\n']

def grepDirFormat : SystemType → LineEnd → List Char
  | .aix, _ => "grep -inrH '%s' . | grep -vE \".svn/|.git/|.hg/|.bzr/|CVS/\"".toList
  | .other, lineEnd =>
    "grep --exclude-dir=.svn --exclude-dir=.git --exclude-dir=.hg ".toList ++
      lineEnd.continuation ++
      "--exclude-dir=.bzr --exclude-dir=CVS -inrHI '%s' .".toList

def grepCommand (system : SystemType) (lineEnd : LineEnd) (word : List Char) : List Char :=
  format (grepDirFormat system lineEnd) word

inductive GrepCall where
  /-- The command is offered in the minibuffer before it is run. -/
  | readShellCommand (cmd : List Char)
  | message (text : List Char)
  | grep (cmd : List Char)
  deriving DecidableEq, Repr

def GrepCall.command : GrepCall → Option (List Char)
  | .readShellCommand cmd | .grep cmd => some cmd
  | .message _ => none

def grepCurrentDir (system : SystemType) (lineEnd : LineEnd) (prompt : Bool)
    (wd region : Option (List Char)) (tagDefault : List Char) : GrepCall :=
  let word := (wd.or region).getD tagDefault
  let cmd := grepCommand system lineEnd word
  if prompt ∨ word.length = 0 then .readShellCommand cmd
  else if word.length = 0 then .message "Word is blank.".toList
  else .grep cmd

/-- The branch that only reports a blank word is never reached: every call runs
or offers the command. -/
theorem grepCurrentDir_command (system : SystemType) (lineEnd : LineEnd) (prompt : Bool)
    (wd region : Option (List Char)) (tagDefault : List Char) :
    (grepCurrentDir system lineEnd prompt wd region tagDefault).command =
      some (grepCommand system lineEnd ((wd.or region).getD tagDefault)) := by
  dsimp only [grepCurrentDir]
  split
  · rfl
  · next h => rw [if_neg fun h' => h (.inr h')]; rfl

/-! ## The words of the commands -/

def ChmodWords (fileName : List Char) : Prop :=
  tokens (chmodCommand fileName) =
    some [literal "chmod".toList, literal "+x".toList, literal fileName]

/-- What comes before `-inrHI`. -/
def grepHead : LineEnd → List Token
  | .lf => [literal "grep".toList, literal "--exclude-dir=.svn".toList,
      literal "--exclude-dir=.git".toList, literal "--exclude-dir=.hg".toList,
      literal "--exclude-dir=.bzr".toList, literal "--exclude-dir=CVS".toList]
  | .crLf => [literal "grep".toList, literal "--exclude-dir=.svn".toList,
      literal "--exclude-dir=.git".toList, literal "--exclude-dir=.hg".toList,
      literal ['\r'], .newline,
      literal "--exclude-dir=.bzr".toList, literal "--exclude-dir=CVS".toList]

def GrepWords (lineEnd : LineEnd) (word : List Char) : Prop :=
  tokens (grepCommand .other lineEnd word) =
    some (grepHead lineEnd ++ [literal "-inrHI".toList, literal word, literal ".".toList])

instance (fileName : List Char) : Decidable (ChmodWords fileName) :=
  inferInstanceAs (Decidable (_ = _))

instance (lineEnd : LineEnd) (word : List Char) : Decidable (GrepWords lineEnd word) :=
  inferInstanceAs (Decidable (_ = _))

theorem chmodWords_iff (fileName : List Char) : ChmodWords fileName ↔ '\'' ∉ fileName := by
  have hline : chmodCommand fileName = "chmod +x '".toList ++ (fileName ++ '\'' :: []) := rfl
  have hopen : run step .start "chmod +x '".toList =
      quoteOpened [literal "chmod".toList, literal "+x".toList] := by decide
  unfold ChmodWords
  rw [hline, tokens_append, hopen]
  exact quoted_word_iff _ _ (fun _ => rfl) rfl

/-- What stands before the quoted word of the grep command. -/
def grepPrefix (lineEnd : LineEnd) : List Char :=
  "grep --exclude-dir=.svn --exclude-dir=.git --exclude-dir=.hg ".toList ++
    lineEnd.continuation ++ "--exclude-dir=.bzr --exclude-dir=CVS -inrHI '".toList

theorem grepWords_iff (lineEnd : LineEnd) (word : List Char) :
    GrepWords lineEnd word ↔ '\'' ∉ word := by
  have hline : grepCommand .other lineEnd word =
      grepPrefix lineEnd ++ (word ++ '\'' :: " .".toList) := by
    cases lineEnd <;> rfl
  have hopen : run step .start (grepPrefix lineEnd) =
      quoteOpened (grepHead lineEnd ++ [literal "-inrHI".toList]) := by
    cases lineEnd <;> decide +kernel
  have hwords : grepHead lineEnd ++ [literal "-inrHI".toList, literal word, literal ".".toList] =
      (grepHead lineEnd ++ [literal "-inrHI".toList]) ++
        literal word :: [literal ".".toList] := by simp
  unfold GrepWords
  rw [hline, tokens_append, hopen, hwords]
  apply quoted_word_iff
  · intro p
    exact finish_blank _ p ".".toList
  · rfl

/-- On AIX the word is an operand of the first command of a pipeline. -/
theorem grepCommand_aix (lineEnd : LineEnd) {word : List Char} (hword : '\'' ∉ word) :
    tokens (grepCommand .aix lineEnd word) =
      some [literal "grep".toList, literal "-inrH".toList, literal word, literal ".".toList,
        .op '|', literal "grep".toList, literal "-vE".toList,
        literal ".svn/|.git/|.hg/|.bzr/|CVS/".toList] := by
  have hline : grepCommand .aix lineEnd word = "grep -inrH '".toList ++
      (word ++ '\'' :: " . | grep -vE \".svn/|.git/|.hg/|.bzr/|CVS/\"".toList) := rfl
  have hopen : run step .start "grep -inrH '".toList =
      quoteOpened [literal "grep".toList, literal "-inrH".toList] := by decide
  rw [hline, tokens_append, hopen, run_unquote rfl rfl hword]
  exact finish_blank _ _ ". | grep -vE \".svn/|.git/|.hg/|.bzr/|CVS/\"".toList

/-- **The words of the commands.** The shell gives `chmod` the file name and
`grep` the word as they stand exactly if they have no single quote. -/
theorem commandWords_iff (fileName word : List Char) (lineEnd : LineEnd) :
    (ChmodWords fileName ↔ '\'' ∉ fileName) ∧ (GrepWords lineEnd word ↔ '\'' ∉ word) :=
  ⟨chmodWords_iff fileName, grepWords_iff lineEnd word⟩

/-- A file name with an apostrophe leaves a quote open; a word with two starts a
command of its own. -/
theorem not_commandWords_apostrophe :
    ¬ ChmodWords "/tmp/a'b".toList ∧ tokens (chmodCommand "/tmp/a'b".toList) = none ∧
    ¬ GrepWords .lf "x'; date; '".toList := by
  refine ⟨by decide, by decide, ?_⟩
  rw [grepWords_iff]
  decide

end EmacsConfig.ShellCommands
