import EmacsConfig.Lib.Runs
import EmacsConfig.Lib.Nesting
import EmacsConfig.Fullscreen
import EmacsConfig.HighlightSymbol
import EmacsConfig.Dired
import EmacsConfig.MatchParen
import EmacsConfig.Lib.BoundedRing
import EmacsConfig.FastJump
import EmacsConfig.Lib.Shell
import EmacsConfig.ShellCommands
import EmacsConfig.Lib.Lines
import EmacsConfig.MoveLine
import EmacsConfig.MoveLineRuns
import EmacsConfig.FontLockIf0
import EmacsConfig.FontLockLimits
import EmacsConfig.Lib.Fields
import EmacsConfig.MkSnippet
import EmacsConfig.Lib.FileSystem
import EmacsConfig.FormatCxx
import EmacsConfig.FormatBuffers
import EmacsConfig.FileNames
import EmacsConfig.Lib.Regexp
import EmacsConfig.Lib.Substitution
import EmacsConfig.AutoInsert
import EmacsConfig.GudBreakpoints
import EmacsConfig.CodeImports
import EmacsConfig.Lib.FreshIndex
import EmacsConfig.NewBuffer
import EmacsConfig.Lib.Decimal
import EmacsConfig.Global.Compress
import EmacsConfig.Global.TagLines
import EmacsConfig.Global.TagRecords
import EmacsConfig.Global.TagSearch
import EmacsConfig.Global.References
import EmacsConfig.Lib.Refinement
import EmacsConfig.Lib.Grouping
import EmacsConfig.Global.FileIds
import EmacsConfig.Global.PathIds
import EmacsConfig.Global.TagFiles
import EmacsConfig.Global.Update
import EmacsConfig.Global.Freshness
import EmacsConfig.Lib.Cyclic
import EmacsConfig.SymbolJumps
import EmacsConfig.Lib.StableSort
import EmacsConfig.ImportsSorted
import EmacsConfig.OrganizeImports
import EmacsConfig.Lib.PrefixMachine
import EmacsConfig.Global.Literal
import EmacsConfig.Global.LiteralWord
import EmacsConfig.Lib.Pathnames
import EmacsConfig.Global.Paths
import EmacsConfig.Global.Normalize
import EmacsConfig.Global.PathOutput
