import EmacsConfig.FormatCxx

/-!
# File names as texts

`file-name-directory` and its kin on a name with its directories; the versions
and the extension of the last part are those of `EmacsConfig.FormatCxx`.
-/

namespace EmacsConfig.FileNames

open EmacsConfig.Fields
open EmacsConfig.FormatCxx (fileNameSansVersions)

def fileNameNondirectory (name : List Char) : List Char := afterLast '/' name

def directoryPart (name : List Char) : List Char :=
  name.take (name.length - (fileNameNondirectory name).length)

def fileNameDirectory (name : List Char) : Option (List Char) :=
  if '/' ∈ name then some (directoryPart name) else none

def fileNameSansExtension (name : List Char) : List Char :=
  let file := fileNameSansVersions (fileNameNondirectory name)
  if '.' ∈ file.tail then
    directoryPart name ++ file.take (file.length - (afterLast '.' file).length - 1)
  else name

end EmacsConfig.FileNames
