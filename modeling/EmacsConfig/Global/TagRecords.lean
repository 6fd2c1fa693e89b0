import EmacsConfig.Global.Compress
import EmacsConfig.Global.Gparam
import EmacsConfig.Global.TagLines

/-!
# Tag records (libutil/gtagsop.c, global/global.c)

    <file id> <tag name> <line number> <line image>
    <file id> <tag name> <line number>,...

`gtags_put_using` writes a record of the standard format, `flush_pool` the records of
the compact format; `search` takes both apart again. `none` is a call that does not
return. A record is stored under a key: the tag name, or what follows its last `.`
or `::`.
-/

namespace EmacsConfig.Global.TagRecords

open Decimal Compress Gparam TagLines

inductive Db where
  | gpath | gtags | grtags | gsyms
  deriving DecidableEq, Repr

/-- The bits of `gtop->format`. -/
structure Format where
  compact : Bool
  compress : Bool
  compline : Bool
  compname : Bool
  deriving DecidableEq, Repr

/-- The format that `gtags_open` decides on when it creates a tag file. -/
def createFormat (db : Db) (openCompact : Bool) : Format :=
  if db = .grtags ∨ db = .gsyms ∨ openCompact then ⟨true, false, true, true⟩
  else ⟨false, true, false, true⟩

/-- The abbreviations that are loaded once GTAGS has been created. -/
def createTable (openCompact : Bool) : Table :=
  if (createFormat .gtags openCompact).compress then defaultTable else emptyTable

/-- What the functions read of `GTOP`, with the abbreviation tables of compress.c. -/
structure Gtop where
  format : Format
  extractmethod : Bool
  abbrevs : List AbbrMap
  deriving DecidableEq, Repr

/-- `locatestring` with `MATCH_LAST`. -/
def locateLast (pattern : List Char) : List Char → Option (List Char)
  | [] => none
  | c :: s =>
    match locateLast pattern s with
    | some p => some p
    | none => if pattern.isPrefixOf (c :: s) then some (c :: s) else none

def Gtop.key (g : Gtop) (tag : List Char) : List Char :=
  if g.extractmethod then
    match locateLast ['.'] tag with
    | some p => p.drop 1
    | none =>
      match locateLast [':', ':'] tag with
      | some p => p.drop 2
      | none => tag
  else tag

def dbopPut [SysParam] (name data : List Char) : Option (List Char × List Char) :=
  if name.length = 0 then none
  else if maxKeyLen < name.length then none
  else some (name, data)

def Gtop.writtenName (g : Gtop) (tag : List Char) : Option (List Char) :=
  if g.format.compname then compress g.abbrevs (g.key tag) tag else some tag

def Gtop.writtenImage (g : Gtop) (key img : List Char) : Option (List Char) :=
  if g.format.compress then compress g.abbrevs key img else some img

/-- `gtags_put_using` for a format that is not compact. -/
def putStandard [SysParam] (g : Gtop) (tag : List Char) (lno : ℕ) (fid img : List Char) :
    Option (List Char × List Char) := do
  let name ← g.writtenName tag
  let image ← g.writtenImage (g.key tag) img
  dbopPut (g.key tag) (fid ++ ' ' :: name ++ ' ' :: putNumber lno ++ ' ' :: image)

/-- What `flush_pool` puts for an entry of the pool: a tag and its line numbers. -/
def flushEntry [SysParam] (g : Gtop) (fid tag : List Char) (lnoArray : List ℕ) :
    Option (List (List Char × List Char)) := do
  let name ← g.writtenName tag
  (flushLines (fid ++ ' ' :: name ++ [' ']) lnoArray).mapM (dbopPut (g.key tag))

/-- `while (*p != ' ') p++; *p++ = '\0'`, which runs off a text without a blank. -/
def cutBlank : List Char → Option (List Char × List Char)
  | [] => none
  | c :: p => if c = ' ' then some ([], p) else (cutBlank p).map fun cut => (c :: cut.1, cut.2)

def Gtop.readName (g : Gtop) (key tagname : List Char) : Option (List Char) :=
  if g.format.compname then uncompress g.abbrevs key tagname else some tagname

def Gtop.readImage (g : Gtop) (key image : List Char) : Option (List Char) :=
  if g.format.compress then uncompress g.abbrevs key image else some image

/-- The tag names given with the line numbers `ns`: the name is uncompressed once more
for each of them. -/
def readNames (g : Gtop) (key : List Char) : List Char → List ℕ → Option (List (List Char × ℕ))
  | _, [] => some []
  | tagname, n :: ns => do
    let name ← g.readName key tagname
    let later ← readNames g key name ns
    some ((name, n) :: later)

/-- `search` on a record of the compact format: the file id, the names and line numbers. -/
def readCompact (g : Gtop) (fuel : ℕ) (key tagline : List Char) :
    Option (List Char × List (List Char × ℕ)) := do
  let (fid, p) ← cutBlank tagline
  let (tagname, p) ← cutBlank p
  let ns ← unfoldLines fuel p
  let names ← readNames g key tagname ns
  some (fid, names)

/-! ## Fields -/

theorem cutBlank_append {a : List Char} (h : ' ' ∉ a) (b : List Char) :
    cutBlank (a ++ ' ' :: b) = some (a, b) := by
  induction a with
  | nil => rfl
  | cons c a ih =>
    rw [List.mem_cons, not_or] at h
    rw [List.cons_append, cutBlank, if_neg (fun heq => h.1 heq.symm), ih h.2]
    rfl

theorem blank_not_mem_putNumber (n : ℕ) : ' ' ∉ putNumber n := by
  intro h
  exact absurd (isDigit_of_mem h) (by decide)

theorem dbopPut_eq [SysParam] (key data : List Char) :
    dbopPut key data =
      if key ≠ [] ∧ key.length ≤ maxKeyLen then some (key, data) else none := by
  unfold dbopPut
  by_cases hkey : key = []
  · rw [if_pos (by rw [hkey, List.length_nil]), if_neg fun h => h.1 hkey]
  · rw [if_neg (by rwa [List.length_eq_zero_iff])]
    by_cases hlen : key.length ≤ maxKeyLen
    · rw [if_neg (Nat.not_lt.2 hlen), if_pos ⟨hkey, hlen⟩]
    · rw [if_pos (Nat.lt_of_not_le hlen), if_neg fun h => hlen h.2]

/-! ## Standard format -/

theorem Gtop.exists_writtenName {g : Gtop} {tab : Table} (htab : g.abbrevs = tab.entries)
    {tag : List Char} (hkey : g.key tag ≠ []) (hblank : ' ' ∉ tag) :
    ∃ name, g.writtenName tag = some name ∧ ' ' ∉ name ∧ g.readName (g.key tag) name = some tag := by
  unfold Gtop.writtenName Gtop.readName
  split_ifs
  · obtain ⟨name, hname⟩ := tab.exists_compress hkey tag
    rw [htab]
    exact ⟨name, hname, compressFrom_no_blank tab.lower hblank hname,
      tab.uncompress_of_compress hname⟩
  · exact ⟨tag, rfl, hblank, rfl⟩

theorem Gtop.exists_writtenImage {g : Gtop} {tab : Table} (htab : g.abbrevs = tab.entries)
    {key : List Char} (hkey : key ≠ []) (img : List Char) :
    ∃ image, g.writtenImage key img = some image ∧ g.readImage key image = some img := by
  unfold Gtop.writtenImage Gtop.readImage
  split_ifs
  · obtain ⟨image, himage⟩ := tab.exists_compress hkey img
    rw [htab]
    exact ⟨image, himage, tab.uncompress_of_compress himage⟩
  · exact ⟨img, rfl, rfl⟩

theorem putStandard_eq [SysParam] {g : Gtop} {tag name img image : List Char}
    (hname : g.writtenName tag = some name) (himage : g.writtenImage (g.key tag) img = some image)
    (lno : ℕ) (fid : List Char) :
    putStandard g tag lno fid img =
      dbopPut (g.key tag) (fid ++ ' ' :: name ++ ' ' :: putNumber lno ++ ' ' :: image) := by
  rw [putStandard, hname]
  simp only [Option.bind_eq_bind, Option.bind_some, himage]

/-! ## Compact format -/

/-- Writer and reader agree on the names: the same tables, or the name is its own key. -/
theorem Gtop.exists_writtenName_shared {g g' : Gtop} {tab : Table} (htab : g.abbrevs = tab.entries)
    (hformat : g'.format = g.format) {tag : List Char} (hkey : g.key tag ≠ []) (hblank : ' ' ∉ tag)
    (hat : '@' ∉ tag) (hshared : g'.abbrevs = g.abbrevs ∨ g.key tag = tag) :
    ∃ name, g.writtenName tag = some name ∧ ' ' ∉ name ∧
      g'.readName (g.key tag) name = some tag := by
  obtain ⟨name, hname, hnoblank, hread⟩ := Gtop.exists_writtenName htab hkey hblank
  refine ⟨name, hname, hnoblank, ?_⟩
  unfold Gtop.readName at hread ⊢
  rw [hformat]
  split_ifs at hread ⊢ with hcomp
  · rcases hshared with hsame | hself
    · rwa [hsame]
    · rw [Gtop.writtenName, if_pos hcomp, hself] at hname
      rw [hself] at hkey
      rw [compress_self g.abbrevs hkey hblank hat] at hname
      obtain rfl := Option.some.inj hname
      rw [hself, uncompress_code (q := []) rfl, uncompress_nil]
      simp
  · exact hread

theorem readNames_eq {g : Gtop} {key name tag : List Char} (hat : '@' ∉ tag)
    (hread : g.readName key name = some tag) (ns : List ℕ) :
    readNames g key name ns = some (ns.map fun n => (tag, n)) := by
  induction ns generalizing name with
  | nil => rfl
  | cons n ns ih =>
    have hagain : g.readName key tag = some tag := by
      unfold Gtop.readName
      split_ifs
      · exact uncompress_plain _ _ hat
      · rfl
    rw [readNames, hread]
    simp only [Option.bind_eq_bind, Option.bind_some, ih hagain]
    rfl

theorem readCompact_record {g : Gtop} {key fid name tag body : List Char} {ns : List ℕ} {fuel : ℕ}
    (hfid : ' ' ∉ fid) (hname : ' ' ∉ name) (hat : '@' ∉ tag)
    (hread : g.readName key name = some tag) (hbody : unfoldLines fuel body = some ns) :
    readCompact g fuel key (fid ++ ' ' :: (name ++ ' ' :: body)) =
      some (fid, ns.map fun n => (tag, n)) := by
  rw [readCompact, cutBlank_append hfid]
  simp only [Option.bind_eq_bind, Option.bind_some, cutBlank_append hname, hbody,
    readNames_eq hat hread]

theorem mapM_dbopPut [SysParam] {key : List Char} (hne : key ≠ []) (hlen : key.length ≤ maxKeyLen)
    (records : List (List Char)) :
    records.mapM (dbopPut key) = some (records.map fun data => (key, data)) := by
  induction records with
  | nil => rfl
  | cons data records ih =>
    rw [List.mapM_cons, ih, dbopPut_eq, if_pos ⟨hne, hlen⟩]
    rfl

/-- `r` is stored under `key` as a record of the lines `ns` of the file `fid`. -/
structure Stored (g : Gtop) (key fid tag : List Char) (r : List Char × List Char) (ns : List ℕ) :
    Prop where
  stored : r.1 = key
  data : ∃ name body, r.2 = fid ++ ' ' :: (name ++ ' ' :: body) ∧ ' ' ∉ name ∧
    g.readName key name = some tag ∧
    ∃ fuel, ∀ more, fuel ≤ more → unfoldLines more body = some ns

theorem exists_flushEntry [SysParam] (g g' : Gtop) (tab : Table) (htab : g.abbrevs = tab.entries)
    (hformat : g'.format = g.format) {tag : List Char} (hkey : g.key tag ≠ [])
    (hlen : (g.key tag).length ≤ maxKeyLen) (hblank : ' ' ∉ tag) (hat : '@' ∉ tag)
    (hshared : g'.abbrevs = g.abbrevs ∨ g.key tag = tag) (fid : List Char) (lnoArray : List ℕ) :
    ∃ records parts, flushEntry g fid tag lnoArray = some records ∧
      List.Forall₂ (Stored g' (g.key tag) fid tag) records parts ∧
      parts.flatten.Pairwise (· < ·) ∧ ∀ n, n ∈ parts.flatten ↔ n ∈ lnoArray ∧ 0 < n := by
  obtain ⟨name, hname, hnoblank, hread⟩ :=
    Gtop.exists_writtenName_shared htab hformat hkey hblank hat hshared
  obtain ⟨parts, hrecords, hsorted, hmem⟩ :=
    flushLines_records (fid ++ ' ' :: name ++ [' ']) lnoArray
  refine ⟨(flushLines (fid ++ ' ' :: name ++ [' ']) lnoArray).map fun data => (g.key tag, data),
    parts, ?_, ?_, hsorted, hmem⟩
  · rw [flushEntry, hname]
    exact mapM_dbopPut hkey hlen _
  · rw [List.forall₂_map_left_iff]
    refine hrecords.imp fun r ns hr => ⟨rfl, ?_⟩
    obtain ⟨body, rfl, hfuel⟩ := hr.exists_unfoldLines
    exact ⟨name, body, by simp, hnoblank, hread, hfuel⟩

/-- A key that is too long is never put: there are no lines then. -/
theorem flushEntry_of_long [SysParam] {g : Gtop} {fid tag : List Char} {lnoArray : List ℕ}
    {records : List (List Char × List Char)} (hlong : ¬ (g.key tag).length ≤ maxKeyLen)
    (h : flushEntry g fid tag lnoArray = some records) :
    records = [] ∧ ∀ n ∈ lnoArray, ¬ 0 < n := by
  unfold flushEntry at h
  obtain ⟨name, -, h⟩ := Option.bind_eq_some_iff.1 h
  obtain ⟨parts, hrecords, -, hmem⟩ := flushLines_records (fid ++ ' ' :: name ++ [' ']) lnoArray
  cases hlines : flushLines (fid ++ ' ' :: name ++ [' ']) lnoArray with
  | nil =>
    rw [hlines] at h hrecords
    cases hrecords
    cases h
    exact ⟨rfl, fun n hn hpos => by simpa using (hmem n).2 ⟨hn, hpos⟩⟩
  | cons data datas =>
    rw [hlines, List.mapM_cons, dbopPut_eq, if_neg fun hput => hlong hput.2] at h
    cases h

section

attribute [local instance] linux

end

end EmacsConfig.Global.TagRecords
