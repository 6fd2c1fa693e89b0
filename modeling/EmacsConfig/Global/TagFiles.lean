import EmacsConfig.Lib.Grouping
import EmacsConfig.Global.FileIds
import EmacsConfig.Global.TagRecords

/-!
# Tag files (libutil/gtagsop.c, gtags/gtags.c)

`put_syms` hands what a parser finds to GTAGS and GRTAGS. `gtags_put_using` puts a record,
or for the compact format collects the line numbers in `path_hash` until `gtags_flush`
puts the records of a whole file; `gtags_delete` drops the records of a set of file ids.
A tag file holds, for each file id, the records of what was last parsed under it.
-/

namespace EmacsConfig.Global.TagFiles

open Decimal Gparam TagLines TagRecords FileIds Grouping

/-- The `type` that a parser calls `put_syms` with. -/
inductive SymType where
  | parserDef | parserRefSym | other
  deriving DecidableEq, Repr

structure Sym where
  type : SymType
  tag : List Char
  lno : ℕ
  lineImage : List Char
  deriving DecidableEq, Repr

abbrev Record := List Char × List Char

/-- A `GTOP` that is open for writing, with its database. -/
structure TagFile where
  gtop : Gtop
  db : List Record
  pathHash : List (List Char × List ℕ)
  deriving DecidableEq, Repr

def atoi (s : List Char) : ℕ := (getNumber 0 s).1

namespace TagFile

def putUsing [SysParam] (f : TagFile) (tag : List Char) (lno : ℕ) (fid img : List Char) : Option TagFile :=
  if f.gtop.format.compact then some { f with pathHash := addTo tag lno f.pathHash }
  else (putStandard f.gtop tag lno fid img).map fun r => { f with db := f.db ++ [r] }

def flushPool [SysParam] (f : TagFile) (fid : List Char) : Option TagFile :=
  (f.pathHash.mapM fun entry => flushEntry f.gtop fid entry.1 entry.2).map fun records =>
    { f with db := f.db ++ records.flatten }

def flush [SysParam] (f : TagFile) (fid : List Char) : Option TagFile :=
  if f.gtop.format.compact then (f.flushPool fid).map fun f => { f with pathHash := [] }
  else some f

def delete (f : TagFile) (deleteset : IdSet) : TagFile :=
  { f with db := f.db.filter fun r => !idsetContains deleteset (atoi r.2) }

end TagFile

/-- The tag files of `put_func_data`. -/
structure Gtops where
  gtags : TagFile
  grtags : TagFile
  deriving DecidableEq, Repr

def putSyms [SysParam] (fid : List Char) (data : Gtops) (s : Sym) : Option Gtops :=
  match s.type with
  | .parserDef =>
    (data.gtags.putUsing s.tag s.lno fid s.lineImage).map fun f => { data with gtags := f }
  | .parserRefSym =>
    (data.grtags.putUsing s.tag s.lno fid s.lineImage).map fun f => { data with grtags := f }
  | .other => some data

/-- A file whose parser finds `syms`: `parse_file`, and `gtags_flush` of both tag files. -/
def putFile [SysParam] (fid : List Char) (syms : List Sym) (data : Gtops) : Option Gtops :=
  (syms.foldlM (putSyms fid) data).bind fun data =>
    (data.gtags.flush fid).bind fun gtags =>
      (data.grtags.flush fid).map fun grtags => ⟨gtags, grtags⟩

/-! ## The records of a file -/

/-- What `put_syms` does not pass on to a tag file is left out of `syms`. -/
def fileRecords [SysParam] (g : Gtop) (fid : List Char) (syms : List Sym) : Option (List Record) :=
  if g.format.compact then
    ((syms.foldl (fun pool s => addTo s.tag s.lno pool) []).mapM fun entry =>
      flushEntry g fid entry.1 entry.2).map List.flatten
  else syms.mapM fun s => putStandard g s.tag s.lno fid s.lineImage

def defs (syms : List Sym) : List Sym := syms.filter fun s => s.type = .parserDef
def refSyms (syms : List Sym) : List Sym := syms.filter fun s => s.type = .parserRefSym

def TagFile.put [SysParam] (fid : List Char) (f : TagFile) (s : Sym) : Option TagFile :=
  f.putUsing s.tag s.lno fid s.lineImage

theorem TagFile.foldlM_put_compact [SysParam] {f : TagFile} (hcompact : f.gtop.format.compact)
    (fid : List Char) (syms : List Sym) :
    syms.foldlM (TagFile.put fid) f =
      some { f with pathHash := syms.foldl (fun pool s => addTo s.tag s.lno pool) f.pathHash } := by
  induction syms generalizing f with
  | nil => rfl
  | cons s syms ih =>
    rw [List.foldlM_cons, TagFile.put, TagFile.putUsing, if_pos hcompact]
    exact ih hcompact

theorem TagFile.foldlM_put_standard [SysParam] {f : TagFile} (hcompact : ¬ f.gtop.format.compact)
    (fid : List Char) (syms : List Sym) :
    syms.foldlM (TagFile.put fid) f =
      (syms.mapM fun s => putStandard f.gtop s.tag s.lno fid s.lineImage).map fun rs =>
        { f with db := f.db ++ rs } := by
  induction syms generalizing f with
  | nil => simp
  | cons s syms ih =>
    rw [List.foldlM_cons, TagFile.put, TagFile.putUsing, if_neg hcompact, List.mapM_cons]
    cases putStandard f.gtop s.tag s.lno fid s.lineImage with
    | none => rfl
    | some r =>
      simp only [Option.map_some, Option.bind_eq_bind, Option.bind_some]
      rw [ih (f := { f with db := f.db ++ [r] }) hcompact]
      cases syms.mapM fun s => putStandard f.gtop s.tag s.lno fid s.lineImage with
      | none => rfl
      | some rs => simp

/-- **One tag file**: the records of the file are added, and nothing is left in the pool. -/
theorem TagFile.put_flush [SysParam] {f : TagFile} (hpool : f.pathHash = []) (fid : List Char)
    (syms : List Sym) :
    ((syms.foldlM (TagFile.put fid) f).bind fun f => f.flush fid) =
      (fileRecords f.gtop fid syms).map fun rs => { f with db := f.db ++ rs } := by
  unfold fileRecords
  split_ifs with hcompact
  · rw [TagFile.foldlM_put_compact hcompact, Option.bind_some, TagFile.flush, if_pos hcompact,
      TagFile.flushPool, hpool, Option.map_map, Option.map_map]
    rfl
  · rw [TagFile.foldlM_put_standard hcompact]
    cases syms.mapM fun s => putStandard f.gtop s.tag s.lno fid s.lineImage with
    | none => rfl
    | some rs =>
      rw [Option.map_some, Option.bind_some, TagFile.flush, if_neg hcompact]

/-- `put_syms` passes definitions on to GTAGS and references to GRTAGS. -/
theorem foldlM_putSyms [SysParam] (fid : List Char) (syms : List Sym) (data : Gtops) :
    syms.foldlM (putSyms fid) data =
      ((defs syms).foldlM (TagFile.put fid) data.gtags).bind fun gtags =>
        ((refSyms syms).foldlM (TagFile.put fid) data.grtags).map fun grtags => ⟨gtags, grtags⟩ := by
  induction syms generalizing data with
  | nil => rfl
  | cons s syms ih =>
    rw [List.foldlM_cons, putSyms, defs, refSyms, List.filter_cons, List.filter_cons]
    cases s.type with
    | parserDef =>
      simp only [decide_true, if_true, reduceCtorEq, decide_false, Bool.false_eq_true, if_false,
        List.foldlM_cons, TagFile.put]
      cases data.gtags.putUsing s.tag s.lno fid s.lineImage with
      | none => rfl
      | some f => exact ih { data with gtags := f }
    | parserRefSym =>
      simp only [decide_true, if_true, reduceCtorEq, decide_false, Bool.false_eq_true, if_false,
        List.foldlM_cons, TagFile.put]
      cases data.grtags.putUsing s.tag s.lno fid s.lineImage with
      | none =>
        -- the other tag file does not matter then
        cases ((syms.filter fun s => s.type = .parserDef).foldlM (TagFile.put fid) data.gtags) <;> rfl
      | some f => exact ih { data with grtags := f }
    | other => exact ih data

/-- **A file is put**: its definitions into GTAGS, its references into GRTAGS. -/
theorem putFile_eq [SysParam] {data : Gtops} (hgtags : data.gtags.pathHash = [])
    (hgrtags : data.grtags.pathHash = []) (fid : List Char) (syms : List Sym) :
    putFile fid syms data =
      (fileRecords data.gtags.gtop fid (defs syms)).bind fun rs =>
        (fileRecords data.grtags.gtop fid (refSyms syms)).map fun rs' =>
          ⟨{ data.gtags with db := data.gtags.db ++ rs },
            { data.grtags with db := data.grtags.db ++ rs' }⟩ := by
  have hfirst := TagFile.put_flush hgtags fid (defs syms)
  have hsecond := TagFile.put_flush hgrtags fid (refSyms syms)
  rw [putFile, foldlM_putSyms]
  cases hput : (defs syms).foldlM (TagFile.put fid) data.gtags with
  | none =>
    rw [hput] at hfirst
    cases hrs : fileRecords data.gtags.gtop fid (defs syms) with
    | none => rfl
    | some rs =>
      rw [hrs] at hfirst
      cases hfirst
  | some gtags =>
    rw [hput, Option.bind_some] at hfirst
    cases hput' : (refSyms syms).foldlM (TagFile.put fid) data.grtags with
    | none =>
      rw [hput'] at hsecond
      cases hrs' : fileRecords data.grtags.gtop fid (refSyms syms) with
      | none => cases fileRecords data.gtags.gtop fid (defs syms) <;> rfl
      | some rs' =>
        rw [hrs'] at hsecond
        cases hsecond
    | some grtags =>
      rw [hput', Option.bind_some] at hsecond
      simp only [Option.bind_some, Option.map_some, hfirst, hsecond]
      cases fileRecords data.gtags.gtop fid (defs syms) with
      | none => rfl
      | some rs => cases fileRecords data.grtags.gtop fid (refSyms syms) <;> rfl

theorem atoi_putNumber (id : ℕ) : atoi (putNumber id) = id := by
  have hread := getNumber_putNumber id (p := []) (by simp)
  rw [List.append_nil] at hread
  rw [atoi, hread]

theorem atoi_append (id : ℕ) (rest : List Char) : atoi (putNumber id ++ ' ' :: rest) = id := by
  rw [atoi, getNumber_putNumber id (by simp)]

/-- A record of the file `id`. -/
def OfFile (id : ℕ) (r : Record) : Prop := ∃ rest, r.2 = putNumber id ++ ' ' :: rest

theorem OfFile.atoi {id : ℕ} {r : Record} (h : OfFile id r) : atoi r.2 = id := by
  obtain ⟨rest, hrest⟩ := h
  rw [hrest, atoi_append]

theorem snd_of_dbopPut [SysParam] {key data : List Char} {r : Record}
    (h : dbopPut key data = some r) : r = (key, data) := by
  rw [dbopPut_eq] at h
  split_ifs at h
  exact (Option.some.inj h).symm

theorem key_of_putStandard [SysParam] {g : Gtop} {fid tag img : List Char} {lno : ℕ} {r : Record}
    (h : putStandard g tag lno fid img = some r) : r.1 = g.key tag := by
  unfold putStandard at h
  obtain ⟨name, -, h⟩ := Option.bind_eq_some_iff.1 h
  obtain ⟨image, -, h⟩ := Option.bind_eq_some_iff.1 h
  rw [snd_of_dbopPut h]

theorem ofFile_of_putStandard [SysParam] {g : Gtop} {tag img : List Char} {lno id : ℕ} {r : Record}
    (h : putStandard g tag lno (putNumber id) img = some r) : OfFile id r := by
  unfold putStandard at h
  obtain ⟨name, -, h⟩ := Option.bind_eq_some_iff.1 h
  obtain ⟨image, -, h⟩ := Option.bind_eq_some_iff.1 h
  rw [snd_of_dbopPut h]
  exact ⟨name ++ ' ' :: (putNumber lno ++ ' ' :: image), by simp⟩

theorem mem_of_mapM {α β : Type*} {f : α → Option β} {l : List α} {l' : List β}
    (h : l.mapM f = some l') {b : β} (hb : b ∈ l') : ∃ a ∈ l, f a = some b := by
  induction l generalizing l' with
  | nil =>
    obtain rfl := Option.some.inj h
    cases hb
  | cons a l ih =>
    rw [List.mapM_cons] at h
    obtain ⟨first, hfirst, h⟩ := Option.bind_eq_some_iff.1 h
    obtain ⟨later, hlater, h⟩ := Option.bind_eq_some_iff.1 h
    obtain rfl := Option.some.inj h
    rcases List.mem_cons.1 hb with rfl | hb
    · exact ⟨a, List.mem_cons_self, hfirst⟩
    · obtain ⟨a', ha', heq⟩ := ih hlater hb
      exact ⟨a', List.mem_cons_of_mem _ ha', heq⟩

theorem mem_mapM {α β : Type*} {f : α → Option β} {l : List α} {l' : List β}
    (h : l.mapM f = some l') {a : α} (ha : a ∈ l) : ∃ b ∈ l', f a = some b := by
  induction l generalizing l' with
  | nil => cases ha
  | cons a' l ih =>
    rw [List.mapM_cons] at h
    obtain ⟨first, hfirst, h⟩ := Option.bind_eq_some_iff.1 h
    obtain ⟨later, hlater, h⟩ := Option.bind_eq_some_iff.1 h
    obtain rfl := Option.some.inj h
    rcases List.mem_cons.1 ha with rfl | ha
    · exact ⟨first, List.mem_cons_self, hfirst⟩
    · obtain ⟨b, hb, heq⟩ := ih hlater ha
      exact ⟨b, List.mem_cons_of_mem _ hb, heq⟩

theorem flushLines_header {header : List Char} {lnoArray : List ℕ} {data : List Char}
    (h : data ∈ flushLines header lnoArray) : ∃ body, data = header ++ body := by
  obtain ⟨parts, hrecords, -⟩ := flushLines_records header lnoArray
  obtain ⟨i, hi, rfl⟩ := List.getElem_of_mem h
  have hi' : i < parts.length := hrecords.length_eq ▸ hi
  obtain ⟨body, hbody, -⟩ := (hrecords.get hi hi').exists_unfoldLines
  exact ⟨body, hbody⟩

/-- The records of an entry of the pool. -/
theorem mem_flushEntry [SysParam] {g : Gtop} {fid tag : List Char} {lnoArray : List ℕ} {rs : List Record}
    (h : flushEntry g fid tag lnoArray = some rs) :
    ∀ r ∈ rs, r.1 = g.key tag ∧ ∃ rest, r.2 = fid ++ ' ' :: rest := by
  intro r hr
  unfold flushEntry at h
  obtain ⟨name, -, h⟩ := Option.bind_eq_some_iff.1 h
  obtain ⟨data, hdata, hput⟩ := mem_of_mapM h hr
  obtain ⟨body, rfl⟩ := flushLines_header hdata
  rw [snd_of_dbopPut hput]
  exact ⟨rfl, name ++ ' ' :: body, by simp⟩

theorem ofFile_of_fileRecords [SysParam] {g : Gtop} {id : ℕ} {syms : List Sym} {rs : List Record}
    (h : fileRecords g (putNumber id) syms = some rs) : ∀ r ∈ rs, OfFile id r := by
  intro r hr
  unfold fileRecords at h
  split_ifs at h
  · obtain ⟨rss, hrss, rfl⟩ := Option.map_eq_some_iff.1 h
    obtain ⟨part, hpart, hr⟩ := List.mem_flatten.1 hr
    obtain ⟨entry, -, hentry⟩ := mem_of_mapM hrss hpart
    exact (mem_flushEntry hentry r hr).2
  · obtain ⟨s, -, hs⟩ := mem_of_mapM h hr
    exact ofFile_of_putStandard hs

/-- `dbop_put` takes the key of the tag. -/
def Gtop.Accepts [SysParam] (g : Gtop) (tag : List Char) : Prop :=
  g.key tag ≠ [] ∧ (g.key tag).length ≤ maxKeyLen

instance [SysParam] (g : Gtop) (tag : List Char) : Decidable (Gtop.Accepts g tag) :=
  inferInstanceAs (Decidable (_ ∧ _))

section

attribute [local instance] linux

end

theorem mapM_isSome {α β : Type*} {f : α → Option β} {l : List α} (h : ∀ a ∈ l, ∃ b, f a = some b) :
    ∃ l', l.mapM f = some l' := by
  induction l with
  | nil => exact ⟨[], rfl⟩
  | cons a l ih =>
    rw [List.forall_mem_cons] at h
    obtain ⟨b, hb⟩ := h.1
    obtain ⟨l', hl'⟩ := ih h.2
    exact ⟨b :: l', by simp [hb, hl']⟩

theorem flushEntry_ne_nil [SysParam] {g : Gtop} {fid tag : List Char} {lnoArray : List ℕ} {rs : List Record}
    (h : flushEntry g fid tag lnoArray = some rs) {n : ℕ} (hn : n ∈ lnoArray) (hpos : 0 < n) :
    rs ≠ [] := by
  rintro rfl
  unfold flushEntry at h
  obtain ⟨name, -, h⟩ := Option.bind_eq_some_iff.1 h
  obtain ⟨parts, hrecords, -, hmem⟩ := flushLines_records (fid ++ ' ' :: name ++ [' ']) lnoArray
  cases hlines : flushLines (fid ++ ' ' :: name ++ [' ']) lnoArray with
  | nil =>
    rw [hlines] at hrecords
    cases hrecords
    simpa using (hmem n).2 ⟨hn, hpos⟩
  | cons data datas =>
    rw [hlines, List.mapM_cons] at h
    obtain ⟨r, -, h⟩ := Option.bind_eq_some_iff.1 h
    obtain ⟨later, -, h⟩ := Option.bind_eq_some_iff.1 h
    cases h

section

variable {g : Gtop} {tab : Compress.Table} (htab : g.abbrevs = tab.entries)

include htab

theorem exists_name {tag : List Char} (h : g.key tag ≠ []) :
    ∃ name, g.writtenName tag = some name := by
  unfold Gtop.writtenName
  split_ifs
  · rw [htab]
    exact tab.exists_compress h tag
  · exact ⟨tag, rfl⟩

variable [SysParam]

theorem exists_putStandard {tag : List Char} (h : Gtop.Accepts g tag) (lno : ℕ)
    (fid img : List Char) : ∃ r, putStandard g tag lno fid img = some r := by
  obtain ⟨name, hname⟩ := exists_name htab h.1
  obtain ⟨image, himage, -⟩ := Gtop.exists_writtenImage htab h.1 img
  refine ⟨(g.key tag, fid ++ ' ' :: name ++ ' ' :: putNumber lno ++ ' ' :: image), ?_⟩
  rw [putStandard_eq hname himage, dbopPut_eq]
  exact if_pos h

theorem flushEntry_isSome {tag : List Char} (h : Gtop.Accepts g tag) (fid : List Char)
    (lnoArray : List ℕ) : ∃ rs, flushEntry g fid tag lnoArray = some rs := by
  obtain ⟨name, hname⟩ := exists_name htab h.1
  refine ⟨(flushLines (fid ++ ' ' :: name ++ [' ']) lnoArray).map fun data => (g.key tag, data), ?_⟩
  rw [flushEntry, hname]
  exact mapM_dbopPut h.1 h.2 _

/-- The records of a file can be put when `dbop_put` takes all its tags. -/
theorem exists_fileRecords {syms : List Sym} (h : ∀ s ∈ syms, Gtop.Accepts g s.tag)
    (fid : List Char) : ∃ rs, fileRecords g fid syms = some rs := by
  unfold fileRecords
  split_ifs
  · have hpool : ∀ entry ∈ syms.foldl (fun pool s => addTo s.tag s.lno pool) [],
        ∃ rs, flushEntry g fid entry.1 entry.2 = some rs := by
      intro entry hentry
      obtain ⟨s, hs, heq⟩ := (mem_keys_foldl (List.mem_map_of_mem hentry)).resolve_right (by simp)
      exact flushEntry_isSome htab (heq ▸ h s hs) fid entry.2
    obtain ⟨rss, hrss⟩ := mapM_isSome hpool
    exact ⟨rss.flatten, by rw [hrss, Option.map_some]⟩
  · exact mapM_isSome fun s hs => exists_putStandard htab (h s hs) s.lno fid s.lineImage

/-- The records of a tag in the compact format. -/
theorem fileRecords_filter (hcompact : g.format.compact) (hkey : ∀ tag, g.key tag = tag)
    {fid : List Char} {syms : List Sym} {rs : List Record} (h : fileRecords g fid syms = some rs)
    {tag : List Char} (htag : g.key tag ≠ []) :
    flushEntry g fid tag ((syms.filter fun s => s.tag = tag).map (·.lno)) =
      some (rs.filter fun r => r.1 = tag) := by
  rw [fileRecords, if_pos hcompact] at h
  obtain ⟨rss, hrss, rfl⟩ := Option.map_eq_some_iff.1 h
  have hnil : flushEntry g fid tag [] = some [] := by
    obtain ⟨name, hname⟩ := exists_name htab htag
    have hlines : flushLines (fid ++ ' ' :: name ++ [' ']) [] = [] := by
      simp [flushLines, Fold.closed]
    rw [flushEntry, hname]
    simp only [Option.bind_eq_bind, Option.bind_some, hlines]
    rfl
  have hvalues := valuesOf_foldl Sym.tag Sym.lno tag syms []
  rw [← filter_flatten (f := flushEntry g fid) ?_ (nodup_foldl Sym.tag Sym.lno syms (by simp)) hrss
    hnil, hvalues]
  · rfl
  · intro k vs rs hrs r hr
    rw [(mem_flushEntry hrs r hr).1, hkey]

/-- The keys of the records are the tags. -/
theorem exists_key_iff (hkey : ∀ tag, g.key tag = tag) {fid : List Char} {syms : List Sym}
    {rs : List Record} (h : fileRecords g fid syms = some rs) (hpos : ∀ s ∈ syms, 0 < s.lno)
    (hsyms : ∀ s ∈ syms, Gtop.Accepts g s.tag) (k : List Char) :
    (∃ r ∈ rs, r.1 = k) ↔ ∃ s ∈ syms, s.tag = k := by
  constructor
  · rintro ⟨r, hr, rfl⟩
    unfold fileRecords at h
    split_ifs at h
    · obtain ⟨rss, hrss, rfl⟩ := Option.map_eq_some_iff.1 h
      obtain ⟨part, hpart, hr⟩ := List.mem_flatten.1 hr
      obtain ⟨entry, hentry, hflush⟩ := mem_of_mapM hrss hpart
      obtain ⟨s, hs, heq⟩ := (mem_keys_foldl (List.mem_map_of_mem hentry)).resolve_right (by simp)
      exact ⟨s, hs, by rw [(mem_flushEntry hflush r hr).1, hkey, heq]⟩
    · obtain ⟨s, hs, hput⟩ := mem_of_mapM h hr
      exact ⟨s, hs, by rw [key_of_putStandard hput, hkey]⟩
  · rintro ⟨s, hs, rfl⟩
    by_cases hcompact : g.format.compact
    · have hne := flushEntry_ne_nil (fileRecords_filter htab hcompact hkey h (hsyms s hs).1)
        (List.mem_map_of_mem (List.mem_filter.2 ⟨hs, decide_eq_true rfl⟩)) (hpos s hs)
      obtain ⟨r, hr⟩ := List.exists_mem_of_ne_nil _ hne
      obtain ⟨hr, htag⟩ := List.mem_filter.1 hr
      exact ⟨r, hr, of_decide_eq_true htag⟩
    · rw [fileRecords, if_neg hcompact] at h
      obtain ⟨r, hr, hput⟩ := mem_mapM h hs
      exact ⟨r, hr, by rw [key_of_putStandard hput, hkey]⟩

end

/-! ## What a tag file holds -/

/-- The records of each file id are those of `content`. -/
structure TagFile.Holds [SysParam] (f : TagFile) (content : ℕ → List Sym) : Prop where
  pool : f.pathHash = []
  records : ∀ id, ∃ rs, fileRecords f.gtop (putNumber id) (content id) = some rs ∧
    (f.db.filter fun r => atoi r.2 = id).Perm rs

theorem fileRecords_nil [SysParam] (g : Gtop) (fid : List Char) : fileRecords g fid [] = some [] := by
  unfold fileRecords
  split_ifs <;> rfl

/-- A record belongs to a file that has tags. -/
theorem TagFile.Holds.content_ne_nil [SysParam] {f : TagFile} {content : ℕ → List Sym} (h : f.Holds content)
    {r : Record} (hr : r ∈ f.db) : content (atoi r.2) ≠ [] := by
  intro hnil
  obtain ⟨rs, hrs, hperm⟩ := h.records (atoi r.2)
  rw [hnil, fileRecords_nil] at hrs
  obtain rfl := Option.some.inj hrs
  have hmem : r ∈ f.db.filter fun r' => atoi r'.2 = atoi r.2 := List.mem_filter.2 ⟨hr, by simp⟩
  rw [hperm.eq_nil] at hmem
  cases hmem

theorem TagFile.holds_create [SysParam] (g : Gtop) : TagFile.Holds ⟨g, [], []⟩ fun _ => [] :=
  ⟨rfl, fun _ => ⟨[], fileRecords_nil g _, .refl []⟩⟩

/-- **`gtags_delete`** empties the files of the set. -/
theorem TagFile.Holds.delete [SysParam] {f : TagFile} {content : ℕ → List Sym} (h : f.Holds content)
    {set : IdSet} {m : Finset ℕ} (hset : Inv set m) :
    (f.delete set).Holds fun id => if id ∈ m then [] else content id := by
  refine ⟨h.pool, fun id => ?_⟩
  simp only [TagFile.delete, List.filter_filter, hset.idsetContains]
  by_cases hid : id ∈ m
  · rw [if_pos hid]
    refine ⟨[], fileRecords_nil _ _, .of_eq (List.filter_eq_nil_iff.2 fun r _ => ?_)⟩
    simp only [Bool.and_eq_true, decide_eq_true_eq, Bool.not_eq_true', decide_eq_false_iff_not]
    rintro ⟨rfl, hnot⟩
    exact hnot hid
  · rw [if_neg hid]
    obtain ⟨rs, hrs, hperm⟩ := h.records id
    refine ⟨rs, hrs, .trans (.of_eq (List.filter_congr fun r _ => ?_)) hperm⟩
    by_cases heq : atoi r.2 = id <;> simp [heq, hid]

/-- **A file is added** under an id that has no records. -/
theorem TagFile.Holds.append [SysParam] {f : TagFile} {content : ℕ → List Sym} (h : f.Holds content)
    {id : ℕ} (hid : content id = []) {syms : List Sym} {rs : List Record}
    (hrs : fileRecords f.gtop (putNumber id) syms = some rs) :
    TagFile.Holds { f with db := f.db ++ rs } (Function.update content id syms) := by
  refine ⟨h.pool, fun k => ?_⟩
  have hof := ofFile_of_fileRecords hrs
  obtain ⟨old, hold, hperm⟩ := h.records k
  rw [List.filter_append]
  by_cases hk : k = id
  · subst hk
    rw [hid, fileRecords_nil] at hold
    obtain rfl := Option.some.inj hold
    rw [Function.update_self, hperm.eq_nil, List.nil_append]
    refine ⟨rs, hrs, .of_eq (List.filter_eq_self.2 fun r hr => ?_)⟩
    rw [(hof r hr).atoi, decide_eq_true_eq]
  · rw [Function.update_of_ne hk]
    refine ⟨old, hold, ?_⟩
    have hnone : rs.filter (fun r => decide (atoi r.2 = k)) = [] := by
      refine List.filter_eq_nil_iff.2 fun r hr => ?_
      rw [(hof r hr).atoi, decide_eq_true_eq]
      exact Ne.symm hk
    rwa [hnone, List.append_nil]

/-- Both tag files, of what the parsers found. -/
structure Gtops.Holds [SysParam] (g g' : Gtop) (data : Gtops) (content : ℕ → List Sym) : Prop where
  gtop : data.gtags.gtop = g
  gtop' : data.grtags.gtop = g'
  gtags : data.gtags.Holds fun id => defs (content id)
  grtags : data.grtags.Holds fun id => refSyms (content id)

/-- `dbop_put` takes the tags of `syms`. -/
structure Accepts [SysParam] (g g' : Gtop) (syms : List Sym) : Prop where
  defs : ∀ s ∈ defs syms, Gtop.Accepts g s.tag
  refSyms : ∀ s ∈ refSyms syms, Gtop.Accepts g' s.tag

section

variable [SysParam] {g g' : Gtop} {data : Gtops} {content : ℕ → List Sym}

theorem Gtops.holds_create (g g' : Gtop) :
    Gtops.Holds g g' ⟨⟨g, [], []⟩, ⟨g', [], []⟩⟩ fun _ => [] :=
  ⟨rfl, rfl, TagFile.holds_create g, TagFile.holds_create g'⟩

theorem Gtops.Holds.delete (h : Gtops.Holds g g' data content) {set : IdSet} {m : Finset ℕ}
    (hset : Inv set m) :
    Gtops.Holds g g' ⟨data.gtags.delete set, data.grtags.delete set⟩ fun id =>
      if id ∈ m then [] else content id := by
  have hdefs : (fun id => defs (if id ∈ m then [] else content id)) =
      fun id => if id ∈ m then [] else defs (content id) := by
    funext id
    split_ifs <;> rfl
  have hrefs : (fun id => refSyms (if id ∈ m then [] else content id)) =
      fun id => if id ∈ m then [] else refSyms (content id) := by
    funext id
    split_ifs <;> rfl
  exact ⟨h.gtop, h.gtop', hdefs ▸ h.gtags.delete hset, hrefs ▸ h.grtags.delete hset⟩

/-- **One file** is put under an id that has no records. -/
theorem Gtops.Holds.putFile (h : Gtops.Holds g g' data content) {tab tab' : Compress.Table}
    (htab : g.abbrevs = tab.entries) (htab' : g'.abbrevs = tab'.entries) {id : ℕ}
    (hid : content id = []) {syms : List Sym} (hsyms : Accepts g g' syms) :
    ∃ data', putFile (putNumber id) syms data = some data' ∧
      Gtops.Holds g g' data' (Function.update content id syms) := by
  obtain ⟨rs, hrs⟩ := exists_fileRecords htab hsyms.defs (putNumber id)
  obtain ⟨rs', hrs'⟩ := exists_fileRecords htab' hsyms.refSyms (putNumber id)
  rw [putFile_eq h.gtags.pool h.grtags.pool, h.gtop, h.gtop', hrs, hrs']
  have hdefs : defs (content id) = [] := by rw [hid]; rfl
  have hrefs : refSyms (content id) = [] := by rw [hid]; rfl
  refine ⟨_, rfl, h.gtop, h.gtop', ?_, ?_⟩
  · have happend := h.gtags.append hdefs (by rw [h.gtop]; exact hrs)
    convert happend using 1
    funext k
    exact Function.apply_update (fun _ => defs) content id syms k
  · have happend := h.grtags.append hrefs (by rw [h.gtop']; exact hrs')
    convert happend using 1
    funext k
    exact Function.apply_update (fun _ => refSyms) content id syms k

end

end EmacsConfig.Global.TagFiles
