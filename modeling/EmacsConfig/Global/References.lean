import EmacsConfig.Global.TagSearch
import Mathlib.Data.Char
import Mathlib.Data.List.Forall2
import Mathlib.Data.List.Perm.Basic
import Mathlib.Data.List.Lex

/-!
# References of a tag (libutil/gtagsop.c, global/global.c)

`segment_read` collects the records stored under a tag name and sorts them by path and
first line number, `search` unfolds them and shows their lines. Whatever order the
database returns the records in, the lines shown are the references that were put.
One file serves as GRTAGS and GSYMS: the names that GTAGS has are taken for references,
the others for symbols.
-/

namespace EmacsConfig.Global.References

open Decimal Gparam TagLines TagRecords TagSearch

/-- A `GTP` as `segment_read` fills it in. -/
structure Raw where
  path : List Char
  tag : List Char
  tagline : List Char
  lineno : ℕ
  deriving DecidableEq, Repr

/-- `seekto`: past the first `n` blanks. -/
def seekto : ℕ → List Char → Option (List Char)
  | 0, p => some p
  | n + 1, p => (cutBlank p).bind fun cut => seekto n cut.2

def compareTags (e1 e2 : Raw) : Bool :=
  decide (e1.path < e2.path ∨ e1.path = e2.path ∧ e1.lineno ≤ e2.lineno)

def maxToken : ℕ := 512

/-- `VIRTUAL_GRTAGS_GSYMS_PROCESSING`: whether the records of a name are passed over;
`defined` says which names GTAGS has. -/
def passedOver (db : Db) (defined : List Char → Bool) (name : List Char) : Option Bool :=
  if db = .grtags ∨ db = .gsyms then
    if maxToken < name.length then none
    else some (db = .grtags ∧ ¬ defined name ∨ db = .gsyms ∧ defined name)
  else some false

section

variable (db : Db) (defined : List Char → Bool) (fid2path : List Char → Option (List Char))

def readTagline (key tagline : List Char) : Option Raw := do
  let path ← fid2path (tagline.takeWhile (· ≠ ' '))
  let p ← seekto 2 tagline
  some ⟨path, key, tagline, (getNumber 0 p).1⟩

def segmentRead (nosort : Bool) (key : List Char) (taglines : List (List Char)) :
    Option (List Raw) :=
  if taglines = [] then some []
  else
    match passedOver db defined key with
    | none => none
    | some true => some []
    | some false =>
      if identLen ≤ key.length then none
      else
        (taglines.mapM (readTagline fid2path key)).map fun vb =>
          if nosort then vb else vb.mergeSort compareTags

/-- `search` takes a compact record apart. -/
def unfoldRecord (g : Gtop) (fuel : ℕ) (raw : Raw) : Option Gtp := do
  let (_, p) ← cutBlank raw.tagline
  let (tagname, _) ← cutBlank p
  let (fid, names) ← readCompact g fuel raw.tag raw.tagline
  some ⟨raw.path, fid, raw.tag, tagname, names⟩

/-- `search` for the name `key`, whose records in the database are `taglines`. -/
def searchTag (g : Gtop) (files : List Char → Option (List (List Char))) (fuel : ℕ)
    (key : List Char) (taglines : List (List Char)) : Option (List Shown) := do
  let segment ← segmentRead db defined fid2path false key taglines
  let gtps ← segment.mapM (unfoldRecord g fuel)
  some (search files false .start gtps).2

end

/-- The references to a tag that a file has. -/
structure Reference where
  fid : List Char
  path : List Char
  lnoArray : List ℕ
  deriving DecidableEq, Repr

/-- The records that the files of `refs` are flushed to. -/
def flushAll [SysParam] (g : Gtop) (tag : List Char) (refs : List Reference) :
    Option (List (List Char × List Char)) :=
  (refs.mapM fun r => flushEntry g r.fid tag r.lnoArray).map List.flatten

/-! ## Records in the database -/

/-- The lines of a record of the file of `r`. -/
structure Part where
  ref : Reference
  ns : List ℕ

/-- Two records of one file: the lines of one lie before those of the other. -/
def Part.Apart (a b : Part) : Prop :=
  a.ref.path = b.ref.path →
    (∀ m ∈ a.ns, ∀ n ∈ b.ns, m < n) ∨ ∀ m ∈ a.ns, ∀ n ∈ b.ns, n < m

theorem Part.Apart.symm {a b : Part} (h : a.Apart b) : b.Apart a := by
  intro heq
  rcases h heq.symm with hlt | hlt
  · exact .inr fun n hn m hm => hlt m hm n hn
  · exact .inl fun n hn m hm => hlt m hm n hn

/-- `r` is the record of the part `a` under `key`. -/
structure IsPart (g : Gtop) (key tag : List Char) (refs : List Reference)
    (r : List Char × List Char) (a : Part) : Prop where
  stored : Stored g key a.ref.fid tag r a.ns
  mem : a.ref ∈ refs
  sorted : a.ns.Pairwise (· < ·)

theorem forall₂_pairwise {α β : Type*} {P : α → β → Prop} {R : β → β → Prop} {S : α → α → Prop}
    (hRS : ∀ {a b a' b'}, P a b → P a' b' → R b b' → S a a') {l : List α} {l' : List β}
    (h : List.Forall₂ P l l') (hR : l'.Pairwise R) : l.Pairwise S := by
  induction h with
  | nil => exact .nil
  | @cons a b l l' hab h ih =>
    rw [List.pairwise_cons] at hR ⊢
    refine ⟨fun a' ha' => ?_, ih hR.2⟩
    obtain ⟨i, hi, rfl⟩ := List.getElem_of_mem ha'
    have hi' : i < l'.length := h.length_eq ▸ hi
    exact hRS hab (h.get hi hi') (hR.1 _ (List.getElem_mem hi'))

theorem forall₂_exists {α β : Type*} {P : α → β → Prop} {l : List α} {l' : List β}
    (h : List.Forall₂ P l l') {b : β} (hb : b ∈ l') : ∃ a ∈ l, P a b := by
  obtain ⟨i, hi, rfl⟩ := List.getElem_of_mem hb
  have hi' : i < l.length := h.length_eq ▸ hi
  exact ⟨_, List.getElem_mem hi', h.get hi' hi⟩

section

variable [SysParam] (g g' : Gtop) (tab : Compress.Table) (htab : g.abbrevs = tab.entries)
  (hformat : g'.format = g.format) (tag : List Char) (hkey : g.key tag ≠ [])
  (hlen : (g.key tag).length ≤ maxKeyLen) (hblank : ' ' ∉ tag) (hat : '@' ∉ tag)
  (hshared : g'.abbrevs = g.abbrevs ∨ g.key tag = tag)

include htab hformat hkey hlen hblank hat hshared

/-- The records of one file. -/
theorem flushEntry_parts (r : Reference) {refs : List Reference} (hr : r ∈ refs) :
    ∃ records parts, flushEntry g r.fid tag r.lnoArray = some records ∧
      List.Forall₂ (IsPart g' (g.key tag) tag refs) records parts ∧ parts.Pairwise Part.Apart ∧
      (∀ a ∈ parts, a.ref = r) ∧
      ∀ n, (∃ a ∈ parts, n ∈ a.ns) ↔ n ∈ r.lnoArray ∧ 0 < n := by
  obtain ⟨records, nss, hrecords, hstored, hsorted, hmem⟩ := exists_flushEntry g g' tab htab
    hformat hkey hlen hblank hat hshared r.fid r.lnoArray
  rw [List.pairwise_flatten] at hsorted
  refine ⟨records, nss.map fun ns => ⟨r, ns⟩, hrecords, ?_, ?_, ?_, ?_⟩
  · rw [List.forall₂_map_right_iff]
    have hin : ∀ ns ∈ nss, ns.Pairwise (· < ·) := hsorted.1
    clear hsorted hmem hrecords
    induction hstored with
    | nil => exact .nil
    | cons hab _ ih =>
      rw [List.forall_mem_cons] at hin
      exact .cons ⟨hab, hr, hin.1⟩ (ih hin.2)
  · rw [List.pairwise_map]
    exact hsorted.2.imp fun hlt _ => .inl fun m hm n hn => hlt m hm n hn
  · intro a ha
    obtain ⟨ns, -, rfl⟩ := List.mem_map.1 ha
    rfl
  · intro n
    rw [← hmem n, List.mem_flatten]
    simp

/-- The records of all files. -/
theorem flushAll_parts {refs all : List Reference} (hsub : ∀ r ∈ refs, r ∈ all)
    (hnodup : (refs.map (·.path)).Nodup) :
    ∃ records parts, flushAll g tag refs = some records ∧
      List.Forall₂ (IsPart g' (g.key tag) tag all) records parts ∧ parts.Pairwise Part.Apart ∧
      (∀ a ∈ parts, a.ref ∈ refs) ∧
      ∀ r ∈ refs, ∀ n, (∃ a ∈ parts, a.ref = r ∧ n ∈ a.ns) ↔ n ∈ r.lnoArray ∧ 0 < n := by
  induction refs with
  | nil => exact ⟨[], [], rfl, .nil, .nil, by simp, by simp⟩
  | cons r refs ih =>
    rw [List.forall_mem_cons] at hsub
    rw [List.map_cons, List.nodup_cons] at hnodup
    obtain ⟨first, parts, hfirst, hparts, hapart, href, hlines⟩ := flushEntry_parts g g' tab htab
      hformat tag hkey hlen hblank hat hshared r hsub.1
    obtain ⟨later, parts', hlater, hparts', hapart', href', hlines'⟩ := ih hsub.2 hnodup.2
    have hne : ∀ a ∈ parts', a.ref.path ≠ r.path := by
      intro a ha heq
      exact hnodup.1 (heq ▸ List.mem_map_of_mem (href' a ha))
    refine ⟨first ++ later, parts ++ parts', ?_, List.rel_append hparts hparts', ?_, ?_, ?_⟩
    · obtain ⟨recordss, hmap, rfl⟩ := Option.map_eq_some_iff.1 hlater
      simp [flushAll, hfirst, hmap]
    · refine List.pairwise_append.2 ⟨hapart, hapart', fun a ha b hb heq => ?_⟩
      rw [href a ha] at heq
      exact absurd heq.symm (hne b hb)
    · intro a ha
      rcases List.mem_append.1 ha with ha | ha
      · rw [href a ha]
        exact List.mem_cons_self
      · exact List.mem_cons_of_mem _ (href' a ha)
    · rw [List.forall_mem_cons]
      constructor
      · intro n
        rw [← hlines n]
        constructor
        · rintro ⟨a, ha, hr, hn⟩
          rcases List.mem_append.1 ha with ha | ha
          · exact ⟨a, ha, hn⟩
          · exact absurd (congrArg (·.path) hr) (hne a ha)
        · rintro ⟨a, ha, hn⟩
          exact ⟨a, List.mem_append_left _ ha, href a ha, hn⟩
      · intro r' hr' n
        rw [← hlines' r' hr' n]
        constructor
        · rintro ⟨a, ha, rfl, hn⟩
          rcases List.mem_append.1 ha with ha | ha
          · rw [href a ha] at hr'
            exact absurd (List.mem_map_of_mem hr') hnodup.1
          · exact ⟨a, ha, rfl, hn⟩
        · rintro ⟨a, ha, rfl, hn⟩
          exact ⟨a, List.mem_append_right _ ha, rfl, hn⟩

end

theorem flushAll_of_long [SysParam] {g : Gtop} {tag : List Char}
    (hlong : ¬ (g.key tag).length ≤ maxKeyLen) {refs : List Reference}
    {written : List (List Char × List Char)} (h : flushAll g tag refs = some written) :
    written = [] ∧ ∀ r ∈ refs, ∀ n ∈ r.lnoArray, ¬ 0 < n := by
  obtain ⟨recordss, hrecordss, rfl⟩ := Option.map_eq_some_iff.1 h
  clear h
  induction refs generalizing recordss with
  | nil =>
    obtain rfl := Option.some.inj hrecordss
    exact ⟨rfl, List.forall_mem_nil _⟩
  | cons r refs ih =>
    rw [List.mapM_cons] at hrecordss
    obtain ⟨records, hrecords, hrecordss⟩ := Option.bind_eq_some_iff.1 hrecordss
    obtain ⟨later, hlater, hrecordss⟩ := Option.bind_eq_some_iff.1 hrecordss
    obtain rfl := Option.some.inj hrecordss
    obtain ⟨rfl, hlines⟩ := flushEntry_of_long hlong hrecords
    obtain ⟨hnil, hlines'⟩ := ih later hlater
    exact ⟨by rw [List.flatten_cons, hnil]; rfl, List.forall_mem_cons.2 ⟨hlines, hlines'⟩⟩

/-! ## Reading them back -/

/-- `raw` is read from the record of the part `a` and unfolds to its lines. -/
structure IsRaw (g : Gtop) (key tag : List Char) (fuel : ℕ) (raw : Raw) (a : Part) : Prop where
  path : raw.path = a.ref.path
  head : a.ns.head? = some raw.lineno
  gtp : ∃ tagname, unfoldRecord g fuel raw =
    some ⟨a.ref.path, a.ref.fid, key, tagname, a.ns.map fun n => (tag, n)⟩

/-- What the database of file ids says of the files of `refs`. -/
structure Known (fid2path : List Char → Option (List Char)) (refs : List Reference) : Prop where
  fid : ∀ r ∈ refs, ' ' ∉ r.fid
  path : ∀ r ∈ refs, fid2path r.fid = some r.path
  ne_nil : ∀ r ∈ refs, r.path ≠ []

section

variable {fid2path : List Char → Option (List Char)} {refs : List Reference} {g : Gtop}
  {key tag : List Char}

theorem IsPart.exists_raw (hknown : Known fid2path refs) (hat : '@' ∉ tag)
    {r : List Char × List Char} {a : Part} (h : IsPart g key tag refs r a) :
    ∃ fuel, ∀ more, fuel ≤ more → ∃ raw, readTagline fid2path key r.2 = some raw ∧
      IsRaw g key tag more raw a := by
  obtain ⟨name, body, hdata, hname, hread, fuel, hfuel⟩ := h.stored.data
  have hfid := hknown.fid _ h.mem
  refine ⟨fuel, fun more hle => ?_⟩
  have hhead := head_of_unfoldLines (hfuel more hle)
  have htake : r.2.takeWhile (· ≠ ' ') = a.ref.fid := by
    rw [hdata, List.takeWhile_append_of_pos (Compress.ne_blank hfid)]
    simp
  have hseek : seekto 2 r.2 = some body := by
    simp [seekto, hdata, cutBlank_append hfid, cutBlank_append hname]
  refine ⟨⟨a.ref.path, key, r.2, (getNumber 0 body).1⟩, ?_, rfl, hhead, name, ?_⟩
  · rw [readTagline, htake, hknown.path _ h.mem, hseek]
    rfl
  · rw [unfoldRecord]
    simp only
    rw [hdata, readCompact_record hfid hname hat hread (hfuel more hle)]
    simp only [cutBlank_append hfid, cutBlank_append hname, Option.bind_eq_bind, Option.bind_some]

theorem exists_raws (hknown : Known fid2path refs) (hat : '@' ∉ tag)
    {records : List (List Char × List Char)} {parts : List Part}
    (h : List.Forall₂ (IsPart g key tag refs) records parts) :
    ∃ fuel, ∀ more, fuel ≤ more →
      ∃ raws, (records.map (·.2)).mapM (readTagline fid2path key) = some raws ∧
        List.Forall₂ (IsRaw g key tag more) raws parts := by
  induction h with
  | nil => exact ⟨0, fun _ _ => ⟨[], rfl, .nil⟩⟩
  | cons hab _ ih =>
    obtain ⟨fuel, hfuel⟩ := hab.exists_raw hknown hat
    obtain ⟨fuel', hfuel'⟩ := ih
    refine ⟨max fuel fuel', fun more hle => ?_⟩
    obtain ⟨raw, hraw, hisRaw⟩ := hfuel more ((le_max_left _ _).trans hle)
    obtain ⟨raws, hraws, hisRaws⟩ := hfuel' more ((le_max_right _ _).trans hle)
    exact ⟨raw :: raws, by simp [hraw, hraws], .cons hisRaw hisRaws⟩

theorem compareTags_sorted (raws : List Raw) :
    (raws.mergeSort compareTags).Pairwise fun a b => compareTags a b := by
  apply List.pairwise_mergeSort
  · intro a b c hab hbc
    simp only [compareTags, decide_eq_true_eq] at hab hbc ⊢
    rcases hab with hab | ⟨hab, hle⟩ <;> rcases hbc with hbc | ⟨hbc, hle'⟩
    · exact .inl (hab.trans hbc)
    · exact .inl (hbc ▸ hab)
    · exact .inl (hab ▸ hbc)
    · exact .inr ⟨hab.trans hbc, hle.trans hle'⟩
  · intro a b
    simp only [compareTags, Bool.or_eq_true, decide_eq_true_eq]
    rcases lt_trichotomy a.path b.path with hlt | heq | hgt
    · exact .inl (.inl hlt)
    · rcases Nat.le_total a.lineno b.lineno with hle | hle
      · exact .inl (.inr ⟨heq, hle⟩)
      · exact .inr (.inr ⟨heq.symm, hle⟩)
    · exact .inr (.inl hgt)

/-- The order in which the lines are shown. -/
def Part.Before (a b : Part) : Prop :=
  a.ref.path < b.ref.path ∨ a.ref.path = b.ref.path ∧ ∀ m ∈ a.ns, ∀ n ∈ b.ns, m < n

/-- Records of one file that are sorted by their first lines are sorted by all of them. -/
theorem before_of_sorted {fuel : ℕ} {raws : List Raw} {parts : List Part}
    (h : List.Forall₂ (IsRaw g key tag fuel) raws parts)
    (hsorted : raws.Pairwise fun a b => compareTags a b) (hapart : parts.Pairwise Part.Apart) :
    parts.Pairwise Part.Before := by
  have hle : parts.Pairwise fun a b => a.ref.path < b.ref.path ∨ a.ref.path = b.ref.path ∧
      ∃ m ∈ a.ns, ∃ n ∈ b.ns, m ≤ n := by
    refine forall₂_pairwise ?_ h.flip hsorted
    intro a raw b raw' ha hb hcmp
    simp only [compareTags, decide_eq_true_eq] at hcmp
    rw [ha.path, hb.path] at hcmp
    refine hcmp.imp id fun heq => ⟨heq.1, _, List.mem_of_mem_head? ha.head, _,
      List.mem_of_mem_head? hb.head, heq.2⟩
  refine (hle.and hapart).imp fun {a b} hab => ?_
  obtain ⟨hlt | ⟨heq, m, hm, n, hn, hmn⟩, hor⟩ := hab
  · exact .inl hlt
  · refine .inr ⟨heq, (hor heq).resolve_right fun hlt => ?_⟩
    have := hlt m hm n hn
    omega

end

/-! ## A search -/

/-- The record as `search` has unfolded it. -/
def IsGtp (key tag : List Char) (r : Gtp) (a : Part) : Prop :=
  ∃ tagname, r = ⟨a.ref.path, a.ref.fid, key, tagname, a.ns.map fun n => (tag, n)⟩

theorem exists_gtps {g : Gtop} {key tag : List Char} {fuel : ℕ} {raws : List Raw}
    {parts : List Part} (h : List.Forall₂ (IsRaw g key tag fuel) raws parts) :
    ∃ gtps, raws.mapM (unfoldRecord g fuel) = some gtps ∧
      List.Forall₂ (IsGtp key tag) gtps parts := by
  induction h with
  | nil => exact ⟨[], rfl, .nil⟩
  | cons hab _ ih =>
    obtain ⟨tagname, hgtp⟩ := hab.gtp
    obtain ⟨gtps, hgtps, hisGtp⟩ := ih
    exact ⟨_ :: gtps, by simp [hgtp, hgtps], .cons ⟨tagname, rfl⟩ hisGtp⟩

/-- What is shown for the records of `parts`. -/
def places (tag : List Char) (parts : List Part) : List (List Char × List Char × ℕ × List Char) :=
  parts.flatMap fun a => a.ns.map fun n => (tag, a.ref.path, n, a.ref.fid)

theorem flatMap_places {key tag : List Char} {gtps : List Gtp} {parts : List Part}
    (h : List.Forall₂ (IsGtp key tag) gtps parts) : gtps.flatMap Gtp.places = places tag parts := by
  induction h with
  | nil => rfl
  | cons hab _ ih =>
    obtain ⟨tagname, rfl⟩ := hab
    rw [List.flatMap_cons, ih]
    simp [Gtp.places, places]

/-- By path, and by line number in a file. -/
def InOrder (a b : List Char × List Char × ℕ × List Char) : Prop :=
  a.2.1 < b.2.1 ∨ a.2.1 = b.2.1 ∧ a.2.2.1 < b.2.2.1

theorem places_inOrder {tag : List Char} {parts : List Part}
    (hsorted : ∀ a ∈ parts, a.ns.Pairwise (· < ·)) (h : parts.Pairwise Part.Before) :
    (places tag parts).Pairwise InOrder := by
  refine List.pairwise_flatMap.2 ⟨fun a ha => ?_, h.imp fun {a b} hab => ?_⟩
  · rw [List.pairwise_map]
    exact (hsorted a ha).imp fun hlt => .inr ⟨rfl, hlt⟩
  · intro x hx y hy
    obtain ⟨m, hm, rfl⟩ := List.mem_map.1 hx
    obtain ⟨n, hn, rfl⟩ := List.mem_map.1 hy
    exact hab.imp id fun hsame => ⟨hsame.1, hsame.2 m hm n hn⟩

theorem gtps_follow {key tag : List Char} {gtps : List Gtp} {parts : List Part}
    (h : List.Forall₂ (IsGtp key tag) gtps parts) (hbefore : parts.Pairwise Part.Before) :
    gtps.IsChain Follows := by
  refine List.Pairwise.isChain (forall₂_pairwise ?_ h hbefore)
  rintro r a r' a' ⟨tagname, rfl⟩ ⟨tagname', rfl⟩ hab hpath - x hx y hy
  obtain ⟨m, hm, rfl⟩ := List.mem_map.1 hx
  obtain ⟨n, hn, rfl⟩ := List.mem_map.1 hy
  have hsame : a'.ref.path = a.ref.path := hpath
  rcases hab with hlt | ⟨-, hlt⟩
  · rw [hsame] at hlt
    exact absurd hlt (lt_irrefl _)
  · exact (hlt m hm n hn).le

theorem gtps_wellFormed {key tag : List Char} {gtps : List Gtp} {parts : List Part}
    (h : List.Forall₂ (IsGtp key tag) gtps parts)
    (hparts : ∀ a ∈ parts, a.ref.path ≠ [] ∧ a.ns ≠ [] ∧ a.ns.Pairwise (· < ·) ∧ ∀ n ∈ a.ns, 0 < n) :
    ∀ r ∈ gtps, r.WellFormed := by
  intro r hr
  obtain ⟨a, ha, tagname, rfl⟩ := forall₂_exists h.flip hr
  obtain ⟨hpath, hne, hsorted, hpos⟩ := hparts a ha
  refine ⟨hpath, by simpa using hne, ?_, ?_⟩
  · rw [List.pairwise_map]
    exact hsorted.imp fun hlt => hlt.le
  · intro name hname
    obtain ⟨n, hn, rfl⟩ := List.mem_map.1 hname
    exact hpos n hn

/-- How gtags creates GRTAGS, with the abbreviations of GTAGS loaded. -/
def grtagsCreated (openCompact : Bool) : Gtop :=
  ⟨createFormat .grtags openCompact, false, (createTable openCompact).entries⟩

/-- How global opens it. -/
def grtagsOpened (openCompact : Bool) : Gtop :=
  ⟨createFormat .grtags openCompact, false, []⟩

/-- Whether the virtual file `db` has the tag. -/
def Visible (db : Db) (defined : List Char → Bool) (tag : List Char) : Prop :=
  db = .grtags ↔ defined tag

instance (db : Db) (defined : List Char → Bool) (tag : List Char) :
    Decidable (Visible db defined tag) :=
  inferInstanceAs (Decidable (_ ↔ _))

theorem passedOver_eq {db : Db} (hdb : db = .grtags ∨ db = .gsyms) (defined : List Char → Bool)
    {tag : List Char} (hlen : tag.length < identLen) :
    passedOver db defined tag = some (decide (¬ Visible db defined tag)) := by
  have hmax : ¬ maxToken < tag.length := by
    have : identLen = maxToken := rfl
    omega
  rw [passedOver, if_pos hdb, if_neg hmax]
  rcases hdb with rfl | rfl <;> cases h : defined tag <;> simp [Visible, h]

/-- The lines shown for the records of a tag. -/
def showSorted (fid2path : List Char → Option (List Char)) (g : Gtop)
    (files : List Char → Option (List (List Char))) (fuel : ℕ) (tag : List Char)
    (taglines : List (List Char)) : Option (List Shown) :=
  (taglines.mapM (readTagline fid2path tag)).bind fun vb =>
    ((vb.mergeSort compareTags).mapM (unfoldRecord g fuel)).map fun gtps =>
      (search files false .start gtps).2

theorem searchTag_eq {db : Db} (hdb : db = .grtags ∨ db = .gsyms) (defined : List Char → Bool)
    {tag : List Char} (hlen : tag.length < identLen) (fid2path : List Char → Option (List Char))
    (g : Gtop) (files : List Char → Option (List (List Char))) (fuel : ℕ)
    (taglines : List (List Char)) :
    searchTag db defined fid2path g files fuel tag taglines =
      if Visible db defined tag then showSorted fid2path g files fuel tag taglines
      else some [] := by
  unfold searchTag segmentRead showSorted
  rw [passedOver_eq hdb defined hlen]
  by_cases hnil : taglines = []
  · subst hnil
    simp [search]
  · rw [if_neg hnil]
    by_cases hvisible : Visible db defined tag
    · rw [if_pos hvisible, decide_eq_false (not_not.2 hvisible)]
      simp only
      rw [if_neg (by omega)]
      cases taglines.mapM (readTagline fid2path tag) with
      | none => rfl
      | some vb =>
        simp only [Option.map_some, Option.bind_eq_bind, Option.bind_some, Bool.false_eq_true,
          if_false]
        cases (vb.mergeSort compareTags).mapM (unfoldRecord g fuel) with
        | none => rfl
        | some gtps => rfl
    · rw [if_neg hvisible, decide_eq_true hvisible]
      rfl

/-- The records put for the files of `refs`, in any order. -/
theorem exists_shown [SysParam] (openCompact : Bool) {tag : List Char} (htag : tag ≠ [])
    (hblank : ' ' ∉ tag) (hat : '@' ∉ tag)
    {fid2path : List Char → Option (List Char)} {refs : List Reference}
    (hnodup : (refs.map (·.path)).Nodup) (hknown : Known fid2path refs)
    {written records : List (List Char × List Char)}
    (hwritten : flushAll (grtagsCreated openCompact) tag refs = some written)
    (hperm : records.Perm written) (files : List Char → Option (List (List Char))) :
    ∃ fuel, ∀ more, fuel ≤ more →
      ∃ shown, showSorted fid2path (grtagsOpened openCompact) files more tag
          (records.map (·.2)) = some shown ∧
        (shown.map Shown.place).Pairwise InOrder ∧
        (∀ place, place ∈ shown.map Shown.place ↔
          ∃ r ∈ refs, ∃ n ∈ r.lnoArray, 0 < n ∧ place = (tag, r.path, n, r.fid)) ∧
        ∀ path lines, files path = some lines →
          (∀ r ∈ refs, r.path = path → ∀ n ∈ r.lnoArray, n ≤ lines.length) →
          ∀ out ∈ shown, out.path = path → lines[out.lineno - 1]? = some out.image := by
  by_cases hkeylen : tag.length ≤ maxKeyLen
  swap
  · obtain ⟨rfl, hnone⟩ := flushAll_of_long (g := grtagsCreated openCompact) hkeylen hwritten
    obtain rfl := hperm.eq_nil
    refine ⟨0, fun more _ => ⟨[], by simp [showSorted, search], .nil, fun place => ?_, by simp⟩⟩
    refine iff_of_false List.not_mem_nil ?_
    rintro ⟨r, hr, n, hn, hpos, -⟩
    exact hnone r hr n hn hpos
  obtain ⟨first, parts, hfirst, hparts, hapart, href, hlines⟩ :=
    flushAll_parts (grtagsCreated openCompact) (grtagsOpened openCompact) (createTable openCompact)
      rfl rfl tag htag hkeylen hblank hat (.inr rfl) (fun _ h => h) hnodup
  obtain rfl := Option.some.inj (hwritten.symm.trans hfirst)
  have hkey : (grtagsCreated openCompact).key tag = tag := rfl
  rw [hkey] at hparts
  -- the parts in the order of the database
  obtain ⟨parts', hparts', hperm'⟩ := List.perm_comp_forall₂ hperm hparts
  obtain ⟨fuel, hfuel⟩ := exists_raws hknown hat hparts'
  refine ⟨fuel, fun more hle => ?_⟩
  obtain ⟨raws, hraws, hisRaw⟩ := hfuel more hle
  -- and in the order of the segment
  obtain ⟨parts'', hisRaw', hperm''⟩ :=
    List.perm_comp_forall₂ (List.mergeSort_perm raws compareTags) hisRaw
  have hall : parts''.Perm parts := hperm''.trans hperm'
  have hbefore := before_of_sorted hisRaw' (compareTags_sorted raws)
    (hapart.perm hall.symm Part.Apart.symm)
  obtain ⟨gtps, hgtps, hisGtp⟩ := exists_gtps hisRaw'
  have hin : ∀ a ∈ parts'', a ∈ parts := fun a ha => hall.mem_iff.1 ha
  have hsorted : ∀ a ∈ parts'', a.ns.Pairwise (· < ·) := by
    intro a ha
    obtain ⟨r, -, hr⟩ := forall₂_exists hparts (hin a ha)
    exact hr.sorted
  have hmem : ∀ a ∈ parts'', ∀ n ∈ a.ns, n ∈ a.ref.lnoArray ∧ 0 < n := by
    intro a ha n hn
    exact (hlines a.ref (href a (hin a ha)) n).1 ⟨a, hin a ha, rfl, hn⟩
  have hwf := gtps_wellFormed hisGtp fun a ha => by
    obtain ⟨raw, -, hraw⟩ := forall₂_exists hisRaw' ha
    refine ⟨hknown.ne_nil _ (href a (hin a ha)), ?_, hsorted a ha, fun n hn => (hmem a ha n hn).2⟩
    intro hnil
    have hhead := hraw.head
    rw [hnil] at hhead
    cases hhead
  refine ⟨(search files false .start gtps).2, ?_, ?_, ?_, ?_⟩
  · rw [showSorted, hraws, Option.bind_some, hgtps, Option.map_some]
  · rw [search_places, flatMap_places hisGtp]
    exact places_inOrder hsorted hbefore
  · intro place
    rw [search_places, flatMap_places hisGtp, places, List.mem_flatMap]
    constructor
    · rintro ⟨a, ha, hplace⟩
      obtain ⟨n, hn, rfl⟩ := List.mem_map.1 hplace
      obtain ⟨hlno, hpos⟩ := hmem a ha n hn
      exact ⟨a.ref, href a (hin a ha), n, hlno, hpos, rfl⟩
    · rintro ⟨r, hr, n, hlno, hpos, rfl⟩
      obtain ⟨a, ha, rfl, hn⟩ := (hlines r hr n).2 ⟨hlno, hpos⟩
      exact ⟨a, hall.mem_iff.2 ha, List.mem_map.2 ⟨n, hn, rfl⟩⟩
  · intro path lines hfile hrange
    refine image_of_mem_search gtps hwf (gtps_follow hisGtp hbefore) path lines hfile ?_
    intro r hr hpath name hname
    obtain ⟨a, ha, tagname, rfl⟩ := forall₂_exists hisGtp.flip hr
    obtain ⟨n, hn, rfl⟩ := List.mem_map.1 hname
    exact hrange a.ref (href a (hin a ha)) hpath n (hmem a ha n hn).1

/-- **References of a tag**: for the records that gtags put for the files of `refs`, in any
order, global shows each reference once, by path and line number, with its line of the
source file, as a reference or as a symbol. -/
theorem references_shown [SysParam] (openCompact : Bool) {db : Db} (hdb : db = .grtags ∨ db = .gsyms)
    (defined : List Char → Bool) {tag : List Char} (htag : tag ≠ []) (hlen : tag.length < identLen)
    (hblank : ' ' ∉ tag) (hat : '@' ∉ tag)
    {fid2path : List Char → Option (List Char)} {refs : List Reference}
    (hnodup : (refs.map (·.path)).Nodup) (hknown : Known fid2path refs)
    {written records : List (List Char × List Char)}
    (hwritten : flushAll (grtagsCreated openCompact) tag refs = some written)
    (hperm : records.Perm written) (files : List Char → Option (List (List Char))) :
    ∃ fuel, ∀ more, fuel ≤ more →
      ∃ shown, searchTag db defined fid2path (grtagsOpened openCompact) files more tag
          (records.map (·.2)) = some shown ∧
        (shown.map Shown.place).Pairwise InOrder ∧
        (∀ place, place ∈ shown.map Shown.place ↔ Visible db defined tag ∧
          ∃ r ∈ refs, ∃ n ∈ r.lnoArray, 0 < n ∧ place = (tag, r.path, n, r.fid)) ∧
        ∀ path lines, files path = some lines →
          (∀ r ∈ refs, r.path = path → ∀ n ∈ r.lnoArray, n ≤ lines.length) →
          ∀ out ∈ shown, out.path = path → lines[out.lineno - 1]? = some out.image := by
  obtain ⟨fuel, hfuel⟩ := exists_shown openCompact htag hblank hat hnodup hknown hwritten hperm files
  refine ⟨fuel, fun more hle => ?_⟩
  obtain ⟨shown, hshown, hsorted, hplaces, himages⟩ := hfuel more hle
  rw [searchTag_eq hdb defined hlen]
  split_ifs with hvisible
  · exact ⟨shown, hshown, hsorted, by simpa [hvisible] using hplaces, himages⟩
  · exact ⟨[], rfl, .nil, by simp [hvisible], by simp⟩

section

attribute [local instance] linux

theorem references_shown_main :
    let refs : List Reference := [⟨"1".toList, "./a.c".toList, [3, 1, 2]⟩]
    let fid2path := fun fid => if fid = "1".toList then some "./a.c".toList else none
    let defined := fun tag => decide (tag = "main".toList)
    let files := fun path =>
      if path = "./a.c".toList then some ["main();".toList, "main(1);".toList, "main(2);".toList]
      else none
    ∃ written, flushAll (grtagsCreated false) "main".toList refs = some written ∧
      ∃ fuel, ∀ more, fuel ≤ more →
        ∃ shown, searchTag .grtags defined fid2path (grtagsOpened false) files more "main".toList
            (written.map (·.2)) = some shown ∧
          (shown.map Shown.place).Pairwise InOrder ∧
          (∀ place, place ∈ shown.map Shown.place ↔ Visible .grtags defined "main".toList ∧
            ∃ r ∈ refs, ∃ n ∈ r.lnoArray, 0 < n ∧ place = ("main".toList, r.path, n, r.fid)) ∧
          ∀ path lines, files path = some lines →
            (∀ r ∈ refs, r.path = path → ∀ n ∈ r.lnoArray, n ≤ lines.length) →
            ∀ out ∈ shown, out.path = path → lines[out.lineno - 1]? = some out.image := by
  intro refs fid2path defined files
  obtain ⟨written, -, hwritten, -⟩ :=
    flushAll_parts (grtagsCreated false) (grtagsOpened false) Compress.defaultTable rfl rfl
      "main".toList (by decide) (by decide) (by decide) (by decide) (.inr rfl)
      (fun _ h => h) (show (refs.map (·.path)).Nodup by decide)
  have hknown : Known fid2path refs :=
    ⟨by decide, by decide, by decide⟩
  exact ⟨written, hwritten, references_shown false (.inl rfl) defined (by decide) (by decide)
    (by decide) (by decide) (by decide) hknown hwritten (.refl written) files⟩

end

end EmacsConfig.Global.References
