import EmacsConfig.Global.References
import EmacsConfig.Global.Update

/-!
# Tag files over a run of updates

gtags creates the tag files of a tree once and then updates them, each time for the tree
as it has become. When a file that changes between two updates has a modification time
after the first of them, the tag files always hold what the parsers find in the current
files, and global shows the current references.
-/

namespace EmacsConfig.Global.Freshness

open Gparam Grouping TagRecords TagSearch References PathIds TagFiles Update

/-- The tree that an update finds, and the time when it is done. -/
structure Visit where
  tree : Tree
  now : ℕ

def updates [SysParam] (cfg : Config) (site : Site) (visits : List Visit) : Option Site :=
  visits.foldlM (fun site v => (incremental cfg v.tree v.now none site).map (·.1)) site

/-- The tag files are created, then updated. -/
def gtagsRun [SysParam] (cfg : Config) (first : Visit) (later : List Visit) : Option Site :=
  (createtags cfg first.tree first.now).bind fun site => updates cfg site later

/-- Between two visits: what changes is modified after the first of them. -/
structure Honest (cfg : Config) (v v' : Visit) : Prop where
  clock : v.now ≤ v'.now
  mtime : ∀ p ∈ v'.tree.found, p ∈ v.tree.found → cfg.issourcefile p →
    v'.tree.syms p ≠ v.tree.syms p → ∃ t, v'.tree.mtime p = some t ∧ v.now < t

/-- The tag files hold what the parsers find in the tree. -/
structure UpToDate [SysParam] (cfg : Config) (tree : Tree) (site : Site) : Prop where
  indexed : ∀ p, isPath p → ((gpathPath2fid site.gpath p).isSome ↔ Indexed cfg tree p)
  gtags : ∀ p fid, isPath p → gpathPath2fid site.gpath p = some (fid, .source) →
    ∃ rs, fileRecords cfg.gtags fid (defs (tree.syms p)) = some rs ∧
      (site.data.gtags.db.filter fun r => atoi r.2 = atoi fid).Perm rs
  grtags : ∀ p fid, isPath p → gpathPath2fid site.gpath p = some (fid, .source) →
    ∃ rs, fileRecords cfg.grtags fid (refSyms (tree.syms p)) = some rs ∧
      (site.data.grtags.db.filter fun r => atoi r.2 = atoi fid).Perm rs
  only : ∀ r, r ∈ site.data.gtags.db ∨ r ∈ site.data.grtags.db →
    ∃ p, gpathPath2fid site.gpath p = some (Decimal.putNumber (atoi r.2), .source)

/-- The invariant of a run. -/
structure InSync [SysParam] (cfg : Config) (v : Visit) (site : Site) (files : Files)
    (content : ℕ → List Sym) : Prop where
  rep : Rep cfg site.gpath site.data files content
  mtime : site.mtime ≤ v.now
  has : ∀ p, files.Has p ↔ Indexed cfg v.tree p
  syms : ∀ id p, files id = some (p, .source) → content id = v.tree.syms p

section

variable [SysParam] {cfg : Config} {v v' : Visit} {site : Site} {files : Files} {content : ℕ → List Sym}

/-- **One update.** -/
theorem InSync.step (hcfg : cfg.Ready) (h : InSync cfg v site files content)
    (htree : v'.tree.Regular cfg) (hhonest : Honest cfg v v')
    (hroom : site.gpath.nextkey + v'.tree.found.length ≤ intMax) :
    ∃ site' files' content', (incremental cfg v'.tree v'.now none site).map (·.1) = some site' ∧
      InSync cfg v' site' files' content' ∧
      site'.gpath.nextkey ≤ site.gpath.nextkey + v'.tree.found.length := by
  obtain ⟨site', updated, files', content', hrun, hrep, hmtime, hnext, href⟩ :=
    h.rep.full_update hcfg htree hroom v'.now
  have hle := h.mtime
  have hclock := hhonest.clock
  refine ⟨site', files', content', by rw [hrun, Option.map_some], ⟨hrep, ?_, href.has, ?_⟩, hnext⟩
  · rw [hmtime]
    split_ifs <;> omega
  · intro id p hid
    by_cases hnew : ¬ files.Has p ∨ Modified v'.tree site p
    · exact href.parsed id p hid hnew
    · rw [not_or, not_not] at hnew
      obtain ⟨⟨k, t, hk⟩, hnot⟩ := hnew
      have hsource := issourcefile_of_typeOf (hrep.typeOf id p _ hid)
      have hk' : files k = some (p, .source) := by
        rw [hk, h.rep.typeOf k p t hk, typeOf_source hsource]
      have hfound := ((href.has p).1 ⟨id, _, hid⟩).1
      have hfound' := ((h.has p).1 ⟨k, t, hk⟩).1
      obtain ⟨hkeep, hsame⟩ := href.kept k p hk' hfound hnot
      obtain rfl := hrep.gpath.injective hid hkeep
      rw [hsame, h.syms id p hk']
      -- a file that is not modified has not changed
      by_contra hne
      obtain ⟨t', ht', hlt⟩ := hhonest.mtime p hfound hfound' hsource (Ne.symm hne)
      exact hnot ⟨t', ht', by omega⟩

theorem InSync.updates (hcfg : cfg.Ready) (h : InSync cfg v site files content)
    {later : List Visit} (hlater : ∀ v' ∈ later, v'.tree.Regular cfg)
    (hhonest : (v :: later).IsChain (Honest cfg))
    (hroom : site.gpath.nextkey + (later.map fun v => v.tree.found.length).sum ≤ intMax) :
    ∃ site' files' content', updates cfg site later = some site' ∧
      InSync cfg ((v :: later).getLast (List.cons_ne_nil _ _)) site' files' content' ∧
      site'.gpath.nextkey ≤
        site.gpath.nextkey + (later.map fun v => v.tree.found.length).sum := by
  induction later generalizing v site files content with
  | nil => exact ⟨site, files, content, rfl, h, by simp⟩
  | cons v' later ih =>
    rw [List.forall_mem_cons] at hlater
    rw [List.isChain_cons_cons] at hhonest
    rw [List.map_cons, List.sum_cons] at hroom
    obtain ⟨site₁, files₁, content₁, hnow, hsync, hnext⟩ :=
      h.step hcfg hlater.1 hhonest.1 (by omega)
    obtain ⟨site₂, files₂, content₂, hrun, hlast, hnext₂⟩ := ih hsync hlater.2 hhonest.2 (by omega)
    refine ⟨site₂, files₂, content₂, ?_, ?_, ?_⟩
    · rw [Freshness.updates, List.foldlM_cons, hnow]
      exact hrun
    · rwa [List.getLast_cons (List.cons_ne_nil v' later)]
    · rw [List.map_cons, List.sum_cons]
      omega

/-- What a site in sync says to those who read it. -/
theorem InSync.upToDate (h : InSync cfg v site files content) : UpToDate cfg v.tree site where
  indexed p hp := by
    rw [gpathPath2fid, h.rep.gpath.isSome_iff hp, h.has]
  gtags p fid hp hfid := by
    obtain ⟨id, rfl, hid⟩ := (h.rep.gpath.path2fid p hp fid _).1 hfid
    obtain ⟨rs, hrs, hperm⟩ := h.rep.data.gtags.records id
    rw [h.rep.data.gtop, h.syms id p hid] at hrs
    exact ⟨rs, hrs, by rwa [atoi_putNumber]⟩
  grtags p fid hp hfid := by
    obtain ⟨id, rfl, hid⟩ := (h.rep.gpath.path2fid p hp fid _).1 hfid
    obtain ⟨rs, hrs, hperm⟩ := h.rep.data.grtags.records id
    rw [h.rep.data.gtop', h.syms id p hid] at hrs
    exact ⟨rs, hrs, by rwa [atoi_putNumber]⟩
  only r hr := by
    have hcontent : content (atoi r.2) ≠ [] := by
      intro hnil
      rcases hr with hr | hr
      · exact h.rep.data.gtags.content_ne_nil hr (by rw [hnil]; rfl)
      · exact h.rep.data.grtags.content_ne_nil hr (by rw [hnil]; rfl)
    by_contra hnone
    refine hcontent (h.rep.empty _ fun p hid => hnone ⟨p, ?_⟩)
    exact (h.rep.gpath.path2fid p (h.rep.gpath.isPath _ p _ hid) _ _).2 ⟨_, rfl, hid⟩

end

/-- The ids that a run may give out. -/
def idBound (visits : List Visit) : ℕ := 1 + (visits.map fun v => v.tree.found.length).sum

/-- The configuration of gtags without EXTRACTMETHOD. -/
def standardConfig (issourcefile skipthisfile : List Char → Bool) (openCompact : Bool) : Config :=
  ⟨issourcefile, skipthisfile,
    ⟨createFormat .gtags openCompact, false, (createTable openCompact).entries⟩,
    grtagsCreated openCompact⟩

theorem ready_standardConfig (issourcefile skipthisfile : List Char → Bool) (openCompact : Bool) :
    (standardConfig issourcefile skipthisfile openCompact).Ready :=
  ⟨⟨createTable openCompact, rfl⟩, ⟨createTable openCompact, rfl⟩⟩

/-- A tree of source files, with the times of modification and what is found in them. -/
def sourceTree (entries : List (List Char × ℕ × List Sym)) : Tree where
  found := entries.map (·.1)
  mtime p := (entries.find? fun e => e.1 = p).map (·.2.1)
  isFile p := entries.any fun e => e.1 = p
  isBinary _ := false
  syms p := ((entries.find? fun e => e.1 = p).map (·.2.2)).getD []

theorem regular_sourceTree [SysParam] {cfg : Config} {entries : List (List Char × ℕ × List Sym)}
    (hnodup : (entries.map (·.1)).Nodup)
    (hpaths : ∀ e ∈ entries, isPath e.1 ∧ e.1.length ≤ maxKeyLen)
    (hsyms : ∀ e ∈ entries, ∀ s ∈ e.2.2,
      Gtop.Accepts cfg.gtags s.tag ∧ Gtop.Accepts cfg.grtags s.tag) :
    (sourceTree entries).Regular cfg := by
  have hfind : ∀ p ∈ entries.map (·.1), ∃ e ∈ entries, e.1 = p ∧
      entries.find? (fun e => e.1 = p) = some e := by
    intro p hp
    obtain ⟨e, he, rfl⟩ := List.mem_map.1 hp
    obtain ⟨e', he'⟩ : ∃ e', entries.find? (fun e' => e'.1 = e.1) = some e' :=
      Option.isSome_iff_exists.1 (List.find?_isSome.2 ⟨e, he, by simp⟩)
    exact ⟨e', List.mem_of_find?_eq_some he', by simpa using List.find?_some he', he'⟩
  refine ⟨hnodup, fun p hp => ?_, fun p hp => ?_, fun p hp _ => ?_⟩ <;>
    obtain ⟨e, he, rfl, hentry⟩ := hfind p hp
  · exact ⟨(hpaths e he).1, (hpaths e he).2⟩
  · refine ⟨List.any_eq_true.2 ⟨e, he, by simp⟩, ?_⟩
    simp only [sourceTree, hentry]
    rfl
  · have hthese : (sourceTree entries).syms e.1 = e.2.2 := by
      simp only [sourceTree, hentry]
      rfl
    rw [hthese]
    exact ⟨fun s hs => (hsyms e he s (List.mem_of_mem_filter hs)).1,
      fun s hs => (hsyms e he s (List.mem_of_mem_filter hs)).2⟩

/-- A run keeps in sync. -/
theorem exists_gtagsRun [SysParam] {cfg : Config} (hcfg : cfg.Ready) {first : Visit} {later : List Visit}
    (htrees : ∀ v ∈ first :: later, v.tree.Regular cfg)
    (hhonest : (first :: later).IsChain (Honest cfg)) (hroom : idBound (first :: later) ≤ intMax) :
    ∃ site files content, gtagsRun cfg first later = some site ∧
      InSync cfg ((first :: later).getLast (List.cons_ne_nil _ _)) site files content ∧
      site.gpath.nextkey ≤ idBound (first :: later) := by
  rw [List.forall_mem_cons] at htrees
  rw [idBound, List.map_cons, List.sum_cons] at hroom ⊢
  obtain ⟨site, files, content, hcreate, hmtime, hrep, hnext, hhas, hsyms⟩ :=
    exists_createtags hcfg htrees.1 (by omega) first.now
  have hsync : InSync cfg first site files content := ⟨hrep, hmtime.le, hhas, hsyms⟩
  obtain ⟨site', files', content', hrun, hlast, hnext'⟩ :=
    hsync.updates hcfg htrees.2 hhonest (by omega)
  refine ⟨site', files', content', ?_, hlast, by omega⟩
  rw [gtagsRun, hcreate, Option.bind_some, hrun]

/-- **The tag files follow the sources**: after any run of updates they hold, file by file,
the records that gtags would put for the current tree. -/
theorem tags_follow_sources [SysParam] {cfg : Config} (hcfg : cfg.Ready) {first : Visit} {later : List Visit}
    (htrees : ∀ v ∈ first :: later, v.tree.Regular cfg)
    (hhonest : (first :: later).IsChain (Honest cfg)) (hroom : idBound (first :: later) ≤ intMax) :
    ∃ site, gtagsRun cfg first later = some site ∧
      UpToDate cfg ((first :: later).getLast (List.cons_ne_nil _ _)).tree site := by
  obtain ⟨site, files, content, hrun, hsync, -⟩ := exists_gtagsRun hcfg htrees hhonest hroom
  exact ⟨site, hrun, hsync.upToDate⟩

section

attribute [local instance] linux

theorem tags_follow_sources_after_change :
    let cfg := standardConfig (fun _ => true) (fun _ => false) false
    let first : Visit := ⟨sourceTree [("./a.c".toList, 5,
      [⟨.parserDef, "main".toList, 1, "main()".toList⟩])], 10⟩
    let next : Visit := ⟨sourceTree [("./b.c".toList, 15, []), ("./a.c".toList, 12,
      [⟨.parserDef, "main".toList, 2, "main()".toList⟩])], 20⟩
    ∃ site, gtagsRun cfg first [next] = some site ∧ UpToDate cfg next.tree site := by
  intro cfg first next
  have htrees : ∀ v ∈ [first, next], v.tree.Regular cfg := by
    rw [List.forall_mem_cons, List.forall_mem_singleton]
    exact ⟨regular_sourceTree (by decide) (by decide) (by decide),
      regular_sourceTree (by decide) (by decide) (by decide)⟩
  have hhonest : Honest cfg first next := by
    refine ⟨by decide, fun p _ hp _ _ => ?_⟩
    obtain rfl := List.mem_singleton.1 hp
    exact ⟨12, rfl, by decide⟩
  exact tags_follow_sources (ready_standardConfig _ _ _) htrees (.cons_cons hhonest (.singleton _))
    (by decide)

end

/-- **A single update hides changes**: it makes GTAGS look newer than the files modified
before it, and the next update passes over them. -/
theorem single_update_hides_changes [SysParam] {cfg : Config} (hcfg : cfg.Ready) {first : Visit}
    {later : List Visit} (htrees : ∀ v ∈ first :: later, v.tree.Regular cfg)
    (hhonest : (first :: later).IsChain (Honest cfg)) {single next : Visit} {path : List Char}
    (hpath : Indexed cfg ((first :: later).getLast (List.cons_ne_nil _ _)).tree path)
    (hsource : cfg.issourcefile path) (hskip : ¬ cfg.skipthisfile path)
    (hbinary : ¬ single.tree.isBinary path)
    (haccepts : Accepts cfg.gtags cfg.grtags (single.tree.syms path))
    (hnext : next.tree.Regular cfg)
    (hroom : idBound (first :: later) + 1 + next.tree.found.length ≤ intMax) :
    ∃ site site₁ site₂, gtagsRun cfg first later = some site ∧
      incremental cfg single.tree single.now (some path) site = some (site₁, true) ∧
      (incremental cfg next.tree next.now none site₁).map (·.1) = some site₂ ∧
      ∀ p, p ≠ path → cfg.issourcefile p → p ∈ next.tree.found →
        p ∈ ((first :: later).getLast (List.cons_ne_nil _ _)).tree.found →
        (∃ t, next.tree.mtime p = some t ∧ t ≤ single.now) →
        ∃ fid rs, gpathPath2fid site₂.gpath p = some (fid, .source) ∧
          fileRecords cfg.gtags fid
            (defs (((first :: later).getLast (List.cons_ne_nil _ _)).tree.syms p)) = some rs ∧
          (site₂.data.gtags.db.filter fun r => atoi r.2 = atoi fid).Perm rs := by
  obtain ⟨site, files, content, hrun, hsync, hbound⟩ :=
    exists_gtagsRun hcfg htrees hhonest (by omega)
  have hlast := htrees _ (List.getLast_mem (List.cons_ne_nil first later))
  generalize (first :: later).getLast (List.cons_ne_nil _ _) = v at *
  obtain ⟨id, t, hid⟩ := (hsync.has path).2 hpath
  obtain rfl : t = .source := by
    rw [hsync.rep.typeOf id path t hid, typeOf_source hsource]
  obtain ⟨site₁, files₁, content₁, hsingle, hrep₁, hmtime₁, hnext₁, -, -, hrest⟩ :=
    hsync.rep.single_update hcfg hid hskip hbinary (hlast.ok path hpath.1) haccepts
      (by omega) single.now
  obtain ⟨site₂, updated, files₂, content₂, hfull, hrep₂, -, -, href⟩ :=
    hrep₁.full_update hcfg hnext (by omega) next.now
  refine ⟨site, site₁, site₂, hrun, hsingle, by rw [hfull, Option.map_some], ?_⟩
  rintro p hne hp hfound hfound' ⟨t, ht, hle⟩
  obtain ⟨k, t', hk⟩ := (hsync.has p).2 ⟨hfound', .inl hp⟩
  obtain rfl : t' = .source := by
    rw [hsync.rep.typeOf k p t' hk, typeOf_source hp]
  obtain ⟨hk₁, hsame₁⟩ := hrest k p hk hne
  obtain ⟨hk₂, hsame₂⟩ := href.kept k p hk₁ hfound (by
    rintro ⟨t', ht', hlt⟩
    rw [ht, Option.some.injEq] at ht'
    omega)
  obtain ⟨rs, hrs, hperm⟩ := hrep₂.data.gtags.records k
  rw [hrep₂.data.gtop, hsame₂, hsame₁, hsync.syms k p hk] at hrs
  refine ⟨Decimal.putNumber k, rs, ?_, hrs, by rwa [atoi_putNumber]⟩
  exact (hrep₂.gpath.path2fid p (hlast.ok p hfound').isPath _ _).2 ⟨k, rfl, hk₂⟩

section

attribute [local instance] linux

theorem single_update_hides_changes_of_b :
    let cfg := standardConfig (fun _ => true) (fun _ => false) false
    let main (lno : ℕ) : List Sym := [⟨.parserDef, "main".toList, lno, "main()".toList⟩]
    let first : Visit := ⟨sourceTree [("./a.c".toList, 5, main 1), ("./b.c".toList, 5, main 1)], 10⟩
    let next : Visit := ⟨sourceTree [("./a.c".toList, 12, main 2), ("./b.c".toList, 13, main 3)], 20⟩
    ∃ site site₁ site₂, gtagsRun cfg first [] = some site ∧
      incremental cfg next.tree next.now (some "./a.c".toList) site = some (site₁, true) ∧
      (incremental cfg next.tree next.now none site₁).map (·.1) = some site₂ ∧
      ∀ p, p ≠ "./a.c".toList → cfg.issourcefile p → p ∈ next.tree.found → p ∈ first.tree.found →
        (∃ t, next.tree.mtime p = some t ∧ t ≤ next.now) →
        ∃ fid rs, gpathPath2fid site₂.gpath p = some (fid, .source) ∧
          fileRecords cfg.gtags fid (defs (first.tree.syms p)) = some rs ∧
          (site₂.data.gtags.db.filter fun r => atoi r.2 = atoi fid).Perm rs := by
  intro cfg main first next
  have hfirst : first.tree.Regular cfg := regular_sourceTree (by decide) (by decide) (by decide)
  have hnext : next.tree.Regular cfg := regular_sourceTree (by decide) (by decide) (by decide)
  have hpath : "./a.c".toList ∈ first.tree.found := by decide
  exact single_update_hides_changes (ready_standardConfig _ _ _) (List.forall_mem_singleton.2 hfirst)
    (.singleton first) ⟨hpath, .inl rfl⟩ rfl Bool.false_ne_true Bool.false_ne_true
    (hnext.accepts _ (by decide) rfl) hnext (by decide)

end

/-! ## Searching after a run -/

/-- The references to `tag` in the file `id`. -/
def referenceOf (files : Files) (content : ℕ → List Sym) (tag : List Char) (id : ℕ) :
    Option Reference :=
  match files id with
  | some (p, .source) =>
    some ⟨Decimal.putNumber id, p, ((refSyms (content id)).filter fun s => s.tag = tag).map (·.lno)⟩
  | _ => none

theorem referenceOf_eq_some {files : Files} {content : ℕ → List Sym} {tag : List Char} {id : ℕ}
    {r : Reference} : referenceOf files content tag id = some r ↔
      ∃ p, files id = some (p, .source) ∧ r = ⟨Decimal.putNumber id, p,
        ((refSyms (content id)).filter fun s => s.tag = tag).map (·.lno)⟩ := by
  unfold referenceOf
  split <;> simp_all [eq_comm]

/-- The records of a tag are those that its references are flushed to. -/
theorem exists_flushAll [SysParam] {f : TagFile} {files : Files} {content : ℕ → List Sym} {tag : List Char}
    {tab : Compress.Table} (hf : f.Holds fun id => refSyms (content id))
    (htab : f.gtop.abbrevs = tab.entries) (hcompact : f.gtop.format.compact)
    (hkey : ∀ tag, f.gtop.key tag = tag) (htag : tag ≠ [])
    (hempty : ∀ id, (∀ p, files id ≠ some (p, .source)) → content id = []) (ids : List ℕ) :
    ∃ written, flushAll f.gtop tag (ids.filterMap (referenceOf files content tag)) = some written ∧
      (ids.flatMap fun id =>
        (f.db.filter fun r => r.1 = tag).filter fun r => atoi r.2 = id).Perm written := by
  induction ids with
  | nil => exact ⟨[], rfl, .nil⟩
  | cons id ids ih =>
    obtain ⟨written, hflush, hperm⟩ := ih
    obtain ⟨rs, hrs, hrecords⟩ := hf.records id
    have hnow : ((f.db.filter fun r => r.1 = tag).filter fun r => atoi r.2 = id).Perm
        (rs.filter fun r => r.1 = tag) := by
      have hcomm := List.filter_comm (fun r : Record => decide (atoi r.2 = id))
        (fun r => decide (r.1 = tag)) f.db
      rw [hcomm]
      exact hrecords.filter _
    rw [List.flatMap_cons]
    cases hr : referenceOf files content tag id with
    | none =>
      rw [List.filterMap_cons_none hr]
      refine ⟨written, hflush, ?_⟩
      have hnil : content id = [] := hempty id fun p hp => by
        rw [referenceOf, hp] at hr
        cases hr
      rw [hnil, show refSyms [] = [] from rfl, fileRecords_nil] at hrs
      obtain rfl := Option.some.inj hrs
      rw [hnow.eq_nil]
      exact hperm
    | some r =>
      rw [List.filterMap_cons_some hr]
      obtain ⟨p, hid, rfl⟩ := referenceOf_eq_some.1 hr
      refine ⟨(rs.filter fun r => r.1 = tag) ++ written, ?_, hnow.append hperm⟩
      have hfirst := fileRecords_filter htab hcompact hkey hrs (by rwa [hkey])
      obtain ⟨rss, hrss, hflat⟩ := Option.map_eq_some_iff.1 hflush
      rw [flushAll, List.mapM_cons, hfirst]
      simp only [Option.bind_eq_bind, Option.bind_some, hrss]
      simp [hflat]

/-- `is_defined_in_GTAGS` -/
def isDefined (site : Site) (name : List Char) : Bool := site.data.gtags.db.any fun r => r.1 = name

/-- The file of a tag line. -/
def fid2path (site : Site) (fid : List Char) : Option (List Char) :=
  (gpathFid2path site.gpath fid).map (·.1)

/-- The tag lines of a name, which the database returns in any order. -/
def TagLines (site : Site) (tag : List Char) (taglines : List (List Char)) : Prop :=
  taglines.Perm ((site.data.grtags.db.filter fun r => r.1 = tag).map (·.2))

/-- A parser finds a definition of the tag in the tree. -/
def Defines (cfg : Config) (tree : Tree) (tag : List Char) : Prop :=
  ∃ p ∈ tree.found, cfg.issourcefile p ∧ ∃ s ∈ defs (tree.syms p), s.tag = tag

/-- A parser finds a reference to the tag at line `lno` of `p`. -/
def Refers (cfg : Config) (tree : Tree) (tag p : List Char) (lno : ℕ) : Prop :=
  p ∈ tree.found ∧ cfg.issourcefile p ∧ ∃ s ∈ refSyms (tree.syms p), s.tag = tag ∧ s.lno = lno

section

variable [SysParam] {issourcefile skipthisfile : List Char → Bool} {openCompact : Bool} {v : Visit}
  {site : Site} {files : Files} {content : ℕ → List Sym} {tag : List Char}

/-- The source files of GPATH are those of the tree. -/
theorem InSync.exists_source_iff {cfg : Config} (h : InSync cfg v site files content)
    {p : List Char} : (∃ id, files id = some (p, .source)) ↔
      p ∈ v.tree.found ∧ cfg.issourcefile p := by
  constructor
  · rintro ⟨id, hid⟩
    have hsource := issourcefile_of_typeOf (h.rep.typeOf id p _ hid)
    exact ⟨((h.has p).1 ⟨id, _, hid⟩).1, hsource⟩
  · rintro ⟨hfound, hsource⟩
    obtain ⟨id, t, hid⟩ := (h.has p).2 ⟨hfound, .inl hsource⟩
    rw [h.rep.typeOf id p t hid, typeOf_source hsource] at hid
    exact ⟨id, hid⟩

/-- **GTAGS has the names that are defined in the tree.** -/
theorem InSync.isDefined_iff
    (h : InSync (standardConfig issourcefile skipthisfile openCompact) v site files content)
    (htree : v.tree.Regular (standardConfig issourcefile skipthisfile openCompact))
    (hlno : ∀ p ∈ v.tree.found, ∀ s ∈ v.tree.syms p, 0 < s.lno) :
    isDefined site tag ↔
      Defines (standardConfig issourcefile skipthisfile openCompact) v.tree tag := by
  have hkeys : ∀ id p, files id = some (p, .source) →
      ((∃ r ∈ site.data.gtags.db.filter fun r => atoi r.2 = id, r.1 = tag) ↔
        ∃ s ∈ defs (v.tree.syms p), s.tag = tag) := by
    intro id p hid
    obtain ⟨hfound, hsource⟩ := h.exists_source_iff.1 ⟨id, hid⟩
    obtain ⟨rs, hrs, hperm⟩ := h.rep.data.gtags.records id
    rw [h.rep.data.gtop, h.syms id p hid] at hrs
    have hentries : (standardConfig issourcefile skipthisfile openCompact).gtags.abbrevs =
        (createTable openCompact).entries := rfl
    have hiff := exists_key_iff hentries (fun _ => rfl) hrs
      (fun s hs => hlno p hfound s (List.mem_of_mem_filter hs))
      (htree.accepts p hfound hsource).defs tag
    simpa only [hperm.mem_iff] using hiff
  rw [isDefined, List.any_eq_true]
  simp only [decide_eq_true_eq]
  constructor
  · rintro ⟨r, hr, htag⟩
    obtain ⟨p, hid⟩ : ∃ p, files (atoi r.2) = some (p, .source) := by
      by_contra hnone
      refine h.rep.data.gtags.content_ne_nil hr ?_
      rw [h.rep.empty _ fun p hp => hnone ⟨p, hp⟩]
      rfl
    obtain ⟨hfound, hsource⟩ := h.exists_source_iff.1 ⟨_, hid⟩
    refine ⟨p, hfound, hsource, (hkeys _ p hid).1 ⟨r, List.mem_filter.2 ⟨hr, ?_⟩, htag⟩⟩
    exact decide_eq_true rfl
  · rintro ⟨p, hfound, hsource, hdefs⟩
    obtain ⟨id, hid⟩ := h.exists_source_iff.2 ⟨hfound, hsource⟩
    obtain ⟨r, hr, htag⟩ := (hkeys id p hid).2 hdefs
    exact ⟨r, List.mem_of_mem_filter hr, htag⟩

/-- The references to the tag, by file id. -/
def referencesOf (site : Site) (files : Files) (content : ℕ → List Sym) (tag : List Char) :
    List Reference :=
  (List.range site.gpath.nextkey).filterMap (referenceOf files content tag)

theorem InSync.mem_referencesOf {cfg : Config} (h : InSync cfg v site files content)
    {r : Reference} : r ∈ referencesOf site files content tag ↔
      ∃ id p, files id = some (p, .source) ∧ r = ⟨Decimal.putNumber id, p,
        ((refSyms (v.tree.syms p)).filter fun s => s.tag = tag).map (·.lno)⟩ := by
  rw [referencesOf, List.mem_filterMap]
  constructor
  · rintro ⟨id, -, hr⟩
    obtain ⟨p, hid, rfl⟩ := referenceOf_eq_some.1 hr
    exact ⟨id, p, hid, by rw [h.syms id p hid]⟩
  · rintro ⟨id, p, hid, rfl⟩
    have hlt := (h.rep.gpath.range id p _ hid).1
    exact ⟨id, List.mem_range.2 hlt, referenceOf_eq_some.2 ⟨p, hid, by rw [h.syms id p hid]⟩⟩

/-- No file occurs twice. -/
theorem InSync.nodup_referencesOf {cfg : Config} (h : InSync cfg v site files content) :
    ((referencesOf site files content tag).map (·.path)).Nodup := by
  rw [List.Nodup, List.pairwise_map, referencesOf, List.pairwise_filterMap]
  refine List.nodup_range.imp ?_
  intro id id' hne r hr r' hr' heq
  obtain ⟨p, hid, rfl⟩ := referenceOf_eq_some.1 hr
  obtain ⟨p', hid', rfl⟩ := referenceOf_eq_some.1 hr'
  obtain rfl : p = p' := heq
  exact hne (h.rep.gpath.injective hid hid')

theorem InSync.known {cfg : Config} (h : InSync cfg v site files content) :
    Known (fid2path site) (referencesOf site files content tag) := by
  refine ⟨?_, ?_, ?_⟩ <;> intro r hr <;> obtain ⟨id, p, hid, rfl⟩ := h.mem_referencesOf.1 hr
  · exact blank_not_mem_putNumber id
  · rw [fid2path, gpathFid2path, h.rep.gpath.fid2path, hid, Option.map_some]
  · have hpath := h.rep.gpath.isPath id p _ hid
    rintro rfl
    cases hpath

/-- **The records of a tag** are, up to order, those put for its references. -/
theorem InSync.exists_written
    (h : InSync (standardConfig issourcefile skipthisfile openCompact) v site files content)
    (htag : tag ≠ []) :
    ∃ written, flushAll (grtagsCreated openCompact) tag (referencesOf site files content tag) =
        some written ∧
      (site.data.grtags.db.filter fun r => r.1 = tag).Perm written := by
  have hgtop : site.data.grtags.gtop = grtagsCreated openCompact := h.rep.data.gtop'
  have hentries : site.data.grtags.gtop.abbrevs = (createTable openCompact).entries := by
    rw [hgtop]
    rfl
  obtain ⟨written, hflush, hperm⟩ := exists_flushAll h.rep.data.grtags hentries
    (by rw [hgtop]; rfl) (by rw [hgtop]; exact fun _ => rfl) htag h.rep.empty
    (List.range site.gpath.nextkey)
  rw [hgtop] at hflush
  refine ⟨written, hflush, (perm_flatMap_filter (fun r : Record => atoi r.2) List.nodup_range
    fun r hr => ?_).trans hperm⟩
  -- the records belong to files of GPATH
  by_contra hout
  rw [List.mem_range, not_lt] at hout
  refine h.rep.data.grtags.content_ne_nil (List.mem_of_mem_filter hr) ?_
  rw [h.rep.empty _ fun p hp => by rw [h.rep.gpath.eq_none hout] at hp; cases hp]
  rfl

end

/-- **References after updates**: after any run of updates, global shows each reference of
the current tree once, by path and line number, with its line of the file; as a reference
when the tree defines the tag, else as a symbol. -/
theorem references_after_updates [SysParam] (issourcefile skipthisfile : List Char → Bool)
    (openCompact : Bool) {first : Visit} {later : List Visit}
    (htrees : ∀ v ∈ first :: later,
      v.tree.Regular (standardConfig issourcefile skipthisfile openCompact))
    (hhonest : (first :: later).IsChain
      (Honest (standardConfig issourcefile skipthisfile openCompact)))
    (hroom : idBound (first :: later) ≤ intMax) {last : Visit}
    (hlast : (first :: later).getLast (List.cons_ne_nil _ _) = last)
    (hlno : ∀ p ∈ last.tree.found, ∀ s ∈ last.tree.syms p, 0 < s.lno)
    {db : Db} (hdb : db = .grtags ∨ db = .gsyms) {tag : List Char} (htag : tag ≠ [])
    (hlen : tag.length < identLen) (hblank : ' ' ∉ tag) (hat : '@' ∉ tag)
    (sources : List Char → Option (List (List Char))) :
    ∃ site, gtagsRun (standardConfig issourcefile skipthisfile openCompact) first later =
        some site ∧
      ∀ taglines, TagLines site tag taglines → ∃ fuel, ∀ more, fuel ≤ more →
        ∃ shown, searchTag db (isDefined site) (fid2path site) (grtagsOpened openCompact) sources
            more tag taglines = some shown ∧
          (shown.map Shown.place).Pairwise InOrder ∧
          (∀ place, place ∈ shown.map Shown.place ↔
            (db = .grtags ↔
              Defines (standardConfig issourcefile skipthisfile openCompact) last.tree tag) ∧
            ∃ p lno fid, Refers (standardConfig issourcefile skipthisfile openCompact) last.tree
                tag p lno ∧
              gpathPath2fid site.gpath p = some (fid, .source) ∧ place = (tag, p, lno, fid)) ∧
          ∀ path lines, sources path = some lines →
            (∀ s ∈ refSyms (last.tree.syms path), s.tag = tag → s.lno ≤ lines.length) →
            ∀ out ∈ shown, out.path = path → lines[out.lineno - 1]? = some out.image := by
  obtain ⟨site, files, content, hrun, hsync, -⟩ := exists_gtagsRun
    (ready_standardConfig issourcefile skipthisfile openCompact) htrees hhonest hroom
  have htree := htrees _ (List.getLast_mem (List.cons_ne_nil first later))
  rw [hlast] at hsync htree
  refine ⟨site, hrun, fun taglines htaglines => ?_⟩
  obtain ⟨written, hwritten, hperm⟩ := hsync.exists_written htag
  obtain ⟨records, rfl, hrecords⟩ := exists_perm_of_perm_map htaglines
  obtain ⟨fuel, hfuel⟩ := exists_shown openCompact htag hblank hat hsync.nodup_referencesOf
    hsync.known hwritten (hrecords.trans hperm) sources
  refine ⟨fuel, fun more hle => ?_⟩
  obtain ⟨shown, hshown, hsorted, hplaces, himages⟩ := hfuel more hle
  rw [searchTag_eq hdb (isDefined site) hlen]
  have hvisible : Visible db (isDefined site) tag ↔ (db = .grtags ↔
      Defines (standardConfig issourcefile skipthisfile openCompact) last.tree tag) := by
    rw [Visible, hsync.isDefined_iff htree hlno]
  split_ifs with hvis
  · refine ⟨shown, hshown, hsorted, fun place => ?_, fun path lines hlines hlong => ?_⟩
    · rw [hplaces, ← hvisible, and_iff_right hvis]
      constructor
      · rintro ⟨r, hr, n, hn, -, rfl⟩
        obtain ⟨id, p, hid, rfl⟩ := hsync.mem_referencesOf.1 hr
        obtain ⟨s, hs, rfl⟩ := List.mem_map.1 hn
        obtain ⟨hs, hname⟩ := List.mem_filter.1 hs
        obtain ⟨hfound, hsource⟩ := hsync.exists_source_iff.1 ⟨id, hid⟩
        refine ⟨p, s.lno, _, ⟨hfound, hsource, s, hs, of_decide_eq_true hname, rfl⟩, ?_, rfl⟩
        exact (hsync.rep.gpath.path2fid p (htree.ok p hfound).isPath _ _).2 ⟨id, rfl, hid⟩
      · rintro ⟨p, lno, fid, ⟨hfound, hsource, s, hs, hname, rfl⟩, hfid, rfl⟩
        obtain ⟨id, rfl, hid⟩ :=
          (hsync.rep.gpath.path2fid p (htree.ok p hfound).isPath _ _).1 hfid
        refine ⟨_, hsync.mem_referencesOf.2 ⟨id, p, hid, rfl⟩, s.lno, ?_, ?_, rfl⟩
        · exact List.mem_map_of_mem (List.mem_filter.2 ⟨hs, decide_eq_true hname⟩)
        · exact hlno p hfound s (List.mem_of_mem_filter hs)
    · refine himages path lines hlines fun r hr hpath n hn => ?_
      obtain ⟨id, p, hid, rfl⟩ := hsync.mem_referencesOf.1 hr
      obtain rfl : p = path := hpath
      obtain ⟨s, hs, rfl⟩ := List.mem_map.1 hn
      obtain ⟨hs, hname⟩ := List.mem_filter.1 hs
      exact hlong s hs (of_decide_eq_true hname)
  · refine ⟨[], rfl, .nil, fun place => ?_, by simp⟩
    simp [← hvisible, hvis]

section

attribute [local instance] linux

theorem references_after_updates_puts :
    let cfg := standardConfig (fun _ => true) (fun _ => false) false
    let first : Visit := ⟨sourceTree [("./a.c".toList, 5,
      [⟨.parserRefSym, "puts".toList, 2, "puts(s);".toList⟩])], 10⟩
    let next : Visit := ⟨sourceTree [("./b.c".toList, 15,
        [⟨.parserDef, "puts".toList, 1, "puts(s)".toList⟩]),
      ("./a.c".toList, 12, [⟨.parserRefSym, "puts".toList, 3, "puts(t);".toList⟩])], 20⟩
    let sources := fun path => if path = "./a.c".toList then
      some ["#include".toList, "f()".toList, "puts(t);".toList] else none
    ∃ site, gtagsRun cfg first [next] = some site ∧
      ∀ taglines, TagLines site "puts".toList taglines → ∃ fuel, ∀ more, fuel ≤ more →
        ∃ shown, searchTag .grtags (isDefined site) (fid2path site) (grtagsOpened false) sources
            more "puts".toList taglines = some shown ∧
          (shown.map Shown.place).Pairwise InOrder ∧
          (∀ place, place ∈ shown.map Shown.place ↔
            (Db.grtags = .grtags ↔ Defines cfg next.tree "puts".toList) ∧
            ∃ p lno fid, Refers cfg next.tree "puts".toList p lno ∧
              gpathPath2fid site.gpath p = some (fid, .source) ∧
              place = ("puts".toList, p, lno, fid)) ∧
          ∀ path lines, sources path = some lines →
            (∀ s ∈ refSyms (next.tree.syms path), s.tag = "puts".toList → s.lno ≤ lines.length) →
            ∀ out ∈ shown, out.path = path → lines[out.lineno - 1]? = some out.image := by
  intro cfg first next sources
  have htrees : ∀ v ∈ [first, next], v.tree.Regular cfg := by
    rw [List.forall_mem_cons, List.forall_mem_singleton]
    exact ⟨regular_sourceTree (by decide) (by decide) (by decide),
      regular_sourceTree (by decide) (by decide) (by decide)⟩
  have hhonest : Honest cfg first next := by
    refine ⟨by decide, fun p _ hp _ _ => ?_⟩
    obtain rfl := List.mem_singleton.1 hp
    exact ⟨12, rfl, by decide⟩
  exact references_after_updates _ _ false htrees (.cons_cons hhonest (.singleton _)) (by decide)
    (show _ = next from rfl) (by decide) (.inl rfl) (by decide) (by decide) (by decide) (by decide)
    sources

end

end EmacsConfig.Global.Freshness
