import EmacsConfig.Global.PathIds
import EmacsConfig.Global.TagFiles

/-!
# Updating the tag files (gtags/gtags.c)

`createtags` puts the tags of all files that find returns. `incremental` compares the
tree with GPATH: the records of files that are gone or have been modified since GTAGS was
written are deleted, those of new and modified files are put. After it the tag files hold
what the parsers find in each source file, or found in it when it was last modified.
-/

namespace EmacsConfig.Global.Update

open Gparam TagRecords FileIds PathIds TagFiles Refinement

/-- What does not change from one update to the next: the configuration and the formats. -/
structure Config where
  issourcefile : List Char → Bool
  skipthisfile : List Char → Bool
  gtags : Gtop
  grtags : Gtop

/-- The tree as an update sees it. `find_read` returns the paths `found`, with a blank
before those that are no source files; `syms` is what `parse_file` calls `put_syms` with. -/
structure Tree where
  found : List (List Char)
  mtime : List Char → Option ℕ
  isFile : List Char → Bool
  isBinary : List Char → Bool
  syms : List Char → List Sym

/-- The tag files, and the modification time of GTAGS. -/
structure Site where
  gpath : Gpath
  data : Gtops
  mtime : ℕ

/-- The lists and sets of `incremental`. -/
structure Lists where
  addlist : List (List Char)
  deletelist : List (List Char)
  addlistOther : List (List Char)
  deleteset : IdSet
  findset : IdSet
  deriving DecidableEq, Repr

section

variable [SysParam] (cfg : Config) (tree : Tree)

/-- The body of the loop of `updatetags`; `none` is also a corrupted GPATH. -/
def addSource (s : Gpath × Gtops) (path : List Char) : Option (Gpath × Gtops) :=
  (gpathPut s.1 path .source).bind fun gpath =>
    (gpathPath2fid gpath path).bind fun fid =>
      (putFile fid.1 (tree.syms path) s.2).map fun data => (gpath, data)

/-- The body of the loop of `createtags`. -/
def createOne (s : Gpath × Gtops) (path : List Char) : Option (Gpath × Gtops) :=
  if cfg.issourcefile path then addSource tree s path
  else if tree.isBinary path then some s
  else (gpathPut s.1 path .other).map fun gpath => (gpath, s.2)

def createtags (now : ℕ) : Option Site :=
  (tree.found.foldlM (createOne cfg tree)
    (gpathCreate, ⟨⟨cfg.gtags, [], []⟩, ⟨cfg.grtags, [], []⟩⟩)).map fun s => ⟨s.1, s.2, now⟩

def updatetags (s : Gpath × Gtops) (deleteset : IdSet) (addlist : List (List Char)) :
    Option (Gpath × Gtops) :=
  let data :=
    if deleteset.isEmpty then s.2
    else ⟨s.2.gtags.delete deleteset, s.2.grtags.delete deleteset⟩
  addlist.foldlM (addSource tree) (s.1, data)

def Lists.start (g : Gpath) : Lists := ⟨[], [], [], idsetOpen g.nextkey, idsetOpen g.nextkey⟩

/-- A path of `find_read`, compared with GPATH. -/
def inspect (site : Site) (l : Lists) (path : List Char) : Option Lists :=
  if !cfg.issourcefile path && tree.isBinary path then some l
  else
    match tree.mtime path, gpathPath2fid site.gpath path with
    | none, _ => none
    | some _, none =>
      if cfg.issourcefile path then some { l with addlist := l.addlist ++ [path] }
      else some { l with addlistOther := l.addlistOther ++ [path] }
    | some mtime, some fid =>
      (idsetAdd l.findset (atoi fid.1)).bind fun findset =>
        if cfg.issourcefile path && site.mtime < mtime then
          (idsetAdd l.deleteset (atoi fid.1)).map fun deleteset =>
            { l with addlist := l.addlist ++ [path], deleteset := deleteset, findset := findset }
        else some { l with findset := findset }

/-- An id of GPATH, compared with the tree. -/
def sweep (site : Site) (l : Lists) (id : ℕ) : Option Lists :=
  match gpathFid2path site.gpath (Decimal.putNumber id) with
  | none => some l
  | some (path, .other) =>
    if !idsetContains l.findset id || !tree.isFile path || tree.isBinary path then
      some { l with deletelist := l.deletelist ++ [path] }
    else some l
  | some (path, .source) =>
    if !idsetContains l.findset id || !tree.isFile path then
      (idsetAdd l.deleteset id).map fun deleteset =>
        { l with deletelist := l.deletelist ++ [path], deleteset := deleteset }
    else some l

def inspectTree (site : Site) : Option Lists :=
  (tree.found.foldlM (inspect cfg tree site) (Lists.start site.gpath)).bind fun l =>
    (List.range' 1 (site.gpath.nextkey - 1)).foldlM (sweep tree site) l

/-- The option `--single-update`; where the source leaves for `exit`, the lists stay empty. -/
def inspectSingle (site : Site) (path : List Char) : Option Lists :=
  let l := Lists.start site.gpath
  if cfg.skipthisfile path || tree.isBinary path then some l
  else
    match gpathPath2fid site.gpath path with
    | none =>
      if cfg.issourcefile path then some { l with addlist := [path] }
      else some { l with addlistOther := [path] }
    | some (_, .other) => some l
    | some (fid, .source) =>
      (idsetAdd l.deleteset (atoi fid)).map fun deleteset =>
        { l with addlist := [path], deleteset := deleteset }

def Lists.tags (l : Lists) : Bool := !l.deleteset.isEmpty || !l.addlist.isEmpty

def Lists.updated (l : Lists) : Bool :=
  l.tags || !l.deletelist.isEmpty || !l.addlistOther.isEmpty

def updateTags (site : Site) (l : Lists) : Option (Gpath × Gtops) :=
  if l.tags then updatetags tree (site.gpath, site.data) l.deleteset l.addlist
  else some (site.gpath, site.data)

def updateGpath (gpath : Gpath) (l : Lists) : Option Gpath :=
  (l.deletelist.foldlM gpathDelete gpath).bind fun gpath =>
    l.addlistOther.foldlM (fun gpath path => gpathPut gpath path .other) gpath

/-- The second half of `incremental`. -/
def execute (now : ℕ) (site : Site) (l : Lists) : Option (Site × Bool) :=
  if l.updated then
    (updateTags tree site l).bind fun s =>
      (updateGpath s.1 l).map fun gpath => (⟨gpath, s.2, now⟩, true)
  else some (site, false)

def incremental (now : ℕ) (single : Option (List Char)) (site : Site) : Option (Site × Bool) :=
  (match single with
    | some path => inspectSingle cfg tree site path
    | none => inspectTree cfg tree site).bind (execute tree now site)

end

/-! ## What the tag files stand for -/

/-- The type under which a path goes into GPATH. -/
def Config.typeOf (cfg : Config) (path : List Char) : PathType :=
  if cfg.issourcefile path then .source else .other

/-- The tables of abbreviations are in order. -/
structure Config.Ready (cfg : Config) : Prop where
  gtags : ∃ tab : Compress.Table, cfg.gtags.abbrevs = tab.entries
  grtags : ∃ tab : Compress.Table, cfg.grtags.abbrevs = tab.entries

/-- `files` are the files by id, `content` is what the tag files hold for them. -/
structure Rep [SysParam] (cfg : Config) (gpath : Gpath) (data : Gtops) (files : Files)
    (content : ℕ → List Sym) : Prop where
  gpath : PathIds.Rep gpath files
  data : Gtops.Holds cfg.gtags cfg.grtags data content
  empty : ∀ id, (∀ path, files id ≠ some (path, .source)) → content id = []
  typeOf : ∀ id path type, files id = some (path, type) → type = cfg.typeOf path

/-- A path that GPATH can take. -/
structure Path.Ok [SysParam] (path : List Char) : Prop where
  isPath : isPath path
  length : path.length ≤ maxKeyLen

section

variable {cfg : Config} {tree : Tree} {g : Gpath} {d : Gtops} {files : Files}
  {content : ℕ → List Sym} {path : List Char}

theorem typeOf_source (h : cfg.issourcefile path) : cfg.typeOf path = .source := by
  rw [Config.typeOf, if_pos h]

theorem typeOf_other (h : ¬ cfg.issourcefile path) : cfg.typeOf path = .other := by
  rw [Config.typeOf, if_neg h]

theorem issourcefile_of_typeOf (h : .source = cfg.typeOf path) : cfg.issourcefile path := by
  by_contra hnot
  rw [typeOf_other hnot] at h
  cases h

variable [SysParam]

theorem rep_create (cfg : Config) :
    Rep cfg gpathCreate ⟨⟨cfg.gtags, [], []⟩, ⟨cfg.grtags, [], []⟩⟩ (fun _ => none) fun _ => [] where
  gpath := PathIds.rep_create
  data := Gtops.holds_create cfg.gtags cfg.grtags
  empty _ _ := rfl
  typeOf _ _ _ h := by cases h

/-- A path keeps its type, and its id when it has one. -/
theorem Rep.typeOf_update (h : Rep cfg g d files content) {id : ℕ} {type : PathType}
    (htype : type = cfg.typeOf path) (k : ℕ) (p : List Char) (t : PathType)
    (hk : Function.update files id (some (path, type)) k = some (p, t)) : t = cfg.typeOf p := by
  by_cases heq : k = id
  · rw [heq, Function.update_self, Option.some.injEq, Prod.mk.injEq] at hk
    rw [← hk.1, ← hk.2, htype]
  · rw [Function.update_of_ne heq] at hk
    exact h.typeOf k p t hk

/-- **A source file is put**: its id then has the tags found in it. -/
theorem Rep.addSource (hcfg : cfg.Ready) (h : Rep cfg g d files content) (hpath : Path.Ok path)
    (hsource : cfg.issourcefile path) (hroom : g.nextkey < intMax)
    (hempty : ∀ id, files id = some (path, .source) → content id = [])
    (hsyms : Accepts cfg.gtags cfg.grtags (tree.syms path)) :
    ∃ g' d' id, addSource tree (g, d) path = some (g', d') ∧
      Rep cfg g' d' (Function.update files id (some (path, .source)))
        (Function.update content id (tree.syms path)) ∧
      Assigned g g' files path .source id := by
  obtain ⟨g', id, hput, hrep, hid⟩ := h.gpath.put hpath.isPath hpath.length hroom
    fun k t hk => (h.typeOf k path t hk).trans (typeOf_source hsource)
  have hfid : gpathPath2fid g' path = some (Decimal.putNumber id, .source) :=
    (hrep.path2fid path hpath.isPath _ _).2 ⟨id, rfl, Function.update_self ..⟩
  have hnil : content id = [] := by
    rcases hid with ⟨hid, -⟩ | ⟨rfl, -⟩
    · exact hempty id hid
    · refine h.empty _ fun p hp => ?_
      rw [h.gpath.eq_none le_rfl] at hp
      cases hp
  obtain ⟨tab, htab⟩ := hcfg.gtags
  obtain ⟨tab', htab'⟩ := hcfg.grtags
  obtain ⟨d', hd', hdata⟩ := h.data.putFile htab htab' hnil hsyms
  refine ⟨g', d', id, ?_, ⟨hrep, hdata, fun k hk => ?_, ?_⟩, hid⟩
  · rw [Update.addSource, hput, Option.bind_some, hfid, Option.bind_some, hd']
    rfl
  · by_cases heq : k = id
    · subst heq
      exact absurd (Function.update_self ..) (hk path)
    · rw [Function.update_of_ne heq]
      refine h.empty k fun p hp => hk p ?_
      rwa [Function.update_of_ne heq]
  · exact h.typeOf_update (typeOf_source hsource).symm

/-- **Another file is put**; the tag files do not change. -/
theorem Rep.putOther (h : Rep cfg g d files content) (hpath : Path.Ok path)
    (hother : ¬ cfg.issourcefile path) (hroom : g.nextkey < intMax) :
    ∃ g' id, gpathPut g path .other = some g' ∧
      Rep cfg g' d (Function.update files id (some (path, .other))) content ∧
      Assigned g g' files path .other id := by
  obtain ⟨g', id, hput, hrep, hid⟩ := h.gpath.put hpath.isPath hpath.length hroom
    fun k t hk => (h.typeOf k path t hk).trans (typeOf_other hother)
  refine ⟨g', id, hput, ⟨hrep, h.data, fun k hk => ?_, ?_⟩, hid⟩
  · refine h.empty k fun p hp => ?_
    have hne : k ≠ id := by
      rintro rfl
      rcases hid with ⟨hid, -⟩ | ⟨rfl, -⟩
      · rw [hid] at hp
        cases hp
      · rw [h.gpath.eq_none le_rfl] at hp
        cases hp
    exact hk p (by rwa [Function.update_of_ne hne])
  · exact h.typeOf_update (typeOf_other hother).symm

/-- **A path is deleted**; the tag files must hold nothing for it. -/
theorem Rep.gpathDelete (h : Rep cfg g d files content) (hpath : isPath path)
    (hempty : ∀ id, files id = some (path, .source) → content id = []) :
    ∃ g', gpathDelete g path = some g' ∧ g'.nextkey = g.nextkey ∧
      Rep cfg g' d (files.erase path) content := by
  obtain ⟨g', hdelete, hnext, hrep⟩ := h.gpath.gpathDelete hpath
  refine ⟨g', hdelete, hnext, hrep, h.data, fun id hid => ?_, fun id p t hfile => ?_⟩
  · by_cases hsource : files id = some (path, .source)
    · exact hempty id hsource
    · refine h.empty id fun p hp => hid p (erase_eq_some.2 ⟨hp, ?_⟩)
      rintro rfl
      exact hsource hp
  · exact h.typeOf id p t (erase_eq_some.1 hfile).1

/-- **`gtags_delete`** of a set of ids. -/
theorem Rep.delete (h : Rep cfg g d files content) {set : IdSet} {m : Finset ℕ}
    (hset : Inv set m) :
    Rep cfg g ⟨d.gtags.delete set, d.grtags.delete set⟩ files fun id =>
      if id ∈ m then [] else content id := by
  refine ⟨h.gpath, h.data.delete hset, fun id hid => ?_, h.typeOf⟩
  split_ifs
  · rfl
  · exact h.empty id hid

/-! ## Loops -/

/-- From `files` and `content`, the paths `pre` have been put. -/
structure Added (cfg : Config) (tree : Tree) (files : Files) (content : ℕ → List Sym)
    (pre : List (List Char)) (files' : Files) (content' : ℕ → List Sym) : Prop where
  keep : ∀ id file, files id = some file → files' id = some file
  new : ∀ id p t, files' id = some (p, t) → files id = some (p, t) ∨ p ∈ pre
  listed : ∀ p ∈ pre, ∃ id, files' id = some (p, cfg.typeOf p)
  parsed : ∀ id, ∀ p ∈ pre, files' id = some (p, .source) → content' id = tree.syms p
  rest : ∀ id p, files id = some (p, .source) → p ∉ pre → content' id = content id

omit [SysParam] in
theorem added_nil (cfg : Config) (tree : Tree) (files : Files) (content : ℕ → List Sym) :
    Added cfg tree files content [] files content :=
  ⟨fun _ _ => id, fun _ _ _ => .inl, by simp, by simp, fun _ _ _ _ => rfl⟩

theorem Added.step {pre : List (List Char)} {files' : Files} {content' content'' : ℕ → List Sym}
    {g' : Gpath} {id : ℕ} (h : Added cfg tree files content pre files' content')
    (hrep : Rep cfg g d files' content') (hid : Assigned g g' files' path (cfg.typeOf path) id)
    (hsame : ∀ k, k ≠ id → content'' k = content' k)
    (hsyms : cfg.issourcefile path → content'' id = tree.syms path) :
    Added cfg tree files content (pre ++ [path])
      (Function.update files' id (some (path, cfg.typeOf path))) content'' where
  keep k file hk := hid.keep hrep.gpath (h.keep k file hk)
  new k p t hk := by
    by_cases heq : k = id
    · rw [heq, Function.update_self, Option.some.injEq, Prod.mk.injEq] at hk
      exact .inr (by simp [hk.1])
    · rw [Function.update_of_ne heq] at hk
      exact (h.new k p t hk).imp_right (List.mem_append_left _)
  listed p hp := by
    rcases List.mem_append.1 hp with hp | hp
    · obtain ⟨k, hk⟩ := h.listed p hp
      exact ⟨k, hid.keep hrep.gpath hk⟩
    · obtain rfl := List.mem_singleton.1 hp
      exact ⟨id, Function.update_self ..⟩
  parsed k p hp hk := by
    by_cases heq : k = id
    · rw [heq, Function.update_self, Option.some.injEq, Prod.mk.injEq] at hk
      obtain ⟨rfl, htype⟩ := hk
      rw [heq]
      exact hsyms (issourcefile_of_typeOf htype.symm)
    · rw [Function.update_of_ne heq] at hk
      rw [hsame k heq]
      rcases List.mem_append.1 hp with hp | hp
      · exact h.parsed k p hp hk
      · obtain rfl := List.mem_singleton.1 hp
        rcases hid with ⟨hid, -⟩ | ⟨-, hnew, -⟩
        · exact absurd (hrep.gpath.injective hk hid) heq
        · exact absurd ⟨k, _, hk⟩ hnew
  rest k p hk hp := by
    rw [List.mem_append, List.mem_singleton, not_or] at hp
    have hold := h.keep k _ hk
    have hne : k ≠ id := by
      rintro rfl
      rcases hid with ⟨hid, -⟩ | ⟨rfl, -⟩
      · rw [hid, Option.some.injEq, Prod.mk.injEq] at hold
        exact hp.2 hold.1.symm
      · rw [hrep.gpath.eq_none le_rfl] at hold
        cases hold
    rw [hsame k hne]
    exact h.rest k p hk hp.1

omit [SysParam] in
/-- A list of distinct paths, taken one after the other. -/
theorem split_facts {pre paths : List (List Char)} (hpre : pre ++ [path] <+: paths)
    (hnodup : paths.Nodup) : path ∈ paths ∧ path ∉ pre ∧ pre.length < paths.length := by
  refine ⟨hpre.subset (by simp), fun hmem => ?_, ?_⟩
  · have hsub := hnodup.sublist hpre.sublist
    rw [List.nodup_append] at hsub
    exact hsub.2.2 path hmem path List.mem_cons_self rfl
  · have := hpre.length_le
    simp only [List.length_append, List.length_singleton] at this
    omega

/-- **The loop of `updatetags`.** -/
theorem Rep.addSources (hcfg : cfg.Ready) (h : Rep cfg g d files content)
    {paths : List (List Char)} (hnodup : paths.Nodup)
    (hpaths : ∀ p ∈ paths, Path.Ok p ∧ cfg.issourcefile p ∧
      Accepts cfg.gtags cfg.grtags (tree.syms p))
    (hroom : g.nextkey + paths.length ≤ intMax)
    (hempty : ∀ p ∈ paths, ∀ id, files id = some (p, .source) → content id = []) :
    ∃ s files' content', paths.foldlM (Update.addSource tree) (g, d) = some s ∧
      Rep cfg s.1 s.2 files' content' ∧ s.1.nextkey ≤ g.nextkey + paths.length ∧
      Added cfg tree files content paths files' content' := by
  obtain ⟨s, hrun, files', content', hrep, hnext, hadded⟩ :
      ∃ s, paths.foldlM (Update.addSource tree) (g, d) = some s ∧ ∃ files' content',
        Rep cfg s.1 s.2 files' content' ∧ s.1.nextkey ≤ g.nextkey + paths.length ∧
          Added cfg tree files content paths files' content' := by
    refine foldlM_spec (fun pre (s : Gpath × Gtops) => ∃ files' content',
      Rep cfg s.1 s.2 files' content' ∧ s.1.nextkey ≤ g.nextkey + pre.length ∧
        Added cfg tree files content pre files' content')
      ⟨files, content, h, by simp, added_nil cfg tree files content⟩ ?_
    rintro pre p ⟨g₁, d₁⟩ hpre ⟨files₁, content₁, hrep, hnext, hadded⟩
    simp only at hrep hnext
    obtain ⟨hmem, hnot, hlen⟩ := split_facts hpre hnodup
    obtain ⟨hok, hsource, hsyms⟩ := hpaths p hmem
    have hnil : ∀ id, files₁ id = some (p, .source) → content₁ id = [] := by
      intro id hid
      have hold := (hadded.new id p _ hid).resolve_right hnot
      rw [hadded.rest id p hold hnot]
      exact hempty p hmem id hold
    obtain ⟨g₂, d₂, id, hstep, hrep₂, hid⟩ :=
      hrep.addSource hcfg hok hsource (by omega) hnil hsyms
    have hle := hid.nextkey_le
    rw [← typeOf_source hsource] at hid hrep₂
    refine ⟨(g₂, d₂), hstep, _, _, hrep₂, ?_, ?_⟩
    · simp only [List.length_append, List.length_singleton]
      omega
    · exact hadded.step hrep hid (fun k hk => Function.update_of_ne hk ..)
        fun _ => Function.update_self ..
  exact ⟨s, files', content', hrun, hrep, hnext, hadded⟩

/-- The loop over `addlist_other`. -/
theorem Rep.addOthers (h : Rep cfg g d files content) (tree : Tree) {paths : List (List Char)}
    (hpaths : ∀ p ∈ paths, Path.Ok p ∧ ¬ cfg.issourcefile p)
    (hroom : g.nextkey + paths.length ≤ intMax) :
    ∃ g' files', paths.foldlM (fun g p => gpathPut g p .other) g = some g' ∧
      Rep cfg g' d files' content ∧ g'.nextkey ≤ g.nextkey + paths.length ∧
      Added cfg tree files content paths files' content := by
  obtain ⟨g', hrun, files', hrep, hnext, hadded⟩ :
      ∃ g', paths.foldlM (fun g p => gpathPut g p .other) g = some g' ∧ ∃ files',
        Rep cfg g' d files' content ∧ g'.nextkey ≤ g.nextkey + paths.length ∧
          Added cfg tree files content paths files' content := by
    refine foldlM_spec (fun pre (g' : Gpath) => ∃ files', Rep cfg g' d files' content ∧
      g'.nextkey ≤ g.nextkey + pre.length ∧ Added cfg tree files content pre files' content)
      ⟨files, h, by simp, added_nil cfg tree files content⟩ ?_
    rintro pre p g₁ hpre ⟨files₁, hrep, hnext, hadded⟩
    have hlen := hpre.length_le
    simp only [List.length_append, List.length_singleton] at hlen ⊢
    obtain ⟨hok, hother⟩ := hpaths p (hpre.subset (by simp))
    obtain ⟨g₂, id, hput, hrep₂, hid⟩ := hrep.putOther hok hother (by omega)
    have hle := hid.nextkey_le
    rw [← typeOf_other hother] at hid hrep₂
    refine ⟨g₂, hput, _, hrep₂, by omega, ?_⟩
    exact hadded.step hrep hid (fun _ _ => rfl) fun hsource => absurd hsource hother
  exact ⟨g', files', hrun, hrep, hnext, hadded⟩

omit [SysParam] in
theorem foldl_erase_eq_some {paths : List (List Char)} {id : ℕ} {file : List Char × PathType} :
    paths.foldl Files.erase files id = some file ↔ files id = some file ∧ file.1 ∉ paths := by
  induction paths generalizing files with
  | nil => simp
  | cons p paths ih =>
    rw [List.foldl_cons, ih, erase_eq_some, List.mem_cons, not_or, and_assoc]

/-- The loop over `deletelist`. -/
theorem Rep.deleteAll (h : Rep cfg g d files content) {paths : List (List Char)}
    (hpaths : ∀ p ∈ paths, isPath p)
    (hempty : ∀ p ∈ paths, ∀ id, files id = some (p, .source) → content id = []) :
    ∃ g', paths.foldlM PathIds.gpathDelete g = some g' ∧ g'.nextkey = g.nextkey ∧
      Rep cfg g' d (paths.foldl Files.erase files) content := by
  induction paths generalizing g files with
  | nil => exact ⟨g, rfl, rfl, h⟩
  | cons p paths ih =>
    rw [List.forall_mem_cons] at hpaths hempty
    obtain ⟨g₁, hdelete, hnext, hrep⟩ := h.gpathDelete hpaths.1 hempty.1
    obtain ⟨g₂, hrun, hnext₂, hrep₂⟩ := ih hrep hpaths.2 fun q hq id hid =>
      hempty.2 q hq id (erase_eq_some.1 hid).1
    refine ⟨g₂, ?_, hnext₂.trans hnext, hrep₂⟩
    rw [List.foldlM_cons, hdelete]
    exact hrun

/-! ## An update -/

/-- What the lists of an update must satisfy: a file that is put again or deleted has lost its
records before. -/
structure Lists.Sound (cfg : Config) (tree : Tree) (files : Files) (l : Lists) (n : ℕ)
    (Delete : ℕ → Prop) : Prop where
  nodup : l.addlist.Nodup
  addlist : ∀ p ∈ l.addlist, Path.Ok p ∧ cfg.issourcefile p ∧
    Accepts cfg.gtags cfg.grtags (tree.syms p) ∧ p ∉ l.deletelist ∧
    ∀ id, files id = some (p, .source) → Delete id
  addlistOther : ∀ p ∈ l.addlistOther, Path.Ok p ∧ ¬ cfg.issourcefile p
  deletelist : ∀ p ∈ l.deletelist, isPath p ∧ ∀ id, files id = some (p, .source) → Delete id
  deleteset : Denotes l.deleteset n Delete

/-- What an update does to the files and their contents. -/
structure Lists.Effect (cfg : Config) (tree : Tree) (files : Files) (content : ℕ → List Sym)
    (l : Lists) (Delete : ℕ → Prop) (files' : Files) (content' : ℕ → List Sym) : Prop where
  keep : ∀ id p t, files id = some (p, t) → p ∉ l.deletelist → files' id = some (p, t)
  new : ∀ id p t, files' id = some (p, t) →
    files id = some (p, t) ∧ p ∉ l.deletelist ∨ p ∈ l.addlist ∨ p ∈ l.addlistOther
  listed : ∀ p, p ∈ l.addlist ∨ p ∈ l.addlistOther → ∃ id, files' id = some (p, cfg.typeOf p)
  parsed : ∀ id, ∀ p ∈ l.addlist, files' id = some (p, .source) → content' id = tree.syms p
  rest : ∀ id p, files id = some (p, .source) → ¬ Delete id → content' id = content id

/-- The records of the ids in `deleteset` are gone. -/
theorem Rep.deleted (h : Rep cfg g d files content) {set : IdSet} {n : ℕ} {Delete : ℕ → Prop}
    (hset : Denotes set n Delete) :
    ∃ content', Rep cfg g
        (if set.isEmpty then d else ⟨d.gtags.delete set, d.grtags.delete set⟩) files content' ∧
      (∀ id, Delete id → content' id = []) ∧ ∀ id, ¬ Delete id → content' id = content id := by
  obtain ⟨-, m, hinv, hmem⟩ := hset
  refine ⟨fun id => if id ∈ m then [] else content id, ?_, ?_, ?_⟩
  · split_ifs with hempty
    · obtain rfl := hinv.isEmpty_iff.1 hempty
      simpa using h
    · exact h.delete hinv
  · intro id hid
    simp only
    rw [if_pos ((hmem id).2 hid)]
  · intro id hid
    simp only
    rw [if_neg (mt (hmem id).1 hid)]

theorem Rep.update {l : Lists} {n : ℕ} {Delete : ℕ → Prop} (hcfg : cfg.Ready)
    (h : Rep cfg g d files content) (hl : l.Sound cfg tree files n Delete)
    (hroom : g.nextkey + l.addlist.length + l.addlistOther.length ≤ intMax) :
    ∃ s gpath files' content', updatetags tree (g, d) l.deleteset l.addlist = some s ∧
      updateGpath s.1 l = some gpath ∧ Rep cfg gpath s.2 files' content' ∧
      gpath.nextkey ≤ g.nextkey + l.addlist.length + l.addlistOther.length ∧
      l.Effect cfg tree files content Delete files' content' := by
  obtain ⟨content₁, h₁, hgone, hstay⟩ := h.deleted hl.deleteset
  obtain ⟨s, files₂, content₂, hsources, h₂, hnext₂, hadded⟩ := h₁.addSources hcfg hl.nodup
    (fun p hp => ⟨(hl.addlist p hp).1, (hl.addlist p hp).2.1, (hl.addlist p hp).2.2.1⟩) (by omega)
    fun p hp id hid => hgone id ((hl.addlist p hp).2.2.2.2 id hid)
  have hapart : ∀ p ∈ l.deletelist, p ∉ l.addlist :=
    fun p hp hadd => (hl.addlist p hadd).2.2.2.1 hp
  obtain ⟨g₃, hdelete, hnext₃, h₃⟩ := h₂.deleteAll (fun p hp => (hl.deletelist p hp).1) (by
    intro p hp id hid
    have hold := (hadded.new id p _ hid).resolve_right (hapart p hp)
    rw [hadded.rest id p hold (hapart p hp)]
    exact hgone id ((hl.deletelist p hp).2 id hold))
  obtain ⟨g₄, files₄, hothers, h₄, hnext₄, hadded₄⟩ := h₃.addOthers tree hl.addlistOther (by omega)
  refine ⟨s, g₄, files₄, content₂, hsources, ?_, h₄, by omega, ?_, ?_, ?_, ?_, ?_⟩
  · rw [updateGpath, hdelete, Option.bind_some, hothers]
  · intro id p t hid hp
    exact hadded₄.keep id _ (foldl_erase_eq_some.2 ⟨hadded.keep id _ hid, hp⟩)
  · intro id p t hid
    rcases hadded₄.new id p t hid with hid | hother
    · obtain ⟨hid, hp⟩ := foldl_erase_eq_some.1 hid
      rcases hadded.new id p t hid with hid | hadd
      · exact .inl ⟨hid, hp⟩
      · exact .inr (.inl hadd)
    · exact .inr (.inr hother)
  · rintro p (hp | hp)
    · obtain ⟨id, hid⟩ := hadded.listed p hp
      exact ⟨id, hadded₄.keep id _ (foldl_erase_eq_some.2 ⟨hid, (hl.addlist p hp).2.2.2.1⟩)⟩
    · exact hadded₄.listed p hp
  · intro id p hp hid
    have hnot : p ∉ l.addlistOther := fun hother => (hl.addlistOther p hother).2 (hl.addlist p hp).2.1
    have hid₃ := (hadded₄.new id p _ hid).resolve_right hnot
    exact hadded.parsed id p hp (foldl_erase_eq_some.1 hid₃).1
  · intro id p hid hnot
    have hp : p ∉ l.addlist := fun hadd => hnot ((hl.addlist p hadd).2.2.2.2 id hid)
    rw [hadded.rest id p hid hp, hstay id hnot]

theorem updateTags_eq (site : Site) (l : Lists) :
    updateTags tree site l = updatetags tree (site.gpath, site.data) l.deleteset l.addlist := by
  unfold updateTags
  split_ifs with htags
  · rfl
  · rw [Lists.tags, Bool.or_eq_true, not_or, Bool.not_eq_true', Bool.not_eq_false,
      Bool.not_eq_true', Bool.not_eq_false, List.isEmpty_iff] at htags
    rw [updatetags, htags.1, htags.2]
    rfl

/-- **The second half of `incremental`.** -/
theorem Rep.execute {l : Lists} {n : ℕ} {Delete : ℕ → Prop} {site : Site} (hcfg : cfg.Ready)
    (h : Rep cfg site.gpath site.data files content) (hl : l.Sound cfg tree files n Delete)
    (hroom : site.gpath.nextkey + l.addlist.length + l.addlistOther.length ≤ intMax) (now : ℕ) :
    ∃ site' files' content', execute tree now site l = some (site', l.updated) ∧
      Rep cfg site'.gpath site'.data files' content' ∧
      site'.mtime = (if l.updated then now else site.mtime) ∧
      site'.gpath.nextkey ≤ site.gpath.nextkey + l.addlist.length + l.addlistOther.length ∧
      l.Effect cfg tree files content Delete files' content' := by
  unfold Update.execute
  split_ifs with hupdated
  · obtain ⟨s, gpath, files', content', hs, hgpath, hrep, hnext, heffect⟩ := h.update hcfg hl hroom
    rw [updateTags_eq, hs, Option.bind_some, hgpath, hupdated]
    exact ⟨⟨gpath, s.2, now⟩, files', content', rfl, hrep, rfl, hnext, heffect⟩
  · -- nothing is listed
    obtain ⟨hother, hdelete, hadd, -⟩ : l.addlistOther = [] ∧ l.deletelist = [] ∧ l.addlist = [] ∧
        l.deleteset.isEmpty := by
      simpa [Lists.updated, Lists.tags, and_assoc, and_comm] using hupdated
    rw [Bool.eq_false_iff.2 hupdated]
    refine ⟨site, files, content, rfl, h, rfl, by omega, ?_, ?_, ?_, ?_, ?_⟩
    · exact fun _ _ _ hid _ => hid
    · intro id p t hid
      exact .inl ⟨hid, by simp [hdelete]⟩
    · intro p hp
      simp [hadd, hother] at hp
    · intro id p hp
      simp [hadd] at hp
    · exact fun _ _ _ _ => rfl

/-! ## Comparing the tree with GPATH -/

/-- Modified since GTAGS was written. -/
def Modified (tree : Tree) (site : Site) (p : List Char) : Prop :=
  ∃ t, tree.mtime p = some t ∧ site.mtime < t

instance (tree : Tree) (site : Site) (p : List Char) : Decidable (Modified tree site p) :=
  decidable_of_iff ((tree.mtime p).any fun t => site.mtime < t)
    (by cases h : tree.mtime p <;> simp [Modified, h])

/-- A file that GPATH takes: a source file, or another one that is not binary. -/
def Wanted (cfg : Config) (tree : Tree) (p : List Char) : Prop :=
  cfg.issourcefile p ∨ ¬ tree.isBinary p

instance (cfg : Config) (tree : Tree) (p : List Char) : Decidable (Wanted cfg tree p) :=
  inferInstanceAs (Decidable (_ ∨ _))

/-- The ids of the source files among `pre` that have been modified. -/
def Touched (tree : Tree) (site : Site) (files : Files) (pre : List (List Char)) (id : ℕ) : Prop :=
  ∃ p ∈ pre, files id = some (p, .source) ∧ Modified tree site p

/-- The ids of the files among `pre` that GPATH takes. -/
def Seen (cfg : Config) (tree : Tree) (files : Files) (pre : List (List Char)) (id : ℕ) : Prop :=
  ∃ p ∈ pre, (∃ t, files id = some (p, t)) ∧ Wanted cfg tree p

/-- After the paths `pre` of `find_read`. -/
structure Inspected (cfg : Config) (tree : Tree) (site : Site) (files : Files)
    (pre : List (List Char)) (l : Lists) : Prop where
  addlist : l.addlist = pre.filter fun p => cfg.issourcefile p ∧
    ((gpathPath2fid site.gpath p).isNone ∨ Modified tree site p)
  addlistOther : l.addlistOther = pre.filter fun p => ¬ cfg.issourcefile p ∧
    ¬ tree.isBinary p ∧ (gpathPath2fid site.gpath p).isNone
  deletelist : l.deletelist = []
  deleteset : Denotes l.deleteset site.gpath.nextkey (Touched tree site files pre)
  findset : Denotes l.findset site.gpath.nextkey (Seen cfg tree files pre)

omit [SysParam] in
theorem exists_mem_concat {pre : List (List Char)} {Q : List Char → Prop} :
    (∃ q ∈ pre ++ [path], Q q) ↔ Q path ∨ ∃ q ∈ pre, Q q := by
  simp [or_and_right, exists_or, or_comm]

omit [SysParam] in
theorem inspected_start {site : Site} (h : PathIds.Rep site.gpath files) :
    Inspected cfg tree site files [] (Lists.start site.gpath) := by
  have hle : site.gpath.nextkey ≤ endOfId := h.le.trans (by decide)
  refine ⟨rfl, rfl, rfl, ?_, ?_⟩
  · exact (denotes_idsetOpen hle).congr (by simp [Touched])
  · exact (denotes_idsetOpen hle).congr (by simp [Seen])

omit [SysParam] in
/-- The sets stay as they are when the path is not one to find. -/
theorem Inspected.same_sets {site : Site} {pre : List (List Char)} {l : Lists}
    (h : Inspected cfg tree site files pre l) (path : List Char)
    (hnone : ∀ id t, files id = some (path, t) → t ≠ .source ∧ ¬ Wanted cfg tree path) :
    Denotes l.deleteset site.gpath.nextkey (Touched tree site files (pre ++ [path])) ∧
      Denotes l.findset site.gpath.nextkey (Seen cfg tree files (pre ++ [path])) := by
  constructor
  · refine h.deleteset.congr fun id => ?_
    rw [Touched, Touched, exists_mem_concat, or_iff_right]
    rintro ⟨hid, -⟩
    exact (hnone id _ hid).1 rfl
  · refine h.findset.congr fun id => ?_
    rw [Seen, Seen, exists_mem_concat, or_iff_right]
    rintro ⟨⟨t, hid⟩, hwanted⟩
    exact (hnone id t hid).2 hwanted

/-- **One path of `find_read`.** -/
theorem Inspected.step {site : Site} {pre : List (List Char)} {l : Lists}
    (h : Inspected cfg tree site files pre l) (hrep : Rep cfg site.gpath site.data files content)
    (hpath : isPath path) (hstat : (tree.mtime path).isSome) :
    ∃ l', inspect cfg tree site l path = some l' ∧
      Inspected cfg tree site files (pre ++ [path]) l' := by
  unfold inspect
  by_cases hskip : (!cfg.issourcefile path && tree.isBinary path) = true
  · rw [if_pos hskip]
    rw [Bool.and_eq_true, Bool.not_eq_true'] at hskip
    obtain ⟨hdelete, hfind⟩ := h.same_sets path fun id t hid => by
      rw [hrep.typeOf id path t hid, typeOf_other (by simp [hskip.1])]
      simp [Wanted, hskip]
    exact ⟨l, rfl, by simp [h.addlist, hskip], by simp [h.addlistOther, hskip], h.deletelist,
      hdelete, hfind⟩
  · rw [if_neg hskip]
    have hwanted : Wanted cfg tree path := by
      simpa [Wanted, or_iff_not_imp_left] using hskip
    obtain ⟨mtime, hmtime⟩ := Option.isSome_iff_exists.1 hstat
    rw [hmtime]
    cases hfid : gpathPath2fid site.gpath path with
    | none =>
      obtain ⟨hdelete, hfind⟩ := h.same_sets path fun id t hid => by
        have hknown := (hrep.gpath.path2fid path hpath _ t).2 ⟨id, rfl, hid⟩
        rw [gpathPath2fid, hknown] at hfid
        cases hfid
      simp only
      split_ifs with hsource
      · exact ⟨_, rfl, by simp [h.addlist, hsource, hfid], by simp [h.addlistOther, hsource],
          h.deletelist, hdelete, hfind⟩
      · have hbinary : ¬ tree.isBinary path := hwanted.resolve_left hsource
        exact ⟨_, rfl, by simp [h.addlist, hsource],
          by simp [h.addlistOther, hsource, hbinary, hfid], h.deletelist, hdelete, hfind⟩
    | some fid =>
      obtain ⟨fid, type⟩ := fid
      obtain ⟨id, rfl, hid⟩ := (hrep.gpath.path2fid path hpath _ _).1 hfid
      have hlt := (hrep.gpath.range id path type hid).1
      have hiff : ∀ k t, files k = some (path, t) ↔ k = id ∧ t = type := by
        intro k t
        constructor
        · intro hk
          obtain rfl := hrep.gpath.injective hk hid
          rw [hid, Option.some.injEq, Prod.mk.injEq] at hk
          exact ⟨rfl, hk.2.symm⟩
        · rintro ⟨rfl, rfl⟩
          exact hid
      obtain ⟨findset, hadd, hfind⟩ := h.findset.add hlt
      have hfind' : Denotes findset _ (Seen cfg tree files (pre ++ [path])) :=
        hfind.congr fun k => by
          rw [Seen, Seen, exists_mem_concat]
          simp [hiff, hwanted]
      simp only [atoi_putNumber, hadd, Option.bind_some]
      by_cases hmodified : cfg.issourcefile path ∧ site.mtime < mtime
      · obtain ⟨deleteset, hadd', hdelete⟩ := h.deleteset.add hlt
        have htype : type = .source :=
          (hrep.typeOf id path type hid).trans (typeOf_source hmodified.1)
        have hdelete' : Denotes deleteset _ (Touched tree site files (pre ++ [path])) :=
          hdelete.congr fun k => by
            rw [Touched, Touched, exists_mem_concat]
            simp [hiff, htype, Modified, hmtime, hmodified.2]
        rw [if_pos (by simpa using hmodified), hadd']
        exact ⟨_, rfl, by simp [h.addlist, Modified, hmtime, hmodified],
          by simp [h.addlistOther, hmodified], h.deletelist, hdelete', hfind'⟩
      · have hnot : cfg.issourcefile path → ¬ Modified tree site path := by
          rintro hsource ⟨t, ht, hlt'⟩
          rw [hmtime, Option.some.injEq] at ht
          exact hmodified ⟨hsource, ht ▸ hlt'⟩
        have hdelete' : Denotes l.deleteset _ (Touched tree site files (pre ++ [path])) :=
          h.deleteset.congr fun k => by
            rw [Touched, Touched, exists_mem_concat, or_iff_right]
            rintro ⟨hk, hmod⟩
            exact hnot (issourcefile_of_typeOf (hrep.typeOf k path _ hk)) hmod
        rw [if_neg (by simpa using hmodified)]
        refine ⟨_, rfl, ?_, by simp [h.addlistOther, hfid], h.deletelist, hdelete', hfind'⟩
        have hnew : ¬ (cfg.issourcefile path ∧
            ((gpathPath2fid site.gpath path).isNone ∨ Modified tree site path)) := by
          rintro ⟨hsource, hnone | hmod⟩
          · rw [hfid] at hnone
            cases hnone
          · exact hnot hsource hmod
        rw [List.filter_append, ← h.addlist, List.filter_singleton, decide_eq_false hnew]
        simp

/-- The file `id` is not, or not any more, one of the tree. -/
def Gone (tree : Tree) (Found : ℕ → Prop) (id : ℕ) (p : List Char) (t : PathType) : Prop :=
  ¬ Found id ∨ ¬ tree.isFile p ∨ t = .other ∧ tree.isBinary p

/-- After the ids `pre` of GPATH, from the lists `l₀`. -/
structure Swept (tree : Tree) (n : ℕ) (files : Files) (Found Delete : ℕ → Prop) (l₀ : Lists)
    (pre : List ℕ) (l : Lists) : Prop where
  addlist : l.addlist = l₀.addlist
  addlistOther : l.addlistOther = l₀.addlistOther
  findset : l.findset = l₀.findset
  deletelist : ∀ p, p ∈ l.deletelist ↔ ∃ id ∈ pre, ∃ t, files id = some (p, t) ∧
    Gone tree Found id p t
  deleteset : Denotes l.deleteset n fun id => Delete id ∨
    id ∈ pre ∧ ∃ p, files id = some (p, .source) ∧ Gone tree Found id p .source

omit [SysParam] in
/-- **One id of GPATH.** -/
theorem Swept.step {site : Site} {Found Delete : ℕ → Prop} {l₀ l : Lists} {pre : List ℕ}
    (h : Swept tree site.gpath.nextkey files Found Delete l₀ pre l)
    (hrep : PathIds.Rep site.gpath files)
    (hfound : Denotes l₀.findset site.gpath.nextkey Found) {id : ℕ} (hid : id < site.gpath.nextkey) :
    ∃ l', sweep tree site l id = some l' ∧
      Swept tree site.gpath.nextkey files Found Delete l₀ (pre ++ [id]) l' := by
  have hmem : ∀ p, (∃ k ∈ pre ++ [id], ∃ t, files k = some (p, t) ∧ Gone tree Found k p t) ↔
      (∃ k ∈ pre, ∃ t, files k = some (p, t) ∧ Gone tree Found k p t) ∨
        ∃ t, files id = some (p, t) ∧ Gone tree Found id p t := by
    simp [or_and_right, exists_or]
  have hset : ∀ k, (Delete k ∨ k ∈ pre ++ [id] ∧ ∃ p, files k = some (p, .source) ∧
        Gone tree Found k p .source) ↔
      (k = id ∧ ∃ p, files id = some (p, .source) ∧ Gone tree Found id p .source) ∨
        Delete k ∨ k ∈ pre ∧ ∃ p, files k = some (p, .source) ∧ Gone tree Found k p .source := by
    intro k
    rw [List.mem_append, List.mem_singleton]
    constructor
    · rintro (hk | ⟨hk | rfl, hp⟩)
      · exact .inr (.inl hk)
      · exact .inr (.inr ⟨hk, hp⟩)
      · exact .inl ⟨rfl, hp⟩
    · rintro (⟨rfl, hp⟩ | hk | ⟨hk, hp⟩)
      · exact .inr ⟨.inr rfl, hp⟩
      · exact .inl hk
      · exact .inr ⟨.inl hk, hp⟩
  -- what the two tests of the source decide
  have htest : ∀ p, (!idsetContains l.findset id || !tree.isFile p) = true ↔
      Gone tree Found id p .source := by
    intro p
    rw [h.findset, Gone, ← hfound.contains_iff]
    simp
  have htest' : ∀ p, (!idsetContains l.findset id || !tree.isFile p || tree.isBinary p) = true ↔
      Gone tree Found id p .other := by
    intro p
    rw [h.findset, Gone, ← hfound.contains_iff]
    simp [or_assoc]
  have hstay : (∀ p t, files id = some (p, t) → ¬ Gone tree Found id p t) →
      Swept tree site.gpath.nextkey files Found Delete l₀ (pre ++ [id]) l := by
    intro hnot
    refine ⟨h.addlist, h.addlistOther, h.findset, fun p => ?_, h.deleteset.congr fun k => ?_⟩
    · rw [hmem, h.deletelist, or_iff_left]
      rintro ⟨t, hfile, hgone⟩
      exact hnot p t hfile hgone
    · refine (or_iff_right ?_).symm.trans (hset k).symm
      rintro ⟨-, p, hfile, hgone⟩
      exact hnot p _ hfile hgone
  unfold sweep
  rw [gpathFid2path, hrep.fid2path]
  cases hfile : files id with
  | none => exact ⟨l, rfl, hstay (by simp [hfile])⟩
  | some file =>
    obtain ⟨path, type⟩ := file
    cases type with
    | other =>
      simp only
      split_ifs with hgone
      · refine ⟨_, rfl, h.addlist, h.addlistOther, h.findset, fun p => ?_,
          h.deleteset.congr fun k => ?_⟩
        · rw [hmem, List.mem_append, h.deletelist, hfile]
          simp only [List.mem_singleton, Option.some.injEq, Prod.mk.injEq]
          refine or_congr_right ⟨?_, ?_⟩
          · rintro rfl
            exact ⟨.other, ⟨rfl, rfl⟩, (htest' p).1 hgone⟩
          · rintro ⟨t, ⟨rfl, -⟩, -⟩
            rfl
        · refine (or_iff_right ?_).symm.trans (hset k).symm
          rintro ⟨-, p, hsource, -⟩
          rw [hfile] at hsource
          cases hsource
      · refine ⟨l, rfl, hstay fun p t hpt => ?_⟩
        rw [hfile, Option.some.injEq, Prod.mk.injEq] at hpt
        obtain ⟨rfl, rfl⟩ := hpt
        exact mt (htest' path).2 hgone
    | source =>
      simp only
      split_ifs with hgone
      · obtain ⟨deleteset, hadd, hdelete⟩ := h.deleteset.add hid
        rw [hadd]
        refine ⟨_, rfl, h.addlist, h.addlistOther, h.findset, fun p => ?_,
          hdelete.congr fun k => ?_⟩
        · rw [hmem, List.mem_append, h.deletelist, hfile]
          simp only [List.mem_singleton, Option.some.injEq, Prod.mk.injEq]
          refine or_congr_right ⟨?_, ?_⟩
          · rintro rfl
            exact ⟨.source, ⟨rfl, rfl⟩, (htest p).1 hgone⟩
          · rintro ⟨t, ⟨rfl, -⟩, -⟩
            rfl
        · rw [hset]
          refine or_congr_left ⟨fun hk => ⟨hk, path, hfile, (htest path).1 hgone⟩, fun hk => hk.1⟩
      · refine ⟨l, rfl, hstay fun p t hpt => ?_⟩
        rw [hfile, Option.some.injEq, Prod.mk.injEq] at hpt
        obtain ⟨rfl, rfl⟩ := hpt
        exact mt (htest path).2 hgone

/-- What find promises of a tree: it returns distinct paths of regular files, and
`dbop_put` takes the tags of the source files. -/
structure Tree.Regular (cfg : Config) (tree : Tree) : Prop where
  nodup : tree.found.Nodup
  ok : ∀ p ∈ tree.found, Path.Ok p
  stat : ∀ p ∈ tree.found, tree.isFile p ∧ (tree.mtime p).isSome
  accepts : ∀ p ∈ tree.found, cfg.issourcefile p → Accepts cfg.gtags cfg.grtags (tree.syms p)

/-- The files that GPATH should have. -/
def Indexed (cfg : Config) (tree : Tree) (p : List Char) : Prop :=
  p ∈ tree.found ∧ Wanted cfg tree p

/-- The source files whose records are deleted. -/
def Stale (tree : Tree) (site : Site) (files : Files) (id : ℕ) : Prop :=
  ∃ p, files id = some (p, .source) ∧ (p ∉ tree.found ∨ Modified tree site p)

/-- The lists that an update works on. -/
structure Lists.Compared (cfg : Config) (tree : Tree) (site : Site) (files : Files) (l : Lists) :
    Prop where
  addlist : ∀ p, p ∈ l.addlist ↔ p ∈ tree.found ∧ cfg.issourcefile p ∧
    (¬ files.Has p ∨ Modified tree site p)
  addlistOther : ∀ p, p ∈ l.addlistOther ↔ p ∈ tree.found ∧ ¬ cfg.issourcefile p ∧
    ¬ tree.isBinary p ∧ ¬ files.Has p
  deletelist : ∀ p, p ∈ l.deletelist ↔ files.Has p ∧ ¬ Indexed cfg tree p
  length : l.addlist.length + l.addlistOther.length ≤ tree.found.length

omit [SysParam] in
theorem length_filter_add_le {α : Type*} (p q : α → Bool) (l : List α)
    (h : ∀ a ∈ l, ¬ (p a ∧ q a)) : (l.filter p).length + (l.filter q).length ≤ l.length := by
  induction l with
  | nil => simp
  | cons a l ih =>
    rw [List.forall_mem_cons] at h
    have := ih h.2
    have hnot := h.1
    rw [List.filter_cons, List.filter_cons, List.length_cons]
    split_ifs with hp hq
    · exact absurd ⟨hp, hq⟩ hnot
    · rw [List.length_cons]
      omega
    · rw [List.length_cons]
      omega
    · omega

/-- The file `id` is gone when it is not one that GPATH should have. -/
theorem gone_iff {site : Site} (hrep : Rep cfg site.gpath site.data files content)
    (htree : tree.Regular cfg) {id : ℕ} {p : List Char} {t : PathType}
    (hid : files id = some (p, t)) :
    Gone tree (Seen cfg tree files tree.found) id p t ↔ ¬ Indexed cfg tree p := by
  have hfound : Seen cfg tree files tree.found id ↔ Indexed cfg tree p := by
    constructor
    · rintro ⟨q, hq, ⟨t', ht'⟩, hwanted⟩
      rw [hid, Option.some.injEq, Prod.mk.injEq] at ht'
      exact ht'.1 ▸ ⟨hq, hwanted⟩
    · rintro ⟨hp, hwanted⟩
      exact ⟨p, hp, ⟨t, hid⟩, hwanted⟩
  rw [Gone, hfound]
  refine ⟨?_, .inl⟩
  rintro (hnot | hnot | ⟨rfl, hbinary⟩) hindexed
  · exact hnot hindexed
  · exact hnot (htree.stat p hindexed.1).1
  · rcases hindexed.2 with hsource | hnot
    · have htype := hrep.typeOf id p _ hid
      rw [typeOf_source hsource] at htype
      cases htype
    · exact hnot hbinary

omit [SysParam] in
theorem isNone_iff (hrep : PathIds.Rep g files) {p : List Char} (hp : isPath p) :
    (gpathPath2fid g p).isNone ↔ ¬ files.Has p := by
  rw [← hrep.isSome_iff hp, gpathPath2fid]
  cases g.dbop p <;> simp

/-- **The first half of `incremental`.** -/
theorem Rep.inspectTree {site : Site} (h : Rep cfg site.gpath site.data files content)
    (htree : tree.Regular cfg) :
    ∃ l, inspectTree cfg tree site = some l ∧ l.Compared cfg tree site files ∧
      l.Sound cfg tree files site.gpath.nextkey (Stale tree site files) := by
  obtain ⟨l₁, hrun₁, h₁⟩ :
      ∃ l, tree.found.foldlM (inspect cfg tree site) (Lists.start site.gpath) = some l ∧
        Inspected cfg tree site files tree.found l :=
    foldlM_spec (Inspected cfg tree site files) (inspected_start h.gpath) fun pre p l hpre hl =>
      hl.step h (htree.ok p (hpre.subset (by simp))).isPath
        (htree.stat p (hpre.subset (by simp))).2
  obtain ⟨l, hrun, hl⟩ :
      ∃ l, (List.range' 1 (site.gpath.nextkey - 1)).foldlM (sweep tree site) l₁ = some l ∧
        Swept tree site.gpath.nextkey files (Seen cfg tree files tree.found)
          (Touched tree site files tree.found) l₁ (List.range' 1 (site.gpath.nextkey - 1)) l := by
    refine foldlM_spec (Swept tree site.gpath.nextkey files _ _ l₁)
      ⟨rfl, rfl, rfl, by simp [h₁.deletelist], h₁.deleteset.congr (by simp)⟩ ?_
    intro pre id l hpre hl
    have hid := hpre.subset (List.mem_append_right pre (List.mem_singleton_self id))
    rw [List.mem_range'_1] at hid
    exact hl.step h.gpath h₁.findset (by omega)
  have hids : ∀ id p t, files id = some (p, t) →
      id ∈ List.range' 1 (site.gpath.nextkey - 1) := by
    intro id p t hid
    have := h.gpath.range id p t hid
    rw [List.mem_range'_1]
    omega
  have hdelete : ∀ p, p ∈ l.deletelist ↔ files.Has p ∧ ¬ Indexed cfg tree p := by
    intro p
    rw [hl.deletelist]
    constructor
    · rintro ⟨id, -, t, hid, hgone⟩
      exact ⟨⟨id, t, hid⟩, (gone_iff h htree hid).1 hgone⟩
    · rintro ⟨⟨id, t, hid⟩, hnot⟩
      exact ⟨id, hids id p t hid, t, hid, (gone_iff h htree hid).2 hnot⟩
  have hadd : ∀ p, p ∈ l.addlist ↔ p ∈ tree.found ∧ cfg.issourcefile p ∧
      (¬ files.Has p ∨ Modified tree site p) := by
    intro p
    rw [hl.addlist, h₁.addlist, List.mem_filter, decide_eq_true_eq]
    refine and_congr_right fun hp => ?_
    rw [isNone_iff h.gpath (htree.ok p hp).isPath]
  have hother : ∀ p, p ∈ l.addlistOther ↔ p ∈ tree.found ∧ ¬ cfg.issourcefile p ∧
      ¬ tree.isBinary p ∧ ¬ files.Has p := by
    intro p
    rw [hl.addlistOther, h₁.addlistOther, List.mem_filter, decide_eq_true_eq]
    refine and_congr_right fun hp => ?_
    rw [isNone_iff h.gpath (htree.ok p hp).isPath]
  refine ⟨l, ?_, ⟨hadd, hother, hdelete, ?_⟩, ?_, ?_, ?_, ?_, ?_⟩
  · rw [Update.inspectTree, hrun₁, Option.bind_some, hrun]
  · rw [hl.addlist, hl.addlistOther, h₁.addlist, h₁.addlistOther]
    refine length_filter_add_le _ _ _ fun p _ hboth => ?_
    simp only [decide_eq_true_eq] at hboth
    exact hboth.2.1 hboth.1.1
  · rw [hl.addlist, h₁.addlist]
    exact htree.nodup.filter _
  · intro p hp
    obtain ⟨hfound, hsource, hnew⟩ := (hadd p).1 hp
    refine ⟨htree.ok p hfound, hsource, htree.accepts p hfound hsource, ?_, fun id hid => ?_⟩
    · rw [hdelete]
      exact fun hgone => hgone.2 ⟨hfound, .inl hsource⟩
    · exact ⟨p, hid, .inr (hnew.resolve_left (not_not.2 ⟨id, _, hid⟩))⟩
  · intro p hp
    obtain ⟨hfound, hnot, -⟩ := (hother p).1 hp
    exact ⟨htree.ok p hfound, hnot⟩
  · intro p hp
    obtain ⟨⟨id, t, hid⟩, hnot⟩ := (hdelete p).1 hp
    refine ⟨h.gpath.isPath id p t hid, fun k hk => ⟨p, hk, .inl fun hfound => hnot ⟨hfound, ?_⟩⟩⟩
    exact .inl (issourcefile_of_typeOf (h.typeOf k p _ hk))
  · refine hl.deleteset.congr fun id => ⟨?_, ?_⟩
    · rintro (⟨p, -, hid, hmodified⟩ | ⟨-, p, hid, hgone⟩)
      · exact ⟨p, hid, .inr hmodified⟩
      · refine ⟨p, hid, .inl fun hfound => (gone_iff h htree hid).1 hgone ⟨hfound, ?_⟩⟩
        exact .inl (issourcefile_of_typeOf (h.typeOf id p _ hid))
    · rintro ⟨p, hid, hnot⟩
      by_cases hfound : p ∈ tree.found
      · exact .inl ⟨p, hfound, hid, hnot.resolve_left (not_not.2 hfound)⟩
      · refine .inr ⟨hids id p _ hid, p, hid, (gone_iff h htree hid).2 fun hindexed => ?_⟩
        exact hfound hindexed.1

/-- What `incremental` leaves: GPATH has the files of the tree, and the tag files hold for a
source file what its parser finds if it was new or modified, else what they held. -/
structure Refreshed (cfg : Config) (tree : Tree) (site : Site) (files : Files)
    (content : ℕ → List Sym) (files' : Files) (content' : ℕ → List Sym) : Prop where
  has : ∀ p, files'.Has p ↔ Indexed cfg tree p
  parsed : ∀ id p, files' id = some (p, .source) → ¬ files.Has p ∨ Modified tree site p →
    content' id = tree.syms p
  kept : ∀ id p, files id = some (p, .source) → p ∈ tree.found → ¬ Modified tree site p →
    files' id = some (p, .source) ∧ content' id = content id

theorem Lists.Effect.refreshed {site : Site} {l : Lists} {files' : Files}
    {content' : ℕ → List Sym} (h : Rep cfg site.gpath site.data files content)
    (h' : Rep cfg g d files' content') (hl : l.Compared cfg tree site files)
    (heffect : l.Effect cfg tree files content (Stale tree site files) files' content') :
    Refreshed cfg tree site files content files' content' where
  has p := by
    constructor
    · rintro ⟨id, t, hid⟩
      rcases heffect.new id p t hid with ⟨hold, hnot⟩ | hadd | hother
      · rw [hl.deletelist] at hnot
        by_contra hindexed
        exact hnot ⟨⟨id, t, hold⟩, hindexed⟩
      · obtain ⟨hfound, hsource, -⟩ := (hl.addlist p).1 hadd
        exact ⟨hfound, .inl hsource⟩
      · obtain ⟨hfound, -, hbinary, -⟩ := (hl.addlistOther p).1 hother
        exact ⟨hfound, .inr hbinary⟩
    · intro hindexed
      by_cases hhas : files.Has p
      · obtain ⟨id, t, hid⟩ := hhas
        refine ⟨id, t, heffect.keep id p t hid ?_⟩
        rw [hl.deletelist]
        exact fun hgone => hgone.2 hindexed
      · obtain ⟨id, hid⟩ := heffect.listed p (by
          by_cases hsource : cfg.issourcefile p
          · exact .inl ((hl.addlist p).2 ⟨hindexed.1, hsource, .inl hhas⟩)
          · exact .inr ((hl.addlistOther p).2
              ⟨hindexed.1, hsource, hindexed.2.resolve_left hsource, hhas⟩))
        exact ⟨id, _, hid⟩
  parsed id p hid hnew := by
    refine heffect.parsed id p ?_ hid
    rcases heffect.new id p _ hid with ⟨hold, hnot⟩ | hadd | hother
    · have hsource := issourcefile_of_typeOf (h.typeOf id p _ hold)
      rw [hl.deletelist, not_and_not_right] at hnot
      have hhas : files.Has p := ⟨id, _, hold⟩
      exact (hl.addlist p).2 ⟨(hnot hhas).1, hsource, hnew⟩
    · exact hadd
    · exact absurd (issourcefile_of_typeOf (h'.typeOf id p _ hid)) ((hl.addlistOther p).1 hother).2.1
  kept id p hid hfound hnot := by
    have hsource := issourcefile_of_typeOf (h.typeOf id p _ hid)
    refine ⟨heffect.keep id p _ hid ?_, heffect.rest id p hid ?_⟩
    · rw [hl.deletelist]
      exact fun hgone => hgone.2 ⟨hfound, .inl hsource⟩
    · rintro ⟨q, hq, hstale⟩
      rw [hid, Option.some.injEq, Prod.mk.injEq] at hq
      obtain ⟨rfl, -⟩ := hq
      exact hstale.elim (absurd hfound) hnot

/-- **An incremental update.** -/
theorem Rep.full_update {site : Site} (hcfg : cfg.Ready)
    (h : Rep cfg site.gpath site.data files content) (htree : tree.Regular cfg)
    (hroom : site.gpath.nextkey + tree.found.length ≤ intMax) (now : ℕ) :
    ∃ site' updated files' content', incremental cfg tree now none site = some (site', updated) ∧
      Rep cfg site'.gpath site'.data files' content' ∧
      site'.mtime = (if updated then now else site.mtime) ∧
      site'.gpath.nextkey ≤ site.gpath.nextkey + tree.found.length ∧
      Refreshed cfg tree site files content files' content' := by
  obtain ⟨l, hrun, hcompared, hsound⟩ := h.inspectTree htree
  have hlen := hcompared.length
  obtain ⟨site', files', content', hexecute, hrep, hmtime, hnext, heffect⟩ :=
    h.execute hcfg hsound (by omega) now
  refine ⟨site', l.updated, files', content', ?_, hrep, hmtime, by omega,
    heffect.refreshed h hrep hcompared⟩
  rw [Update.incremental, hrun, Option.bind_some, hexecute]

/-- The paths among `pre` that `createtags` puts. -/
def wantedOf (cfg : Config) (tree : Tree) (pre : List (List Char)) : List (List Char) :=
  pre.filter fun p => Wanted cfg tree p

/-- **`createtags`.** -/
theorem exists_createtags (hcfg : cfg.Ready) (htree : tree.Regular cfg)
    (hroom : 1 + tree.found.length ≤ intMax) (now : ℕ) :
    ∃ site files content, createtags cfg tree now = some site ∧ site.mtime = now ∧
      Rep cfg site.gpath site.data files content ∧
      site.gpath.nextkey ≤ 1 + tree.found.length ∧
      (∀ p, files.Has p ↔ Indexed cfg tree p) ∧
      ∀ id p, files id = some (p, .source) → content id = tree.syms p := by
  obtain ⟨s, hrun, files, content, hrep, hnext, hadded⟩ :
      ∃ s, tree.found.foldlM (createOne cfg tree)
          (gpathCreate, ⟨⟨cfg.gtags, [], []⟩, ⟨cfg.grtags, [], []⟩⟩) = some s ∧
        ∃ files content, Rep cfg s.1 s.2 files content ∧ s.1.nextkey ≤ 1 + tree.found.length ∧
          Added cfg tree (fun _ => none) (fun _ => []) (wantedOf cfg tree tree.found)
            files content := by
    refine foldlM_spec (fun pre (s : Gpath × Gtops) => ∃ files content,
      Rep cfg s.1 s.2 files content ∧ s.1.nextkey ≤ 1 + pre.length ∧
        Added cfg tree (fun _ => none) (fun _ => []) (wantedOf cfg tree pre) files content)
      ⟨_, _, rep_create cfg, by simp [gpathCreate], added_nil cfg tree _ _⟩ ?_
    rintro pre p ⟨g₁, d₁⟩ hpre ⟨files₁, content₁, hrep, hnext, hadded⟩
    obtain ⟨hmem, hnot, hlen⟩ := split_facts hpre htree.nodup
    simp only at hrep hnext
    have hlen' : (pre ++ [p]).length = pre.length + 1 := by simp
    have hconcat : wantedOf cfg tree (pre ++ [p]) =
        wantedOf cfg tree pre ++ if Wanted cfg tree p then [p] else [] := by
      rw [wantedOf, wantedOf, List.filter_append, List.filter_singleton]
      by_cases hwanted : Wanted cfg tree p <;> simp [hwanted]
    rw [hconcat, hlen', createOne]
    by_cases hsource : cfg.issourcefile p
    · have hfresh : ∀ id, files₁ id ≠ some (p, .source) := by
        intro id hid
        rcases hadded.new id p _ hid with hid | hin
        · cases hid
        · exact hnot (List.mem_of_mem_filter hin)
      obtain ⟨g₂, d₂, id, hstep, hrep₂, hid⟩ := hrep.addSource hcfg (htree.ok p hmem) hsource
        (by omega) (fun id hid => absurd hid (hfresh id)) (htree.accepts p hmem hsource)
      have hle := hid.nextkey_le
      rw [← typeOf_source hsource] at hid hrep₂
      rw [if_pos hsource, if_pos (.inl hsource)]
      refine ⟨(g₂, d₂), hstep, _, _, hrep₂, by simp only; omega, ?_⟩
      exact hadded.step hrep hid (fun k hk => Function.update_of_ne hk ..)
        fun _ => Function.update_self ..
    · rw [if_neg hsource]
      by_cases hbinary : tree.isBinary p
      · have hwanted : ¬ Wanted cfg tree p := fun h => h.elim hsource (absurd hbinary)
        rw [if_pos hbinary, if_neg hwanted, List.append_nil]
        exact ⟨(g₁, d₁), rfl, files₁, content₁, hrep, by simp only; omega, hadded⟩
      · obtain ⟨g₂, id, hput, hrep₂, hid⟩ := hrep.putOther (htree.ok p hmem) hsource (by omega)
        have hle := hid.nextkey_le
        rw [← typeOf_other hsource] at hid hrep₂
        rw [if_neg hbinary, if_pos (.inr hbinary)]
        refine ⟨(g₂, d₁), by simp only [hput]; rfl, _, _, hrep₂, by simp only; omega, ?_⟩
        exact hadded.step hrep hid (fun _ _ => rfl) fun h => absurd h hsource
  refine ⟨⟨s.1, s.2, now⟩, files, content, ?_, rfl, hrep, hnext, fun p => ⟨?_, ?_⟩, ?_⟩
  · rw [createtags, hrun]
    rfl
  · rintro ⟨id, t, hid⟩
    have hin := (hadded.new id p t hid).resolve_left (by simp)
    exact ⟨List.mem_of_mem_filter hin, of_decide_eq_true (List.mem_filter.1 hin).2⟩
  · rintro ⟨hfound, hwanted⟩
    obtain ⟨id, hid⟩ := hadded.listed p (List.mem_filter.2 ⟨hfound, decide_eq_true hwanted⟩)
    exact ⟨id, _, hid⟩
  · intro id p hid
    have hin := (hadded.new id p _ hid).resolve_left (by simp)
    exact hadded.parsed id p hin hid

/-- **A single update** of a known source file: no other file changes, and GTAGS counts as
written now. -/
theorem Rep.single_update {site : Site} (hcfg : cfg.Ready)
    (h : Rep cfg site.gpath site.data files content) {id : ℕ}
    (hid : files id = some (path, .source)) (hskip : ¬ cfg.skipthisfile path)
    (hbinary : ¬ tree.isBinary path) (hpath : Path.Ok path)
    (hsyms : Accepts cfg.gtags cfg.grtags (tree.syms path))
    (hroom : site.gpath.nextkey < intMax) (now : ℕ) :
    ∃ site' files' content', incremental cfg tree now (some path) site = some (site', true) ∧
      Rep cfg site'.gpath site'.data files' content' ∧ site'.mtime = now ∧
      site'.gpath.nextkey ≤ site.gpath.nextkey + 1 ∧
      files' id = some (path, .source) ∧ content' id = tree.syms path ∧
      ∀ k p, files k = some (p, .source) → p ≠ path →
        files' k = some (p, .source) ∧ content' k = content k := by
  have hstart : site.gpath.nextkey ≤ endOfId := h.gpath.le.trans (by decide)
  obtain ⟨deleteset, hadd, hdelete⟩ :=
    (denotes_idsetOpen hstart).add (h.gpath.range id path _ hid).1
  have honly : ∀ k, files k = some (path, .source) → k = id := fun k hk => h.gpath.injective hk hid
  have hsound : Lists.Sound cfg tree files
      { Lists.start site.gpath with addlist := [path], deleteset := deleteset } site.gpath.nextkey
      fun k => k = id := by
    refine ⟨by simp, ?_, by simp [Lists.start], by simp [Lists.start],
      hdelete.congr fun k => by simp⟩
    simp only [List.mem_singleton, forall_eq, Lists.start, List.not_mem_nil, not_false_eq_true,
      true_and]
    exact ⟨hpath, issourcefile_of_typeOf (h.typeOf id path _ hid), hsyms, honly⟩
  obtain ⟨site', files', content', hexecute, hrep, hmtime, hnext, heffect⟩ :=
    h.execute hcfg hsound (by simpa [Lists.start, Nat.succ_le_iff] using hroom) now
  have hupdated : Lists.updated
      { Lists.start site.gpath with addlist := [path], deleteset := deleteset } := by
    simp [Lists.updated, Lists.tags]
  rw [hupdated] at hexecute hmtime
  have hkeep := heffect.keep id path _ hid (by simp [Lists.start])
  refine ⟨site', files', content', ?_, hrep, hmtime, hnext, hkeep,
    heffect.parsed id path (by simp) hkeep, fun k p hk hne => ⟨?_, ?_⟩⟩
  · have hfid : gpathPath2fid site.gpath path = some (Decimal.putNumber id, .source) :=
      (h.gpath.path2fid path hpath.isPath _ _).2 ⟨id, rfl, hid⟩
    have hpass : (cfg.skipthisfile path || tree.isBinary path) = false := by
      rw [Bool.or_eq_false_iff]
      exact ⟨Bool.eq_false_iff.2 hskip, Bool.eq_false_iff.2 hbinary⟩
    rw [Update.incremental]
    simp only [inspectSingle, hfid, atoi_putNumber, hpass]
    rw [if_neg Bool.false_ne_true]
    have hadd' : idsetAdd (Lists.start site.gpath).deleteset id = some deleteset := hadd
    rw [hadd', Option.map_some, Option.bind_some, hexecute]
  · exact heffect.keep k p _ hk (by simp [Lists.start])
  · refine heffect.rest k p hk ?_
    rintro rfl
    rw [hk, Option.some.injEq, Prod.mk.injEq] at hid
    exact hne hid.1

end

end EmacsConfig.Global.Update
