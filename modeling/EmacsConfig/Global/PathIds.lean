import EmacsConfig.Lib.Refinement
import EmacsConfig.Global.TagRecords

/-!
# File ids (libutil/gpathop.c)

GPATH has two records for each file, path => id and id => path, under the keys of one
database. Paths start with `./`, ids are decimal numbers from 1 on. It stands for a table
of files by id, in which no path occurs twice and an id that was given to a path is never
given to another one.
-/

namespace EmacsConfig.Global.PathIds

open Decimal Gparam TagRecords Refinement

inductive PathType where
  | source | other
  deriving DecidableEq, Repr

/-- The records of GPATH, with the flag, and `_nextkey`. -/
structure Gpath where
  dbop : List Char → Option (List Char × PathType)
  nextkey : ℕ

def intMax : ℕ := 2 ^ 31 - 1

def gpathCreate : Gpath := ⟨fun _ => none, 1⟩

def gpathPut [SysParam] (g : Gpath) (path : List Char) (type : PathType) : Option Gpath :=
  if (g.dbop path).isSome then some g
  else if path.length = 0 ∨ maxKeyLen < path.length then none
  -- `_nextkey++` overflows
  else if intMax ≤ g.nextkey then none
  else
    let fid := putNumber g.nextkey
    let dbop := Function.update g.dbop path (some (fid, type))
    some ⟨Function.update dbop fid (some (path, type)), g.nextkey + 1⟩

def gpathPath2fid (g : Gpath) (path : List Char) : Option (List Char × PathType) := g.dbop path

def gpathFid2path (g : Gpath) (fid : List Char) : Option (List Char × PathType) := g.dbop fid

def isPath (path : List Char) : Bool := ['.', '/'].isPrefixOf path

/-- `none` is the assertion that `path` starts with `./`. -/
def gpathDelete (g : Gpath) (path : List Char) : Option Gpath :=
  if isPath path then
    match g.dbop path with
    | none => some g
    | some (fid, _) =>
      some { g with dbop := Function.update (Function.update g.dbop fid none) path none }
  else none

/-! ## Ids and paths -/

theorem putNumber_injective : Function.Injective putNumber := by
  intro m n h
  have hm := getNumber_putNumber m (p := []) (by simp)
  rw [h, getNumber_putNumber n (by simp)] at hm
  exact (congrArg Prod.fst hm).symm

theorem not_isPath_putNumber (id : ℕ) : ¬ isPath (putNumber id) := by
  obtain ⟨c, p, heq, hdigit⟩ := exists_cons id
  rw [heq, isPath]
  intro h
  rw [List.isPrefixOf_cons_cons, Bool.and_eq_true, beq_iff_eq] at h
  rw [← h.1] at hdigit
  exact absurd hdigit (by decide)

theorem ne_putNumber {path : List Char} (h : isPath path) (id : ℕ) : path ≠ putNumber id := by
  rintro rfl
  exact not_isPath_putNumber id h

/-! ## What GPATH stands for -/

/-- The files by id. -/
abbrev Files := ℕ → Option (List Char × PathType)

def Files.Has (files : Files) (path : List Char) : Prop := ∃ id type, files id = some (path, type)

def Files.erase (files : Files) (path : List Char) : Files := fun id =>
  (files id).filter fun file => file.1 ≠ path

structure Rep (g : Gpath) (files : Files) : Prop where
  pos : 0 < g.nextkey
  le : g.nextkey ≤ intMax
  fid2path : ∀ id, g.dbop (putNumber id) = files id
  range : ∀ id path type, files id = some (path, type) → id < g.nextkey ∧ 0 < id
  isPath : ∀ id path type, files id = some (path, type) → PathIds.isPath path
  path2fid : ∀ path, PathIds.isPath path → ∀ fid type,
    g.dbop path = some (fid, type) ↔ ∃ id, fid = putNumber id ∧ files id = some (path, type)

theorem rep_create : Rep gpathCreate fun _ => none where
  pos := by decide
  le := by decide
  fid2path _ := rfl
  range _ _ _ h := by cases h
  isPath _ _ _ h := by cases h
  path2fid _ _ _ _ := by simp [gpathCreate]

section

variable {g : Gpath} {files : Files} {path : List Char} {type type' : PathType} {id id' : ℕ}

/-- No path occurs twice. -/
theorem Rep.injective (h : Rep g files) (hid : files id = some (path, type))
    (hid' : files id' = some (path, type')) : id = id' := by
  have hpath := h.isPath id path type hid
  have hfid := (h.path2fid path hpath _ _).2 ⟨id, rfl, hid⟩
  have hfid' := (h.path2fid path hpath _ _).2 ⟨id', rfl, hid'⟩
  rw [hfid] at hfid'
  exact putNumber_injective (congrArg Prod.fst (Option.some.inj hfid'))

theorem Rep.isSome_iff (h : Rep g files) (hpath : PathIds.isPath path) :
    (g.dbop path).isSome ↔ files.Has path := by
  rw [Option.isSome_iff_exists]
  constructor
  · rintro ⟨⟨fid, type⟩, hfid⟩
    obtain ⟨id, -, hid⟩ := (h.path2fid path hpath fid type).1 hfid
    exact ⟨id, type, hid⟩
  · rintro ⟨id, type, hid⟩
    exact ⟨_, (h.path2fid path hpath _ _).2 ⟨id, rfl, hid⟩⟩

theorem Rep.eq_none (h : Rep g files) (hid : g.nextkey ≤ id) : files id = none := by
  cases hfile : files id with
  | none => rfl
  | some file =>
    have := (h.range id file.1 file.2 hfile).1
    omega

/-- **`gpath_put`** of a known path does nothing. -/
theorem Rep.gpathPut_known [SysParam] (h : Rep g files) (hid : files id = some (path, type)) :
    gpathPut g path type' = some g := by
  rw [gpathPut, if_pos ((h.isSome_iff (h.isPath id path type hid)).2 ⟨id, type, hid⟩)]

/-- A new path gets the next id. -/
theorem Rep.update (h : Rep g files) (hpath : PathIds.isPath path) (hnew : ¬ files.Has path)
    (hlt : g.nextkey < intMax) :
    Rep ⟨Function.update (Function.update g.dbop path (some (putNumber g.nextkey, type)))
        (putNumber g.nextkey) (some (path, type)), g.nextkey + 1⟩
      (Function.update files g.nextkey (some (path, type))) where
  pos := Nat.succ_pos _
  le := hlt
  fid2path id := by
    simp only
    by_cases hid : id = g.nextkey
    · rw [hid, Function.update_self, Function.update_self]
    · rw [Function.update_of_ne (putNumber_injective.ne hid), Function.update_of_ne hid,
        Function.update_of_ne (ne_putNumber hpath id).symm, h.fid2path]
  range id p t hfile := by
    have hpos := h.pos
    by_cases hid : id = g.nextkey
    · simp only
      omega
    · rw [Function.update_of_ne hid] at hfile
      have := h.range id p t hfile
      simp only
      omega
  isPath id p t hfile := by
    by_cases hid : id = g.nextkey
    · rw [hid, Function.update_self, Option.some.injEq, Prod.mk.injEq] at hfile
      exact hfile.1 ▸ hpath
    · rw [Function.update_of_ne hid] at hfile
      exact h.isPath id p t hfile
  path2fid p hp fid t := by
    simp only
    rw [Function.update_of_ne (ne_putNumber hp _)]
    by_cases hsame : p = path
    · subst hsame
      rw [Function.update_self]
      constructor
      · intro heq
        obtain ⟨rfl, rfl⟩ := Prod.mk.inj (Option.some.inj heq)
        exact ⟨g.nextkey, rfl, Function.update_self ..⟩
      · rintro ⟨id, rfl, hfile⟩
        by_cases hid : id = g.nextkey
        · rw [hid, Function.update_self] at hfile
          rw [hid, (Prod.mk.inj (Option.some.inj hfile)).2]
        · rw [Function.update_of_ne hid] at hfile
          exact absurd ⟨id, t, hfile⟩ hnew
    · rw [Function.update_of_ne hsame, h.path2fid p hp]
      refine exists_congr fun id => and_congr_right fun _ => ?_
      by_cases hid : id = g.nextkey
      · rw [hid, Function.update_self, h.eq_none le_rfl]
        simp [Ne.symm hsame]
      · rw [Function.update_of_ne hid]

theorem Rep.gpathPut_new [SysParam] (h : Rep g files) (type : PathType) (hpath : PathIds.isPath path)
    (hnew : ¬ files.Has path) (hlen : path.length ≤ maxKeyLen) (hlt : g.nextkey < intMax) :
    ∃ g', gpathPut g path type = some g' ∧ g'.nextkey = g.nextkey + 1 ∧
      Rep g' (Function.update files g.nextkey (some (path, type))) := by
  have hne : path.length ≠ 0 := by
    rw [Ne, List.length_eq_zero_iff]
    rintro rfl
    cases hpath
  refine ⟨_, ?_, rfl, h.update hpath hnew hlt⟩
  rw [gpathPut, if_neg (by rwa [h.isSome_iff hpath]), if_neg (by omega), if_neg (by omega)]

theorem erase_eq_some {files : Files} {file : List Char × PathType} :
    files.erase path id = some file ↔ files id = some file ∧ file.1 ≠ path := by
  simp [Files.erase, Option.filter_eq_some_iff]

theorem not_has_erase (files : Files) (path : List Char) : ¬ (files.erase path).Has path :=
  fun ⟨_, _, hid⟩ => (erase_eq_some.1 hid).2 rfl

/-- **`gpath_delete`** takes both records of the path away. -/
theorem Rep.gpathDelete (h : Rep g files) (hpath : PathIds.isPath path) :
    ∃ g', gpathDelete g path = some g' ∧ g'.nextkey = g.nextkey ∧ Rep g' (files.erase path) := by
  rw [PathIds.gpathDelete, if_pos hpath]
  cases hfid : g.dbop path with
  | none =>
    refine ⟨g, rfl, rfl, ?_⟩
    have hnew : ¬ files.Has path := by
      rw [← h.isSome_iff hpath, hfid]
      simp
    have hsame : files.erase path = files := by
      funext id
      ext file
      rw [erase_eq_some, and_iff_left_iff_imp]
      rintro hfile rfl
      exact hnew ⟨id, file.2, hfile⟩
    rwa [hsame]
  | some entry =>
    obtain ⟨fid, type⟩ := entry
    obtain ⟨gone, rfl, hgone⟩ := (h.path2fid path hpath fid type).1 hfid
    refine ⟨_, rfl, rfl, h.pos, h.le, ?_, ?_, ?_, ?_⟩
    · intro id
      simp only
      rw [Function.update_of_ne (ne_putNumber hpath id).symm]
      by_cases hid : id = gone
      · rw [hid, Function.update_self, Files.erase, hgone]
        simp [Option.filter]
      · rw [Function.update_of_ne (putNumber_injective.ne hid), h.fid2path]
        ext file
        rw [erase_eq_some, iff_self_and]
        rintro hfile rfl
        exact hid (h.injective hfile hgone)
    · intro id p t hfile
      exact h.range id p t (erase_eq_some.1 hfile).1
    · intro id p t hfile
      exact h.isPath id p t (erase_eq_some.1 hfile).1
    · intro p hp fid t
      simp only [erase_eq_some]
      by_cases hsame : p = path
      · subst hsame
        rw [Function.update_self]
        simp
      · rw [Function.update_of_ne hsame, Function.update_of_ne (ne_putNumber hp _),
          h.path2fid p hp]
        simp [hsame]

/-- `path` has the id `id`, the next one if it had none. -/
def Assigned (g g' : Gpath) (files : Files) (path : List Char) (type : PathType) (id : ℕ) : Prop :=
  files id = some (path, type) ∧ g'.nextkey = g.nextkey ∨
    id = g.nextkey ∧ ¬ files.Has path ∧ g'.nextkey = g.nextkey + 1

theorem Assigned.nextkey_le {g' : Gpath} (h : Assigned g g' files path type id) :
    g'.nextkey ≤ g.nextkey + 1 := by
  rcases h with ⟨-, h⟩ | ⟨-, -, h⟩ <;> omega

/-- The files there are keep their ids. -/
theorem Assigned.keep {g' : Gpath} (h : Assigned g g' files path type id) (hrep : Rep g files)
    {k : ℕ} {file : List Char × PathType} (hk : files k = some file) :
    Function.update files id (some (path, type)) k = some file := by
  by_cases heq : k = id
  · subst heq
    rcases h with ⟨hid, -⟩ | ⟨rfl, -⟩
    · rw [Function.update_self, ← hid, hk]
    · rw [hrep.eq_none le_rfl] at hk
      cases hk
  · rwa [Function.update_of_ne heq]

/-- **`gpath_put`** of a path whose type does not change. -/
theorem Rep.put [SysParam] (h : Rep g files) (hpath : PathIds.isPath path)
    (hlen : path.length ≤ maxKeyLen) (hlt : g.nextkey < intMax)
    (htype : ∀ id t, files id = some (path, t) → t = type) :
    ∃ g' id, gpathPut g path type = some g' ∧
      Rep g' (Function.update files id (some (path, type))) ∧
      Assigned g g' files path type id := by
  by_cases hhas : files.Has path
  · obtain ⟨id, t, hid⟩ := hhas
    obtain rfl := htype id t hid
    refine ⟨g, id, h.gpathPut_known hid, ?_, .inl ⟨hid, rfl⟩⟩
    rwa [← hid, Function.update_eq_self]
  · obtain ⟨g', hput, hnext, hrep⟩ := h.gpathPut_new type hpath hhas hlen hlt
    exact ⟨g', g.nextkey, hput, hrep, .inr ⟨rfl, hhas, hnext⟩⟩

theorem Rep.of_gpathPut [SysParam] {g' : Gpath} (h : Rep g files) (hpath : PathIds.isPath path)
    (hput : gpathPut g path type = some g') :
    files.Has path ∧ g' = g ∨ ¬ files.Has path ∧ g'.nextkey = g.nextkey + 1 ∧
      Rep g' (Function.update files g.nextkey (some (path, type))) := by
  by_cases hhas : files.Has path
  · obtain ⟨id, t, hid⟩ := hhas
    rw [h.gpathPut_known hid] at hput
    exact .inl ⟨⟨id, t, hid⟩, (Option.some.inj hput).symm⟩
  · rw [gpathPut, if_neg (by rwa [h.isSome_iff hpath])] at hput
    split_ifs at hput with hlen hmax
    obtain rfl := Option.some.inj hput
    exact .inr ⟨hhas, rfl, h.update hpath hhas (by omega)⟩

end

/-! ## Runs -/

inductive Op where
  | put (path : List Char) (type : PathType)
  | delete (path : List Char)
  deriving DecidableEq, Repr

def Op.path : Op → List Char
  | .put path _ => path
  | .delete path => path

def step [SysParam] (g : Gpath) : Op → Option Gpath
  | .put path type => gpathPut g path type
  | .delete path => gpathDelete g path

/-- `given` are the files that ever had an id. -/
structure Given (g : Gpath) (files given : Files) : Prop where
  rep : Rep g files
  sub : ∀ id file, files id = some file → given id = some file
  range : ∀ id file, given id = some file → id < g.nextkey

theorem Given.step [SysParam] {g g' : Gpath} {files given : Files} (h : Given g files given) {op : Op}
    (hpath : isPath op.path) (hstep : step g op = some g') :
    ∃ files' given', Given g' files' given' ∧ ∀ id file, given id = some file →
      given' id = some file := by
  cases op with
  | put path type =>
    rcases h.rep.of_gpathPut hpath hstep with ⟨-, rfl⟩ | ⟨-, hnext, hrep⟩
    · exact ⟨files, given, h, fun _ _ => id⟩
    · have hkeep : ∀ id file, given id = some file →
          Function.update given g.nextkey (some (path, type)) id = some file := by
        intro id file hfile
        have := h.range id file hfile
        rwa [Function.update_of_ne (by omega)]
      refine ⟨_, Function.update given g.nextkey (some (path, type)), ⟨hrep, ?_, ?_⟩, hkeep⟩
      · intro id file hfile
        by_cases hid : id = g.nextkey
        · rwa [hid, Function.update_self] at hfile ⊢
        · rw [Function.update_of_ne hid] at hfile
          exact hkeep id file (h.sub id file hfile)
      · intro id file hfile
        rw [hnext]
        by_cases hid : id = g.nextkey
        · omega
        · rw [Function.update_of_ne hid] at hfile
          have := h.range id file hfile
          omega
  | delete path =>
    obtain ⟨g₁, hdelete, hnext, hrep⟩ := h.rep.gpathDelete hpath
    obtain rfl := Option.some.inj (hdelete.symm.trans hstep)
    refine ⟨_, given, ⟨hrep, fun id file hfile => ?_, fun id file hfile => ?_⟩, fun _ _ => id⟩
    · exact h.sub id file (erase_eq_some.1 hfile).1
    · rw [hnext]
      exact h.range id file hfile

theorem Given.run [SysParam] {g g' : Gpath} {files given : Files} (h : Given g files given) {ops : List Op}
    (hpaths : ∀ op ∈ ops, isPath op.path) (hrun : ops.foldlM PathIds.step g = some g') :
    ∃ files' given', Given g' files' given' ∧ ∀ id file, given id = some file →
      given' id = some file := by
  have hinv := foldlM_invariant (fun g => ∃ files' given', Given g files' given' ∧
    ∀ id file, given id = some file → given' id = some file) ?_ ⟨files, given, h, fun _ _ => id⟩ hrun
  · exact hinv
  · rintro s op s' hop hstep ⟨files₁, given₁, h₁, hkeep₁⟩
    obtain ⟨files₂, given₂, h₂, hkeep₂⟩ := h₁.step (hpaths op hop) hstep
    exact ⟨files₂, given₂, h₂, fun id file hfile => hkeep₂ id file (hkeep₁ id file hfile)⟩

theorem given_create : Given gpathCreate (fun _ => none) fun _ => none :=
  ⟨rep_create, fun _ _ => id, fun _ _ h => by cases h⟩

/-- **GPATH over a run**: ids and paths are inverse to each other, and an id that was once
that of a path is never that of another. -/
theorem ids_keep_their_paths [SysParam] (ops later : List Op) (g g' : Gpath)
    (hpaths : ∀ op ∈ ops ++ later, isPath op.path) (hrun : ops.foldlM step gpathCreate = some g)
    (hlater : later.foldlM step g = some g') :
    (∀ path, isPath path → ∀ fid type,
      gpathPath2fid g path = some (fid, type) ↔
        ∃ id, fid = putNumber id ∧ gpathFid2path g (putNumber id) = some (path, type)) ∧
    ∀ id file file', gpathFid2path g (putNumber id) = some file →
      gpathFid2path g' (putNumber id) = some file' → file' = file := by
  obtain ⟨files, given, h, -⟩ := given_create.run
    (fun op hop => hpaths op (List.mem_append_left _ hop)) hrun
  obtain ⟨files', given', h', hkeep⟩ := h.run
    (fun op hop => hpaths op (List.mem_append_right _ hop)) hlater
  constructor
  · intro path hpath fid type
    rw [gpathPath2fid, h.rep.path2fid path hpath]
    simp only [gpathFid2path, h.rep.fid2path]
  · intro id file file' hfile hfile'
    have hold := hkeep id file (h.sub id file ((h.rep.fid2path id).symm.trans hfile))
    have hnew := h'.sub id file' ((h'.rep.fid2path id).symm.trans hfile')
    exact Option.some.inj (hnew.symm.trans hold)

section

attribute [local instance] linux

theorem ids_keep_their_paths_again : ∃ g g',
    [Op.put "./a.c".toList .source].foldlM step gpathCreate = some g ∧
    [Op.delete "./a.c".toList, .put "./a.c".toList .source].foldlM step g = some g' ∧
    (∀ path, isPath path → ∀ fid type,
      gpathPath2fid g path = some (fid, type) ↔
        ∃ id, fid = putNumber id ∧ gpathFid2path g (putNumber id) = some (path, type)) ∧
    ∀ id file file', gpathFid2path g (putNumber id) = some file →
      gpathFid2path g' (putNumber id) = some file' → file' = file := by
  have hpath : isPath "./a.c".toList := by decide
  obtain ⟨g, hg, hnext, hrep⟩ := rep_create.gpathPut_new .source hpath (by simp [Files.Has])
    (by decide) (by decide)
  obtain ⟨g₁, hg₁, hnext₁, hrep₁⟩ := hrep.gpathDelete hpath
  obtain ⟨g₂, hg₂, -⟩ := hrep₁.gpathPut_new .source hpath (not_has_erase _ _) (by decide)
    (by rw [hnext₁, hnext]; decide)
  have hrun : [Op.put "./a.c".toList .source].foldlM step gpathCreate = some g := by
    rw [List.foldlM_cons, step, hg]
    rfl
  have hlater : [Op.delete "./a.c".toList, .put "./a.c".toList .source].foldlM step g = some g₂ := by
    rw [List.foldlM_cons, step, hg₁, Option.bind_eq_bind, Option.bind_some, List.foldlM_cons, step,
      hg₂]
    rfl
  exact ⟨g, g₂, hrun, hlater, ids_keep_their_paths _ _ g g₂ (by decide) hrun hlater⟩

end

end EmacsConfig.Global.PathIds
