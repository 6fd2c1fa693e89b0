import EmacsConfig.Lib.Fields
import EmacsConfig.Lib.FileSystem

/-!
# Formatting a directory of C++ files

`format-cxx-directory` asks `file-directory-p` before `file-symlink-p`, so it
leaves out links to files and follows links to directories.
`formatCxxDirectory_formatsOnce_iff`: it comes to the files of the directory's
own tree once each, and to no others, exactly if no link leads to a C++ file
and the walk is finite.
-/

namespace EmacsConfig.FormatCxx

open EmacsConfig.Fields EmacsConfig.FileSystem

structure FileName where
  chars : List Char
  ne : chars ≠ []
  no_slash : '/' ∉ chars
  deriving DecidableEq

/-! ## File names -/

/-- `[-[:alnum:]:#@^._]`, in ASCII -/
def isVersionChar (c : Char) : Bool := c.isAlphanum || c ∈ ['-', ':', '#', '@', '^', '.', '_']

/-- `file-name-version-regexp`: `~`, `.~version~` or `.~version~number~`. -/
def isVersion (s : List Char) : Bool :=
  match s.splitOn '~' with
  | [[], []] => true
  | [['.'], v, []] => v ≠ [] && v.all isVersionChar
  | [['.'], v, k, []] => v ≠ [] && v.all isVersionChar && k ≠ [] && k.all Char.isDigit
  | _ => false

def fileNameSansVersions : List Char → List Char
  | [] => []
  | c :: s => if isVersion (c :: s) then [] else c :: fileNameSansVersions s

/-- What follows the last dot, if this is not the first character. -/
def fileNameExtension (name : List Char) : Option (List Char) :=
  let file := fileNameSansVersions name
  if '.' ∈ file.tail then some (afterLast '.' file) else none

def cxxExtensions : List (List Char) :=
  ["h", "hpp", "hxx", "c", "cpp", "cxx"].map String.toList

def cxxFileP (file : List Char) : Bool :=
  match fileNameExtension file with
  | none => false
  | some extension => file = fileNameSansVersions file && extension ∈ cxxExtensions

theorem isVersion_tilde {s : List Char} (h : isVersion s) : '~' ∈ s.getLast? := by
  have hjoin : ['~'].intercalate (s.splitOn '~') = s := List.intercalate_splitOn '~'
  unfold isVersion at h
  split at h
  · next heq =>
    rw [heq] at hjoin
    simp [← hjoin]
  · next v heq =>
    obtain rfl : ['.', '~'] ++ v ++ ['~'] = s := by simpa [heq] using hjoin
    exact List.getLast?_concat
  · next v k heq =>
    obtain rfl : ['.', '~'] ++ v ++ ['~'] ++ k ++ ['~'] = s := by simpa [heq] using hjoin
    exact List.getLast?_concat
  · cases h

theorem fileNameSansVersions_eq {s : List Char} (h : '~' ∉ s.getLast?) :
    fileNameSansVersions s = s := by
  induction s with
  | nil => rfl
  | cons c s ih =>
    rw [fileNameSansVersions, if_neg fun hv => h (isVersion_tilde hv)]
    cases s with
    | nil => rfl
    | cons c' s => rw [ih (by simpa using h)]

theorem fileNameExtension_eq_some {file extension : List Char}
    (h : fileNameSansVersions file = file) : fileNameExtension file = some extension ↔
      ∃ base, file = base ++ '.' :: extension ∧ base ≠ [] ∧ '.' ∉ extension := by
  unfold fileNameExtension
  dsimp only
  rw [h]
  constructor
  · intro hsome
    obtain ⟨hdot, rfl⟩ : '.' ∈ file.tail ∧ afterLast '.' file = extension := by
      simpa using hsome
    cases file with
    | nil => cases hdot
    | cons c s =>
      obtain ⟨a, b, rfl, hb⟩ := eq_append_cons_last (show '.' ∈ s from hdot)
      refine ⟨c :: a, ?_, List.cons_ne_nil _ _, notMem_afterLast _⟩
      rw [← List.cons_append, afterLast_append_cons _ hb]
  · rintro ⟨base, rfl, hbase, hdot⟩
    have hmem : '.' ∈ (base ++ '.' :: extension).tail := by
      rw [List.tail_append_of_ne_nil hbase]
      simp
    rw [if_pos hmem, afterLast_append_cons _ hdot]

theorem plain_of_mem_cxxExtensions {extension : List Char} (h : extension ∈ cxxExtensions) :
    '~' ∉ extension.getLast? ∧ '.' ∉ extension ∧ extension ≠ [] := by
  simp only [cxxExtensions, List.map_cons, List.map_nil, List.mem_cons, List.not_mem_nil,
    or_false] at h
  rcases h with rfl | rfl | rfl | rfl | rfl | rfl <;> simp

/-- **A C++ file has one of the extensions after something.** -/
theorem cxxFileP_iff {file : List Char} : cxxFileP file ↔
    ∃ base extension, file = base ++ '.' :: extension ∧ base ≠ [] ∧ extension ∈ cxxExtensions := by
  constructor
  · intro h
    unfold cxxFileP at h
    split at h
    · cases h
    · next extension hsome =>
      obtain ⟨hsans, hext⟩ : file = fileNameSansVersions file ∧ extension ∈ cxxExtensions := by
        simpa using h
      obtain ⟨base, hfile, hbase, -⟩ := (fileNameExtension_eq_some hsans.symm).1 hsome
      exact ⟨base, extension, hfile, hbase, hext⟩
  · rintro ⟨base, extension, rfl, hbase, hext⟩
    obtain ⟨htilde, hdot, hne⟩ := plain_of_mem_cxxExtensions hext
    have hsans : fileNameSansVersions (base ++ '.' :: extension) = base ++ '.' :: extension := by
      apply fileNameSansVersions_eq
      rw [List.getLast?_append_of_ne_nil _ (List.cons_ne_nil _ _), List.getLast?_cons_of_ne_nil hne]
      exact htilde
    unfold cxxFileP
    rw [(fileNameExtension_eq_some hsans).2 ⟨base, rfl, hbase, hdot⟩]
    simp [hsans, hext]

example : cxxFileP ".c".toList = false ∧ cxxFileP "a.c.~1~".toList = false := by decide

/-! ## The walk -/

/-- `(string= "." (substring name 0 1))` -/
def startsWithDot (name : List Char) : Bool := name.take 1 = ['.']

def dot : FileName := ⟨['.'], by decide, by decide⟩

def dotDot : FileName := ⟨['.', '.'], by decide, by decide⟩

/-- The last name of a path. -/
def fileNameNondirectory (path : List FileName) : List Char :=
  (path.getLast?.map FileName.chars).getD []

/-- The results of a body for each element, if all of them come back. -/
def dolist {α β : Type*} (body : α → Option (List β)) : List α → Option (List β)
  | [] => some []
  | x :: xs => do
    let ys ← body x
    let zs ← dolist body xs
    return ys ++ zs

section
variable {Dir : Type*} (fs : Files FileName Dir) (max : Option Nat) (d : Dir)

/-- `(directory-files dirname t)` -/
def directoryFiles (dirname : List FileName) : Option (List (List FileName)) :=
  (resolve fs max (d, 0) dirname).map fun s =>
    (dot :: dotDot :: (fs.entries s.1).map Prod.fst).map fun n => dirname ++ [n]

/-- Follows links. -/
def fileDirectoryP (x : List FileName) : Bool := (resolve fs max (d, 0) x).isSome

/-- Follows links. -/
def fileRegularP (x : List FileName) : Bool :=
  match lstat fs max (d, 0) x with
  | some (_, .file) => true
  | some (links, .link more .file) => Within max (links + more + 1)
  | _ => false

def fileSymlinkP (x : List FileName) : Bool :=
  match lstat fs max (d, 0) x with
  | some (_, .link _ _) => true
  | _ => false

/-- The body of the loop; `walk` is the call of the function itself. -/
def formatEntry (walk : List FileName → Option (List (List FileName))) (x : List FileName) :
    Option (List (List FileName)) :=
  if ¬ startsWithDot (fileNameNondirectory x) then
    if fileDirectoryP fs max d x then walk x
    else if fileRegularP fs max d x ∧ ¬ fileSymlinkP fs max d x ∧
        cxxFileP (fileNameNondirectory x) then some [x]
    else some []
  else some []

/-- The files `format-cxx-file` is called on, in order; paths start at the
directory `d`. `none` is a walk that goes deeper than `fuel`. -/
def formatCxxDirectory : Nat → List FileName → Option (List (List FileName))
  | 0, _ => none
  | fuel + 1, dirname =>
    (directoryFiles fs max d dirname).bind (dolist (formatEntry fs max d (formatCxxDirectory fuel)))

end

section
variable {α β : Type*} {body : α → Option (List β)}

theorem dolist_cons {x : α} {xs : List α} {zs : List β} : dolist body (x :: xs) = some zs ↔
    ∃ ys ys', body x = some ys ∧ dolist body xs = some ys' ∧ zs = ys ++ ys' := by
  constructor
  · intro h
    obtain ⟨ys, hx, h⟩ := Option.bind_eq_some_iff.1 h
    obtain ⟨ys', hxs, h⟩ := Option.bind_eq_some_iff.1 h
    cases h
    exact ⟨ys, ys', hx, hxs, rfl⟩
  · rintro ⟨ys, ys', hx, hxs, rfl⟩
    rw [dolist, hx, hxs]
    rfl

theorem dolist_isSome {xs : List α} :
    (dolist body xs).isSome ↔ ∀ x ∈ xs, (body x).isSome := by
  induction xs with
  | nil => simp [dolist]
  | cons x xs ih =>
    rw [List.forall_mem_cons, ← ih]
    simp only [Option.isSome_iff_exists, dolist_cons]
    constructor
    · rintro ⟨-, ys, ys', hx, hxs, rfl⟩
      exact ⟨⟨ys, hx⟩, ⟨ys', hxs⟩⟩
    · rintro ⟨⟨ys, hx⟩, ⟨ys', hxs⟩⟩
      exact ⟨ys ++ ys', ys, ys', hx, hxs, rfl⟩

theorem mem_dolist {xs : List α} {zs : List β} (h : dolist body xs = some zs) {y : β} :
    y ∈ zs ↔ ∃ x ∈ xs, ∃ ys, body x = some ys ∧ y ∈ ys := by
  induction xs generalizing zs with
  | nil =>
    cases h
    simp
  | cons x xs ih =>
    obtain ⟨ys, ys', hx, hxs, rfl⟩ := dolist_cons.1 h
    simp [ih hxs, hx]

theorem nodup_dolist {xs : List α} {zs : List β} (h : dolist body xs = some zs) (hxs : xs.Nodup)
    (hbody : ∀ x ∈ xs, ∀ ys, body x = some ys → ys.Nodup)
    (hdisjoint : ∀ x ∈ xs, ∀ x' ∈ xs, x ≠ x' → ∀ ys ys' y, body x = some ys → body x' = some ys' →
      y ∈ ys → y ∉ ys') : zs.Nodup := by
  induction xs generalizing zs with
  | nil =>
    cases h
    exact List.nodup_nil
  | cons x xs ih =>
    obtain ⟨ys, ys', hx, hrest, rfl⟩ := dolist_cons.1 h
    rw [List.nodup_cons] at hxs
    have hys' : ys'.Nodup := by
      apply ih hrest hxs.2
      · exact fun x hx => hbody x (List.mem_cons_of_mem _ hx)
      · exact fun x hx x' hx' => hdisjoint x (List.mem_cons_of_mem _ hx) x'
          (List.mem_cons_of_mem _ hx')
    apply List.Nodup.append (hbody x List.mem_cons_self ys hx) hys'
    intro y hy hy'
    obtain ⟨x', hx', ys'', hbody', hy''⟩ := (mem_dolist hrest).1 hy'
    have hne : x ≠ x' := fun heq => hxs.1 (heq ▸ hx')
    exact hdisjoint x List.mem_cons_self x' (List.mem_cons_of_mem _ hx') hne _ _ y hx hbody' hy hy''

end

def Visible (n : FileName) : Prop := ¬ startsWithDot n.chars

instance (n : FileName) : Decidable (Visible n) := inferInstanceAs (Decidable (¬ _))

section
variable {Dir : Type*} {fs : Files FileName Dir} {max : Option Nat} {d : Dir}

@[simp]
theorem fileNameNondirectory_concat (p : List FileName) (n : FileName) :
    fileNameNondirectory (p ++ [n]) = n.chars := by
  simp [fileNameNondirectory]

/-- The links to files are the ones that `file-symlink-p` leaves out. -/
theorem regular_not_symlink_iff {s : Dir × Nat} {p : List FileName} {n : FileName} {x : Entry Dir}
    (hp : resolve fs max (d, 0) p = some s) (hx : (n, x) ∈ fs.entries s.1) :
    (fileRegularP fs max d (p ++ [n]) ∧ ¬ fileSymlinkP fs max d (p ++ [n])) ↔ x = .file := by
  unfold fileRegularP fileSymlinkP
  rw [lstat_concat hp hx]
  cases x <;> simp

theorem fileDirectoryP_concat {s : Dir × Nat} {p : List FileName} {n : FileName}
    (hp : resolve fs max (d, 0) p = some s) :
    fileDirectoryP fs max d (p ++ [n]) = (enter fs max s n).isSome := by
  rw [fileDirectoryP, resolve_concat, hp]
  rfl

theorem formatEntry_hidden {walk : List FileName → Option (List (List FileName))}
    (p : List FileName) {n : FileName} (h : ¬ Visible n) :
    formatEntry fs max d walk (p ++ [n]) = some [] := by
  rw [formatEntry, fileNameNondirectory_concat]
  exact if_neg h

/-- One name of a directory: the walk goes on there, the file is formatted, or
nothing is done. -/
theorem formatEntry_eq_some {walk : List FileName → Option (List (List FileName))}
    {s : Dir × Nat} {p : List FileName} {n : FileName} {x : Entry Dir}
    (hp : resolve fs max (d, 0) p = some s) (hx : (n, x) ∈ fs.entries s.1)
    {calls : List (List FileName)} :
    formatEntry fs max d walk (p ++ [n]) = some calls ↔
      (Visible n ∧ (enter fs max s n).isSome ∧ walk (p ++ [n]) = some calls) ∨
      (Visible n ∧ x = .file ∧ cxxFileP n.chars ∧ calls = [p ++ [n]]) ∨
      ((Visible n → enter fs max s n = none ∧ ¬ (x = .file ∧ cxxFileP n.chars)) ∧ calls = []) := by
  have hformat : (fileRegularP fs max d (p ++ [n]) ∧ ¬ fileSymlinkP fs max d (p ++ [n]) ∧
      cxxFileP n.chars) ↔ x = .file ∧ cxxFileP n.chars := by
    rw [← and_assoc, regular_not_symlink_iff hp hx]
  by_cases hvis : Visible n
  · unfold formatEntry
    rw [fileNameNondirectory_concat, fileDirectoryP_concat hp,
      if_pos (show ¬ startsWithDot n.chars from hvis)]
    cases hdir : enter fs max s n with
    | some s' =>
      have hne : x ≠ .file := by
        rintro rfl
        rw [enter_file hx] at hdir
        cases hdir
      simp [hvis, hne]
    | none =>
      rw [if_neg (by simp)]
      by_cases hfile : x = .file ∧ cxxFileP n.chars
      · rw [if_pos (hformat.2 hfile)]
        simp [hvis, hfile, @eq_comm _ _ calls]
      · rw [if_neg (mt hformat.1 hfile)]
        simp [hvis, hfile, @eq_comm _ _ calls]
        exact fun hx hcxx => absurd ⟨hx, hcxx⟩ hfile
  · rw [formatEntry_hidden p hvis]
    simp [hvis, @eq_comm _ _ calls]

/-- `.` and `..` are left out. -/
theorem formatCxxDirectory_succ {s : Dir × Nat} {p : List FileName}
    (hp : resolve fs max (d, 0) p = some s) (fuel : Nat) :
    formatCxxDirectory fs max d (fuel + 1) p =
      dolist (formatEntry fs max d (formatCxxDirectory fs max d fuel))
        (((fs.entries s.1).map Prod.fst).map fun n => p ++ [n]) := by
  rw [formatCxxDirectory, directoryFiles, hp, Option.map_some, Option.bind_some, List.map_cons,
    List.map_cons, dolist, formatEntry_hidden p (n := dot) (by decide), dolist,
    formatEntry_hidden p (n := dotDot) (by decide)]
  simp

theorem mem_entries_of_enter {s s' : Dir × Nat} {n : FileName} (h : enter fs max s n = some s') :
    ∃ x, (n, x) ∈ fs.entries s.1 := by
  rcases enter_cases h with ⟨hmem, -⟩ | ⟨more, hmem, -⟩
  · exact ⟨_, hmem⟩
  · exact ⟨_, hmem⟩

theorem formatEntry_isSome {walk : List FileName → Option (List (List FileName))}
    {s : Dir × Nat} {p : List FileName} {n : FileName} {x : Entry Dir}
    (hp : resolve fs max (d, 0) p = some s) (hx : (n, x) ∈ fs.entries s.1) :
    (formatEntry fs max d walk (p ++ [n])).isSome ↔
      (Visible n → (enter fs max s n).isSome → (walk (p ++ [n])).isSome) := by
  constructor
  · intro h hvis henter
    obtain ⟨calls, hcalls⟩ := Option.isSome_iff_exists.1 h
    rcases (formatEntry_eq_some hp hx).1 hcalls with ⟨-, -, hwalk⟩ | ⟨-, rfl, -⟩ | ⟨hnone, -⟩
    · exact Option.isSome_of_eq_some hwalk
    · rw [enter_file hx] at henter
      cases henter
    · rw [(hnone hvis).1] at henter
      cases henter
  · intro h
    by_cases hdir : Visible n ∧ (enter fs max s n).isSome
    · obtain ⟨calls, hcalls⟩ := Option.isSome_iff_exists.1 (h hdir.1 hdir.2)
      exact Option.isSome_of_eq_some
        ((formatEntry_eq_some hp hx).2 (.inl ⟨hdir.1, hdir.2, hcalls⟩))
    by_cases hfile : Visible n ∧ x = .file ∧ cxxFileP n.chars
    · exact Option.isSome_of_eq_some
        ((formatEntry_eq_some hp hx).2 (.inr (.inl ⟨hfile.1, hfile.2.1, hfile.2.2, rfl⟩)))
    · refine Option.isSome_of_eq_some
        ((formatEntry_eq_some hp hx).2 (.inr (.inr ⟨fun hvis => ⟨?_, ?_⟩, rfl⟩)))
      · exact Option.not_isSome_iff_eq_none.1 fun hsome => hdir ⟨hvis, hsome⟩
      · exact fun hx => hfile ⟨hvis, hx⟩

/-- The walk comes back if it has fuel for every path to a directory. -/
theorem formatCxxDirectory_isSome {s : Dir × Nat} {p : List FileName} {fuel : Nat}
    (hp : resolve fs max (d, 0) p = some s) : (formatCxxDirectory fs max d fuel p).isSome ↔
      ∀ q, (∀ n ∈ q, Visible n) → (resolve fs max s q).isSome → q.length < fuel := by
  induction fuel generalizing s p with
  | zero =>
    constructor
    · intro h
      cases h
    · intro h
      exact absurd (h [] (by simp) rfl) (Nat.not_lt_zero _)
  | succ fuel ih =>
    rw [formatCxxDirectory_succ hp, dolist_isSome]
    simp only [List.forall_mem_map, Prod.forall]
    constructor
    · intro h q hvis hq
      cases q with
      | nil => exact Nat.succ_pos fuel
      | cons n q =>
        rw [List.forall_mem_cons] at hvis
        obtain ⟨s'', hs''⟩ := Option.isSome_iff_exists.1 hq
        obtain ⟨s', hs', hrest⟩ := Option.bind_eq_some_iff.1 hs''
        obtain ⟨x, hx⟩ := mem_entries_of_enter hs'
        have hwalk := (formatEntry_isSome hp hx).1 (h n x hx) hvis.1 (Option.isSome_of_eq_some hs')
        have hlen := (ih (resolve_concat_eq_some.2 ⟨s, hp, hs'⟩)).1 hwalk q hvis.2
          (Option.isSome_of_eq_some hrest)
        exact Nat.succ_lt_succ hlen
    · intro h n x hx
      rw [formatEntry_isSome hp hx]
      intro hvis henter
      obtain ⟨s', hs'⟩ := Option.isSome_iff_exists.1 henter
      rw [ih (resolve_concat_eq_some.2 ⟨s, hp, hs'⟩)]
      intro q hq hsome
      have := h (n :: q) (List.forall_mem_cons.2 ⟨hvis, hq⟩) (by rwa [resolve, hs'])
      exact Nat.lt_of_succ_lt_succ this

theorem formatCxxDirectory_isSome_of_enter {s s' : Dir × Nat} {p : List FileName} {n : FileName}
    {fuel : Nat} (hp : resolve fs max (d, 0) p = some s)
    (h : (formatCxxDirectory fs max d (fuel + 1) p).isSome) (hn : Visible n)
    (hs' : enter fs max s n = some s') :
    (formatCxxDirectory fs max d fuel (p ++ [n])).isSome := by
  rw [formatCxxDirectory_isSome (resolve_concat_eq_some.2 ⟨s, hp, hs'⟩)]
  intro q hq hres
  have hlen := (formatCxxDirectory_isSome hp).1 h (n :: q) (List.forall_mem_cons.2 ⟨hn, hq⟩)
    (by rwa [resolve, hs'])
  exact Nat.lt_of_succ_lt_succ hlen

variable (fs) in
/-- A file that `format-cxx-file` is called on where it is met. -/
def CxxFileIn (e : Dir) (n : FileName) : Prop :=
  (n, .file) ∈ fs.entries e ∧ Visible n ∧ cxxFileP n.chars

theorem mem_formatCxxDirectory_succ {s : Dir × Nat} {p : List FileName} {fuel : Nat}
    {calls : List (List FileName)} (hp : resolve fs max (d, 0) p = some s)
    (h : formatCxxDirectory fs max d (fuel + 1) p = some calls) {y : List FileName} : y ∈ calls ↔
      ∃ n x ys, (n, x) ∈ fs.entries s.1 ∧
        formatEntry fs max d (formatCxxDirectory fs max d fuel) (p ++ [n]) = some ys ∧ y ∈ ys := by
  rw [formatCxxDirectory_succ hp] at h
  rw [mem_dolist h]
  constructor
  · rintro ⟨z, hz, ys, hbody, hy⟩
    obtain ⟨m, hm, rfl⟩ := List.mem_map.1 hz
    obtain ⟨⟨n, x⟩, hx, rfl⟩ := List.mem_map.1 hm
    exact ⟨n, x, ys, hx, hbody, hy⟩
  · rintro ⟨n, x, ys, hx, hbody, hy⟩
    exact ⟨p ++ [n], List.mem_map_of_mem (List.mem_map.2 ⟨_, hx, rfl⟩), ys, hbody, hy⟩

theorem mem_formatCxxDirectory {s : Dir × Nat} {p : List FileName} {fuel : Nat}
    {calls : List (List FileName)} (hp : resolve fs max (d, 0) p = some s)
    (h : formatCxxDirectory fs max d fuel p = some calls) {y : List FileName} : y ∈ calls ↔
      ∃ q n s', y = p ++ q ++ [n] ∧ (∀ m ∈ q, Visible m) ∧ resolve fs max s q = some s' ∧
        CxxFileIn fs s'.1 n := by
  induction fuel generalizing s p calls with
  | zero => cases h
  | succ fuel ih =>
    rw [mem_formatCxxDirectory_succ hp h]
    constructor
    · rintro ⟨n, x, ys, hx, hbody, hy⟩
      rcases (formatEntry_eq_some hp hx).1 hbody with
        ⟨hvis, henter, hwalk⟩ | ⟨hvis, rfl, hcxx, rfl⟩ | ⟨-, rfl⟩
      · obtain ⟨s', hs'⟩ := Option.isSome_iff_exists.1 henter
        obtain ⟨q, n', s'', rfl, hq, hs'', hfile⟩ :=
          (ih (resolve_concat_eq_some.2 ⟨s, hp, hs'⟩) hwalk).1 hy
        refine ⟨n :: q, n', s'', by simp, List.forall_mem_cons.2 ⟨hvis, hq⟩, ?_, hfile⟩
        rw [resolve, hs']
        exact hs''
      · obtain rfl := List.mem_singleton.1 hy
        exact ⟨[], n, s, by simp, by simp, rfl, hx, hvis, hcxx⟩
      · cases hy
    · rintro ⟨q, n, s', rfl, hq, hs', hfile⟩
      cases q with
      | nil =>
        cases hs'
        refine ⟨n, _, [p ++ [n]], hfile.1, (formatEntry_eq_some hp hfile.1).2 ?_, by simp⟩
        exact .inr (.inl ⟨hfile.2.1, rfl, hfile.2.2, rfl⟩)
      | cons m q =>
        rw [List.forall_mem_cons] at hq
        obtain ⟨s1, hs1, hrest⟩ := Option.bind_eq_some_iff.1 hs'
        obtain ⟨x, hx⟩ := mem_entries_of_enter hs1
        obtain ⟨ys, hys⟩ := Option.isSome_iff_exists.1
          (formatCxxDirectory_isSome_of_enter hp (Option.isSome_of_eq_some h) hq.1 hs1)
        refine ⟨m, x, ys, hx, (formatEntry_eq_some hp hx).2 ?_, ?_⟩
        · exact .inl ⟨hq.1, Option.isSome_of_eq_some hs1, hys⟩
        · rw [ih (resolve_concat_eq_some.2 ⟨s, hp, hs1⟩) hys]
          exact ⟨q, n, s', by simp, hq.2, hrest, hfile⟩

theorem nodup_formatCxxDirectory {s : Dir × Nat} {p : List FileName} {fuel : Nat}
    {calls : List (List FileName)} (hp : resolve fs max (d, 0) p = some s)
    (h : formatCxxDirectory fs max d fuel p = some calls) : calls.Nodup := by
  induction fuel generalizing s p calls with
  | zero => cases h
  | succ fuel ih =>
    rw [formatCxxDirectory_succ hp] at h
    have hwalk {n : FileName} {ys : List (List FileName)}
        (hys : formatEntry fs max d (formatCxxDirectory fs max d fuel) (p ++ [n]) = some ys)
        {x : Entry Dir} (hx : (n, x) ∈ fs.entries s.1) :
        ys.Nodup ∧ ∀ y ∈ ys, ∃ r, y = p ++ n :: r := by
      rcases (formatEntry_eq_some hp hx).1 hys with
        ⟨-, henter, hwalk⟩ | ⟨-, -, -, rfl⟩ | ⟨-, rfl⟩
      · obtain ⟨s', hs'⟩ := Option.isSome_iff_exists.1 henter
        have hp' := resolve_concat_eq_some.2 ⟨s, hp, hs'⟩
        refine ⟨ih hp' hwalk, fun y hy => ?_⟩
        obtain ⟨q, n', -, rfl, -⟩ := (mem_formatCxxDirectory hp' hwalk).1 hy
        exact ⟨q ++ [n'], by simp⟩
      · exact ⟨List.nodup_singleton _, fun y hy => ⟨[], List.mem_singleton.1 hy⟩⟩
      · exact ⟨List.nodup_nil, fun y hy => by cases hy⟩
    apply nodup_dolist h
    · apply (fs.names_nodup s.1).map
      intro n n' heq
      simpa using heq
    · simp only [List.forall_mem_map, Prod.forall]
      exact fun n x hx ys hys => (hwalk hys hx).1
    · simp only [List.forall_mem_map, Prod.forall]
      intro n x hx n' x' hx' hne ys ys' y hys hys' hy hy'
      obtain ⟨r, rfl⟩ := (hwalk hys hx).2 y hy
      obtain ⟨r', heq⟩ := (hwalk hys' hx').2 _ hy'
      obtain ⟨rfl, -⟩ := List.cons.inj (List.append_cancel_left heq)
      exact hne rfl

end

/-! ## Each file once -/

section
variable {Dir : Type*} (fs : Files FileName Dir) (max : Option Nat) (d : Dir)

/-- The C++ files of the directory's own tree, through visible names. -/
def Eligible (f : Dir × FileName) : Prop := Below fs Visible d f.1 ∧ CxxFileIn fs f.1 f.2

/-- The directory that a path's file is in, whatever the path to it, and the
name there. -/
def location (path : List FileName) : Option (Dir × FileName) :=
  (parent fs max (d, 0) path).map fun x => (x.1.1, x.2)

/-- The walk ends, and has come to each eligible file once and to no other. -/
def FormatsOnce : Prop :=
  ∃ fuel calls, ∃ files : List (Dir × FileName),
    formatCxxDirectory fs max d fuel [] = some calls ∧
    calls.map (location fs max d) = files.map some ∧ files.Nodup ∧ ∀ f, f ∈ files ↔ Eligible fs d f

/-- Visible names lead over a link to a directory with a C++ file. -/
def LinkedCxxFile : Prop :=
  ∃ p e u n, (∀ m ∈ p, Visible m) ∧ resolve fs max (d, 0) p = some (e, u) ∧ 0 < u ∧
    CxxFileIn fs e n

end

section
variable {Dir : Type*} {fs : Files FileName Dir} {max : Option Nat} {d : Dir}

theorem location_concat {p : List FileName} {s : Dir × Nat} (h : resolve fs max (d, 0) p = some s)
    (n : FileName) : location fs max d (p ++ [n]) = some (s.1, n) := by
  rw [location, parent_concat h n]
  rfl

/-- **The walk ends unless links may lead round without end.** -/
theorem formatCxxDirectory_ends_iff : (∃ fuel, (formatCxxDirectory fs max d fuel []).isSome) ↔
    (max = none → ¬ Cycle fs max Visible d) := by
  rw [← bounded_iff]
  apply exists_congr
  intro fuel
  rw [formatCxxDirectory_isSome rfl]
  constructor
  · exact fun h q hq => h q hq.1 hq.2
  · exact fun h q hvis hq => h q ⟨hvis, hq⟩

/-- A file behind a link is formatted, and if it is in the directory's own tree,
it is formatted there too. -/
theorem not_formatsOnce_of_linked (h : LinkedCxxFile fs max d) : ¬ FormatsOnce fs max d := by
  rintro ⟨fuel, calls, files, hcalls, hmap, hnodup, hfiles⟩
  obtain ⟨p, e, u, n, hp, hres, hu, hfile⟩ := h
  have hcall {q : List FileName} {v : Nat} (hq : ∀ m ∈ q, Visible m)
      (hres : resolve fs max (d, 0) q = some (e, v)) : q ++ [n] ∈ calls :=
    (mem_formatCxxDirectory rfl hcalls).2 ⟨q, n, (e, v), by simp, hq, hres, hfile⟩
  have hmem : some (e, n) ∈ files.map some := by
    rw [← hmap, ← location_concat hres n]
    exact List.mem_map_of_mem (hcall hp hres)
  obtain ⟨hbelow, -⟩ := (hfiles (e, n)).1 (by simpa using hmem)
  obtain ⟨q, hq, hres'⟩ := below_iff.1 hbelow
  have hinj : (calls.map (location fs max d)).Nodup := by
    rw [hmap]
    exact hnodup.map (Option.some_injective _)
  have heq := List.inj_on_of_nodup_map hinj (hcall hp hres) (hcall hq hres')
    (by rw [location_concat hres, location_concat hres'])
  obtain rfl := List.append_cancel_right heq
  rw [hres] at hres'
  cases hres'
  exact absurd hu (Nat.lt_irrefl 0)

/-- Without linked files the walk calls on files of the directory's own tree. -/
theorem physical_of_mem (hlinked : ¬ LinkedCxxFile fs max d) {fuel : Nat}
    {calls : List (List FileName)} (hcalls : formatCxxDirectory fs max d fuel [] = some calls)
    {y : List FileName} (hy : y ∈ calls) : ∃ q n e, y = q ++ [n] ∧ (∀ m ∈ q, Visible m) ∧
      resolve fs max (d, 0) q = some (e, 0) ∧ CxxFileIn fs e n := by
  obtain ⟨q, n, ⟨e, u⟩, rfl, hq, hres, hfile⟩ := (mem_formatCxxDirectory rfl hcalls).1 hy
  obtain rfl : u = 0 := by
    by_contra hu
    exact hlinked ⟨q, e, u, n, hq, hres, Nat.pos_of_ne_zero hu, hfile⟩
  exact ⟨q, n, e, by simp, hq, hres, hfile⟩

/-- The places of the calls are those of the eligible files. -/
theorem mem_locations_iff (hlinked : ¬ LinkedCxxFile fs max d) {fuel : Nat}
    {calls : List (List FileName)} (hcalls : formatCxxDirectory fs max d fuel [] = some calls)
    {f : Dir × FileName} : f ∈ calls.filterMap (location fs max d) ↔ Eligible fs d f := by
  rw [List.mem_filterMap]
  constructor
  · rintro ⟨y, hy, hloc⟩
    obtain ⟨q, n, e, rfl, hq, hres, hfile⟩ := physical_of_mem hlinked hcalls hy
    rw [location_concat hres] at hloc
    cases hloc
    exact ⟨below_iff.2 ⟨q, hq, hres⟩, hfile⟩
  · obtain ⟨e, n⟩ := f
    rintro ⟨hbelow, hfile⟩
    obtain ⟨q, hq, hres⟩ := below_iff.1 hbelow
    refine ⟨q ++ [n], ?_, location_concat hres n⟩
    exact (mem_formatCxxDirectory rfl hcalls).2 ⟨q, n, (e, 0), by simp, hq, hres, hfile⟩

theorem formatsOnce_of (hlinked : ¬ LinkedCxxFile fs max d)
    (hcycle : max = none → ¬ Cycle fs max Visible d) : FormatsOnce fs max d := by
  obtain ⟨fuel, hsome⟩ := formatCxxDirectory_ends_iff.2 hcycle
  obtain ⟨calls, hcalls⟩ := Option.isSome_iff_exists.1 hsome
  have hcall {y : List FileName} (hy : y ∈ calls) := physical_of_mem hlinked hcalls hy
  have hmap : calls.map (location fs max d) = (calls.filterMap (location fs max d)).map some := by
    rw [List.map_filterMap_some_eq_filter_map_isSome, List.filter_eq_self.2]
    intro f hf
    obtain ⟨y, hy, rfl⟩ := List.mem_map.1 hf
    obtain ⟨q, n, e, rfl, -, hres, -⟩ := hcall hy
    rw [location_concat hres]
    rfl
  refine ⟨fuel, calls, calls.filterMap (location fs max d), hcalls, hmap, ?_,
    fun f => mem_locations_iff hlinked hcalls⟩
  -- without links the place of a file gives its path back
  apply List.Nodup.of_map some
  rw [← hmap]
  apply List.Nodup.map_on _ (nodup_formatCxxDirectory rfl hcalls)
  intro y hy y' hy' heq
  obtain ⟨q, n, e, rfl, -, hres, -⟩ := hcall hy
  obtain ⟨q', n', e', rfl, -, hres', -⟩ := hcall hy'
  rw [location_concat hres, location_concat hres'] at heq
  cases heq
  rw [resolve_unique hres hres']

/-- **Each C++ file of the directory is formatted once, and no other, exactly if
no link leads to one and links do not lead round without end.** -/
theorem formatCxxDirectory_formatsOnce_iff : FormatsOnce fs max d ↔
    ¬ LinkedCxxFile fs max d ∧ (max = none → ¬ Cycle fs max Visible d) := by
  constructor
  · intro h
    refine ⟨fun hlinked => not_formatsOnce_of_linked hlinked h, ?_⟩
    obtain ⟨fuel, calls, -, hcalls, -⟩ := h
    exact formatCxxDirectory_ends_iff.1 ⟨fuel, Option.isSome_of_eq_some hcalls⟩
  · rintro ⟨hlinked, hcycle⟩
    exact formatsOnce_of hlinked hcycle

end

def nameL : FileName := ⟨['l'], by decide, by decide⟩

def nameAC : FileName := ⟨['a', '.', 'c'], by decide, by decide⟩

/-- The one directory has a link to the other, which has a C file. -/
def linkOut : Files FileName Bool where
  entries
    | false => [(nameL, .link 0 (.directory true))]
    | true => [(nameAC, .file)]
  names_nodup := by decide
  height _ := 0
  height_lt {d n c} h := by cases d <;> simp at h
  parent_unique {d d' n n' c} h := by cases d <;> simp at h
  finite := inferInstance

/-- With the forty links that Linux follows on a path. -/
theorem not_formatsOnce_linkOut : ¬ FormatsOnce linkOut (some 40) false := by
  apply not_formatsOnce_of_linked
  refine ⟨[nameL], true, 1, nameAC, by decide, rfl, Nat.one_pos, ?_, by decide, ?_⟩
  · exact List.mem_singleton.2 rfl
  · exact cxxFileP_iff.2 ⟨['a'], ['c'], rfl, by decide, by decide⟩

end EmacsConfig.FormatCxx
