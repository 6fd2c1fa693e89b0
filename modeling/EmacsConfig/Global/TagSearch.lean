import EmacsConfig.Global.TagRecords
import Mathlib.Data.List.Chain

/-!
# Source lines of the tags found (global/global.c)

`search` reads the line image of a compact record from the source file. It keeps the
file open as long as the path stays the same and reads on; for another tag it rewinds
the file when the first line lies before the last one shown.
-/

namespace EmacsConfig.Global.TagSearch

/-- A record as `search` has unfolded it: `tag` is the key, `tagname` the name as it is
stored, `names` what is shown for the line numbers. -/
structure Gtp where
  path : List Char
  fid : List Char
  tag : List Char
  tagname : List Char
  names : List (List Char × ℕ)
  deriving DecidableEq, Repr

/-- What `convert_put_using` is called with. -/
structure Shown where
  tag : List Char
  path : List Char
  lineno : ℕ
  image : List Char
  fid : List Char
  deriving DecidableEq, Repr

/-- The variables of `search`; `fp` holds the lines not read yet. -/
structure Source where
  curpath : List Char
  curtag : List Char
  fp : Option (List (List Char))
  lineno : ℕ
  lastLineno : ℕ
  src : List Char
  deriving DecidableEq, Repr

def Source.start : Source := ⟨[], [], none, 0, 0, []⟩

section

variable (files : List Char → Option (List (List Char)))

/-- Reopen or rewind the source file; `first` is the first line number of the record. -/
def reopen (s : Source) (r : Gtp) (first : ℕ) : Source :=
  if r.path ≠ s.curpath then
    { s with curtag := r.tagname, curpath := r.path, fp := files r.path, lineno := 0,
             lastLineno := 0 }
  else if r.tag ≠ s.curtag then
    if first < s.lastLineno ∧ s.fp.isSome then
      { s with curtag := r.tag, fp := files s.curpath, lineno := 0, lastLineno := 0 }
    else { s with curtag := r.tag, lastLineno := 0 }
  else s

/-- `while (lineno < n)`: the lines left, the line number and the line read last. -/
def readLines (n : ℕ) :
    List (List Char) → ℕ → List Char → Option (List (List Char)) × ℕ × List Char
  | [], lineno, src => if lineno < n then (none, lineno, []) else (some [], lineno, src)
  | line :: rest, lineno, src =>
    if lineno < n then readLines n rest (lineno + 1) line else (some (line :: rest), lineno, src)

/-- Moves on to line `n`. -/
def Source.seek (s : Source) (n : ℕ) : Source :=
  match s.fp with
  | none => { s with lastLineno := n }
  | some rest =>
    if s.lastLineno = n then s
    else
      let read := readLines n rest s.lineno s.src
      { s with fp := read.1, lineno := read.2.1, src := read.2.2, lastLineno := n }

/-- The lines of a record. -/
def showLines (r : Gtp) : Source → List (List Char × ℕ) → Source × List Shown
  | s, [] => (s, [])
  | s, (tag, n) :: names =>
    let later := showLines r (s.seek n) names
    (later.1, ⟨tag, r.path, n, (s.seek n).src, r.fid⟩ :: later.2)

def showRecord (nosource : Bool) (s : Source) (r : Gtp) : Source × List Shown :=
  showLines r (if nosource then s else reopen files s r ((r.names.head?.map (·.2)).getD 0)) r.names

/-- The records found, in order. -/
def search (nosource : Bool) : Source → List Gtp → Source × List Shown
  | s, [] => (s, [])
  | s, r :: rs =>
    let now := showRecord files nosource s r
    let later := search nosource now.1 rs
    (later.1, now.2 ++ later.2)

/-! ## Reading on -/

variable {files}

theorem readLines_eq {n lineno : ℕ} {lines : List (List Char)} {src : List Char}
    (hle : lineno ≤ n) (hn : n ≤ lines.length)
    (hsrc : 0 < lineno → lines[lineno - 1]? = some src) (hpos : 0 < n) :
    ∃ line, lines[n - 1]? = some line ∧
      readLines n (lines.drop lineno) lineno src = (some (lines.drop n), n, line) := by
  induction hk : n - lineno generalizing lineno src with
  | zero =>
    obtain rfl : lineno = n := by omega
    refine ⟨src, hsrc hpos, ?_⟩
    cases hdrop : lines.drop lineno with
    | nil => rw [readLines, if_neg (by omega)]
    | cons line rest => rw [readLines, if_neg (by omega)]
  | succ k ih =>
    have hlt : lineno < lines.length := by omega
    have hnext : 0 < lineno + 1 → lines[lineno + 1 - 1]? = some lines[lineno] := by simp [hlt]
    obtain ⟨line, hline, hread⟩ := ih (by omega) hnext (by omega)
    refine ⟨line, hline, ?_⟩
    rw [List.drop_eq_getElem_cons hlt, readLines, if_pos (by omega), hread]

/-- The state after line `n` of the file `lines` was shown, or none yet. -/
structure At (lines : List (List Char)) (s : Source) (n : ℕ) : Prop where
  fp : s.fp = some (lines.drop n)
  lineno : s.lineno = n
  src : 0 < n → lines[n - 1]? = some s.src
  last : s.lastLineno = 0 ∨ s.lastLineno = n

theorem At.seek {lines : List (List Char)} {s : Source} {m n : ℕ} (h : At lines s m)
    (hle : m ≤ n) (hpos : 0 < n) (hn : n ≤ lines.length) :
    At lines (s.seek n) n ∧ (s.seek n).lastLineno = n := by
  unfold Source.seek
  rw [h.fp]
  simp only
  split_ifs with hlast
  · obtain rfl : m = n := by
      rcases h.last with hzero | hm <;> omega
    exact ⟨h, hlast⟩
  · obtain ⟨line, hline, hread⟩ := readLines_eq hle hn h.src hpos
    rw [h.lineno, hread]
    exact ⟨⟨rfl, rfl, fun _ => hline, .inr rfl⟩, rfl⟩

@[simp] theorem seek_curpath (s : Source) (n : ℕ) : (s.seek n).curpath = s.curpath := by
  unfold Source.seek
  split
  · rfl
  · split <;> rfl

@[simp] theorem seek_curtag (s : Source) (n : ℕ) : (s.seek n).curtag = s.curtag := by
  unfold Source.seek
  split
  · rfl
  · split <;> rfl

@[simp] theorem showLines_curpath (r : Gtp) (s : Source) (names : List (List Char × ℕ)) :
    (showLines r s names).1.curpath = s.curpath := by
  induction names generalizing s with
  | nil => rfl
  | cons name names ih => exact (ih _).trans (seek_curpath s name.2)

@[simp] theorem showLines_curtag (r : Gtp) (s : Source) (names : List (List Char × ℕ)) :
    (showLines r s names).1.curtag = s.curtag := by
  induction names generalizing s with
  | nil => rfl
  | cons name names ih => exact (ih _).trans (seek_curtag s name.2)

/-- The part of a line shown that does not come from the source file. -/
def Shown.place (out : Shown) : List Char × List Char × ℕ × List Char :=
  (out.tag, out.path, out.lineno, out.fid)

def Gtp.places (r : Gtp) : List (List Char × List Char × ℕ × List Char) :=
  r.names.map fun name => (name.1, r.path, name.2, r.fid)

theorem showLines_places (r : Gtp) (s : Source) (names : List (List Char × ℕ)) :
    (showLines r s names).2.map Shown.place =
      names.map fun name => (name.1, r.path, name.2, r.fid) := by
  induction names generalizing s with
  | nil => rfl
  | cons name names ih => exact congrArg _ (ih (s.seek name.2))

theorem showLines_path {r : Gtp} {s : Source} {names : List (List Char × ℕ)} {out : Shown}
    (h : out ∈ (showLines r s names).2) : out.path = r.path := by
  have hplace := List.mem_map_of_mem (f := Shown.place) h
  rw [showLines_places] at hplace
  obtain ⟨name, -, heq⟩ := List.mem_map.1 hplace
  exact (congrArg (·.2.1) heq).symm

/-- The lines of all records are shown, in their order. -/
theorem search_places (nosource : Bool) (s : Source) (rs : List Gtp) :
    (search files nosource s rs).2.map Shown.place = rs.flatMap Gtp.places := by
  induction rs generalizing s with
  | nil => rfl
  | cons r rs ih =>
    rw [search, List.map_append, ih, List.flatMap_cons, showRecord, showLines_places]
    rfl

/-- The lines of a record in increasing order: each is shown with its image, and the
file stands at the last one. -/
theorem At.showLines {lines : List (List Char)} {r : Gtp} {s : Source} {m : ℕ}
    {names : List (List Char × ℕ)} (h : At lines s m) (hge : ∀ name ∈ names, m ≤ name.2)
    (hsorted : names.Pairwise (·.2 ≤ ·.2))
    (hrange : ∀ name ∈ names, 0 < name.2 ∧ name.2 ≤ lines.length) :
    (∀ out ∈ (showLines r s names).2, lines[out.lineno - 1]? = some out.image) ∧
      (names ≠ [] → ∃ name ∈ names, At lines (showLines r s names).1 name.2 ∧
        (TagSearch.showLines r s names).1.lastLineno = name.2) := by
  induction names generalizing s m with
  | nil => exact ⟨by simp [TagSearch.showLines], fun hne => absurd rfl hne⟩
  | cons name names ih =>
    rw [List.pairwise_cons] at hsorted
    rw [List.forall_mem_cons] at hge hrange
    obtain ⟨hat, hlast⟩ := h.seek hge.1 hrange.1.1 hrange.1.2
    obtain ⟨himages, hend⟩ := ih hat hsorted.1 hsorted.2 hrange.2
    constructor
    · intro out hout
      rcases List.mem_cons.1 hout with rfl | hout
      · exact hat.src hrange.1.1
      · exact himages out hout
    · intro _
      cases hnames : names with
      | nil => exact ⟨name, List.mem_cons_self, hat, hlast⟩
      | cons next rest =>
        obtain ⟨later, hlater, hlaterAt, hlaterLast⟩ := hend (by simp [hnames])
        rw [← hnames]
        exact ⟨later, List.mem_cons_of_mem _ hlater, hlaterAt, hlaterLast⟩

/-! ## Runs -/

/-- A record has lines, in increasing order and counted from 1, and a path. -/
structure Gtp.WellFormed (r : Gtp) : Prop where
  path : r.path ≠ []
  names : r.names ≠ []
  sorted : r.names.Pairwise (·.2 ≤ ·.2)
  pos : ∀ name ∈ r.names, 0 < name.2

/-- What `search` takes for the same tag of the same file goes on where the record
before it ended. -/
def Follows (r r' : Gtp) : Prop :=
  r'.path = r.path → r'.tag = r.tag ∨ r'.tag = r.tagname →
    ∀ a ∈ r.names, ∀ b ∈ r'.names, a.2 ≤ b.2

/-- The state before the record `r`, as far as it concerns the file `path`. -/
def Ready (path : List Char) (lines : List (List Char)) (s : Source) (r : Gtp) : Prop :=
  s.curpath = path → r.path = path → ∃ m, At lines s m ∧ s.lastLineno = m ∧
    (r.tag = s.curtag → ∀ name ∈ r.names, m ≤ name.2)

theorem ready_start {path : List Char} (h : path ≠ []) (lines : List (List Char)) (r : Gtp) :
    Ready path lines .start r := by
  intro hcur
  exact absurd hcur.symm h

/-- The record is read from a place before its lines. -/
theorem Ready.reopen {path : List Char} {lines : List (List Char)} {s : Source} {r : Gtp}
    (h : Ready path lines s r) (hfile : files path = some lines) (hpath : r.path = path)
    (hwf : r.WellFormed) :
    ∃ m, At lines (reopen files s r ((r.names.head?.map (·.2)).getD 0)) m ∧
      ∀ name ∈ r.names, m ≤ name.2 := by
  obtain ⟨first, rest, hnames⟩ := List.exists_cons_of_ne_nil hwf.names
  have hfirst : ∀ name ∈ r.names, first.2 ≤ name.2 := by
    have hsorted := hwf.sorted
    rw [hnames, List.pairwise_cons] at hsorted
    rw [hnames, List.forall_mem_cons]
    exact ⟨le_rfl, hsorted.1⟩
  have hzero : ∀ tag, At lines ⟨path, tag, some lines, 0, 0, s.src⟩ 0 :=
    fun tag => ⟨rfl, rfl, fun h => absurd h (by omega), .inl rfl⟩
  unfold TagSearch.reopen
  split_ifs with hcur htag hback
  · refine ⟨0, ?_, by simp⟩
    rw [hpath, hfile]
    exact hzero _
  · obtain ⟨m, hat, hlast, -⟩ := h ((not_not.1 hcur).symm.trans hpath) hpath
    refine ⟨0, ?_, by simp⟩
    rw [← not_not.1 hcur, hpath, hfile]
    exact hzero _
  · obtain ⟨m, hat, hlast, -⟩ := h ((not_not.1 hcur).symm.trans hpath) hpath
    refine ⟨m, ⟨hat.fp, hat.lineno, hat.src, .inl rfl⟩, fun name hname => ?_⟩
    have hle : s.lastLineno ≤ first.2 := by
      simpa [hnames, hat.fp] using hback
    have := hfirst name hname
    omega
  · obtain ⟨m, hat, hlast, hsame⟩ := h ((not_not.1 hcur).symm.trans hpath) hpath
    exact ⟨m, hat, hsame (not_not.1 htag)⟩

theorem reopen_curpath (s : Source) (r : Gtp) (first : ℕ) :
    (reopen files s r first).curpath = r.path := by
  unfold reopen
  split_ifs with hcur <;> first | rfl | exact (not_not.1 hcur).symm

theorem reopen_curtag (s : Source) (r : Gtp) (first : ℕ) :
    (reopen files s r first).curtag = r.tag ∨ (reopen files s r first).curtag = r.tagname := by
  unfold reopen
  split_ifs with hcur htag
  · exact .inr rfl
  · exact .inl rfl
  · exact .inl rfl
  · exact .inl (not_not.1 htag).symm

/-- **One record**: its lines are shown with their images, and the state is ready for
a record that follows. -/
theorem Ready.showRecord {path : List Char} {lines : List (List Char)} {s : Source} {r : Gtp}
    (h : Ready path lines s r) (hfile : files path = some lines) (hwf : r.WellFormed)
    (hrange : r.path = path → ∀ name ∈ r.names, name.2 ≤ lines.length) :
    (∀ out ∈ (showRecord files false s r).2, out.path = path →
        lines[out.lineno - 1]? = some out.image) ∧
      ∀ r', Follows r r' → Ready path lines (showRecord files false s r).1 r' := by
  unfold TagSearch.showRecord
  rw [if_neg (by simp)]
  by_cases hpath : r.path = path
  · obtain ⟨m, hat, hge⟩ := h.reopen hfile hpath hwf
    obtain ⟨himages, hend⟩ := hat.showLines (r := r) hge hwf.sorted
      (fun name hname => ⟨hwf.pos name hname, hrange hpath name hname⟩)
    refine ⟨fun out hout _ => himages out hout, fun r' hfollows hcur hpath' => ?_⟩
    obtain ⟨name, hname, hlate, hlast⟩ := hend hwf.names
    refine ⟨name.2, hlate, hlast, fun htag => ?_⟩
    rw [showLines_curtag] at htag
    refine hfollows (hpath'.trans hpath.symm) ?_ name hname
    rw [htag]
    exact reopen_curtag s r _
  · constructor
    · intro out hout hout'
      exact absurd ((showLines_path hout).symm.trans hout') hpath
    · intro _ _ hcur
      rw [showLines_curpath, reopen_curpath] at hcur
      exact absurd hcur hpath

theorem Ready.search {path : List Char} {lines : List (List Char)} {s : Source} {r : Gtp}
    {rs : List Gtp} (h : Ready path lines s r) (hfile : files path = some lines)
    (hwf : ∀ r' ∈ r :: rs, r'.WellFormed) (hchain : (r :: rs).IsChain Follows)
    (hrange : ∀ r' ∈ r :: rs, r'.path = path → ∀ name ∈ r'.names, name.2 ≤ lines.length) :
    ∀ out ∈ (search files false s (r :: rs)).2, out.path = path →
      lines[out.lineno - 1]? = some out.image := by
  induction rs generalizing s r with
  | nil =>
    intro out hout
    have hshow := (h.showRecord hfile (hwf r List.mem_cons_self) (hrange r List.mem_cons_self)).1
    exact hshow out (by simpa [TagSearch.search] using hout)
  | cons r' rs ih =>
    rw [List.isChain_cons_cons] at hchain
    obtain ⟨hshow, hready⟩ := h.showRecord hfile (hwf r List.mem_cons_self)
      (hrange r List.mem_cons_self)
    intro out hout
    rcases List.mem_append.1 hout with hout | hout
    · exact hshow out hout
    · exact ih (hready r' hchain.1) (fun t ht => hwf t (List.mem_cons_of_mem _ ht)) hchain.2
        (fun t ht => hrange t (List.mem_cons_of_mem _ ht)) out hout

/-- **Images**: whatever records of other files are read in between, each line shown for
a file is that line of the file. -/
theorem image_of_mem_search (rs : List Gtp) (hwf : ∀ r ∈ rs, r.WellFormed)
    (hchain : rs.IsChain Follows) (path : List Char) (lines : List (List Char))
    (hfile : files path = some lines)
    (hrange : ∀ r ∈ rs, r.path = path → ∀ name ∈ r.names, name.2 ≤ lines.length) :
    ∀ out ∈ (search files false .start rs).2, out.path = path →
      lines[out.lineno - 1]? = some out.image := by
  cases rs with
  | nil => simp [search]
  | cons r rs =>
    by_cases hpath : path = []
    · intro out hout hempty
      have hplace := List.mem_map_of_mem (f := Shown.place) hout
      rw [search_places] at hplace
      obtain ⟨t, ht, hname⟩ := List.mem_flatMap.1 hplace
      obtain ⟨name, -, heq⟩ := List.mem_map.1 hname
      have htpath : t.path = out.path := congrArg (·.2.1) heq
      exact absurd (htpath.trans (hempty.trans hpath)) (hwf t ht).path
    · exact (ready_start hpath lines r).search hfile hwf hchain hrange

/-! ## Files that cannot be opened -/

@[simp] theorem reopen_src (s : Source) (r : Gtp) (first : ℕ) :
    (reopen files s r first).src = s.src := by
  unfold reopen
  split_ifs <;> rfl

/-- What was shown last, or nothing at the start. -/
theorem showLines_src (r : Gtp) (s : Source) (names : List (List Char × ℕ)) :
    (showLines r s names).1.src =
      (((showLines r s names).2.getLast?).map (·.image)).getD s.src := by
  induction names generalizing s with
  | nil => rfl
  | cons name names ih =>
    rw [showLines]
    simp only
    rw [ih]
    cases hlater : (showLines r (s.seek name.2) names).2 with
    | nil => rfl
    | cons out later =>
      rw [List.getLast?_cons_cons, List.getLast?_eq_some_getLast (List.cons_ne_nil out later)]
      rfl

theorem search_src (s : Source) (rs : List Gtp) :
    (search files false s rs).1.src =
      (((search files false s rs).2.getLast?).map (·.image)).getD s.src := by
  induction rs generalizing s with
  | nil => rfl
  | cons r rs ih =>
    rw [search]
    simp only
    rw [ih, List.getLast?_append]
    have hnow := showLines_src r (reopen files s r ((r.names.head?.map (·.2)).getD 0)) r.names
    rw [reopen_src] at hnow
    have hrecord : (showRecord files false s r).1.src =
        (((showRecord files false s r).2.getLast?).map (·.image)).getD s.src := hnow
    rw [hrecord]
    cases (search files false (showRecord files false s r).1 rs).2.getLast? <;> simp

theorem seek_none {s : Source} (h : s.fp = none) (n : ℕ) :
    (s.seek n).fp = none ∧ (s.seek n).src = s.src := by
  unfold Source.seek
  rw [h]
  exact ⟨rfl, rfl⟩

theorem showLines_none {r : Gtp} {s : Source} (h : s.fp = none) (names : List (List Char × ℕ)) :
    (showLines r s names).1.fp = none ∧ ∀ out ∈ (showLines r s names).2, out.image = s.src := by
  induction names generalizing s with
  | nil => exact ⟨h, by simp [showLines]⟩
  | cons name names ih =>
    obtain ⟨hfp, hsrc⟩ := seek_none h name.2
    obtain ⟨hend, himages⟩ := ih hfp
    refine ⟨hend, fun out hout => ?_⟩
    rcases List.mem_cons.1 hout with rfl | hout
    · exact hsrc
    · exact (himages out hout).trans hsrc

theorem search_curpath (s : Source) (rs : List Gtp) :
    (search files false s rs).1.curpath = ((rs.getLast?).map (·.path)).getD s.curpath := by
  induction rs generalizing s with
  | nil => rfl
  | cons r rs ih =>
    have hnow : (showRecord files false s r).1.curpath = r.path := by
      rw [showRecord, if_neg (by simp), showLines_curpath, reopen_curpath]
    rw [search]
    simp only
    rw [ih, hnow]
    cases rs with
    | nil => rfl
    | cons r' rs =>
      rw [List.getLast?_cons_cons, List.getLast?_eq_some_getLast (List.cons_ne_nil r' rs)]
      rfl

theorem reopen_none {s : Source} {r : Gtp} (hfile : files r.path = none)
    (h : s.curpath ≠ r.path ∨ s.fp = none) (first : ℕ) : (reopen files s r first).fp = none := by
  unfold reopen
  split_ifs with hcur _ hback
  · exact hfile
  · rw [← not_not.1 hcur]
    exact hfile
  all_goals exact h.resolve_left fun hne => hne (not_not.1 hcur).symm

theorem search_none {path : List Char} (hfile : files path = none) {s : Source} {rs : List Gtp}
    (h : s.curpath ≠ path ∨ s.fp = none) (hall : ∀ r ∈ rs, r.path = path) :
    ∀ out ∈ (search files false s rs).2, out.image = s.src := by
  induction rs generalizing s with
  | nil => simp [search]
  | cons r rs ih =>
    rw [List.forall_mem_cons] at hall
    obtain ⟨rfl, hall⟩ := hall
    have hreopen := reopen_none hfile h ((r.names.head?.map (·.2)).getD 0)
    obtain ⟨hend, himages⟩ := showLines_none (r := r) hreopen r.names
    rw [reopen_src] at himages
    have hsrc : (showRecord files false s r).1.src = s.src := by
      have hlast := showLines_src r (reopen files s r ((r.names.head?.map (·.2)).getD 0)) r.names
      rw [reopen_src] at hlast
      rw [showRecord, if_neg (by simp), hlast]
      cases hget : (showLines r (reopen files s r ((r.names.head?.map (·.2)).getD 0))
          r.names).2.getLast? with
      | none => rfl
      | some out => exact himages out (List.mem_of_getLast? hget)
    intro out hout
    rcases List.mem_append.1 hout with hout | hout
    · exact himages out hout
    · rw [← hsrc]
      exact ih (.inr hend) hall out hout

/-- **Stale images**: all lines of a file that cannot be opened are shown, with the image
shown last before, that of another file. -/
theorem unavailable_shows_last (rs missing : List Gtp) (path : List Char)
    (hfile : files path = none) (hpath : path ≠ []) (hall : ∀ r ∈ missing, r.path = path)
    (hother : ∀ r ∈ rs.getLast?, r.path ≠ path) :
    (search files false (search files false .start rs).1 missing).2.map Shown.place =
        missing.flatMap Gtp.places ∧
      ∀ out ∈ (search files false (search files false .start rs).1 missing).2,
        out.image = (((search files false .start rs).2.getLast?).map (·.image)).getD [] := by
  refine ⟨search_places false _ missing, ?_⟩
  have hcur : (search files false .start rs).1.curpath ≠ path := by
    rw [search_curpath]
    cases hlast : rs.getLast? with
    | none => exact hpath.symm
    | some r => exact hother r (by simp [hlast])
  rw [show ([] : List Char) = Source.start.src from rfl, ← search_src]
  exact search_none hfile (.inl hcur) hall

theorem unavailable_shows_last_deleted :
    let files := fun path => if path = "./a.c".toList then some ["foo();".toList] else none
    let rs : List Gtp :=
      [⟨"./a.c".toList, "1".toList, "foo".toList, "@n".toList, [("foo".toList, 1)]⟩]
    let missing : List Gtp :=
      [⟨"./b.c".toList, "2".toList, "foo".toList, "@n".toList, [("foo".toList, 7)]⟩]
    (search files false (search files false .start rs).1 missing).2.map Shown.place =
        missing.flatMap Gtp.places ∧
      ∀ out ∈ (search files false (search files false .start rs).1 missing).2,
        out.image = (((search files false .start rs).2.getLast?).map (·.image)).getD [] :=
  unavailable_shows_last _ _ "./b.c".toList (by decide) (by decide) (by decide) (by decide)

end

end EmacsConfig.Global.TagSearch
