import Mathlib.Data.Fintype.Pigeonhole
import Mathlib.Data.Finset.Lattice.Fold
import Mathlib.Data.List.Induction

/-!
# File systems with symbolic links

Directories form a finite forest; a symbolic link resolves to a directory, to a
file or to nothing. `resolve` follows a path of names from a directory and
counts the links on it, of which an operating system may allow only so many.
A directory has one path without links (`resolve_unique`); paths are bounded
exactly if links are, or if none leads round in a cycle (`bounded_iff`).
-/

namespace EmacsConfig.FileSystem

/-- What a symbolic link resolves to. -/
inductive Target (Dir : Type*) where
  | directory (d : Dir)
  | file
  | missing
  deriving DecidableEq

/-- `more` is how many further links are met on the way to the target. -/
inductive Entry (Dir : Type*) where
  | directory (d : Dir)
  | file
  | link (more : Nat) (target : Target Dir)
  deriving DecidableEq

structure Files (Name Dir : Type*) where
  entries : Dir → List (Name × Entry Dir)
  names_nodup : ∀ d, ((entries d).map Prod.fst).Nodup
  /-- How deep a directory goes. -/
  height : Dir → Nat
  height_lt : ∀ {d n c}, (n, .directory c) ∈ entries d → height c < height d
  parent_unique : ∀ {d d' n n' c}, (n, .directory c) ∈ entries d →
    (n', .directory c) ∈ entries d' → d = d' ∧ n = n'
  finite : Finite Dir

variable {Name Dir : Type*} [DecidableEq Name]

theorem find?_key {β : Type*} {l : List (Name × β)} (h : (l.map Prod.fst).Nodup) {n : Name} {b : β}
    (hmem : (n, b) ∈ l) : l.find? (·.1 = n) = some (n, b) := by
  induction l with
  | nil => cases hmem
  | cons x l ih =>
    rw [List.map_cons, List.nodup_cons] at h
    rcases List.mem_cons.1 hmem with rfl | hmem
    · simp
    · have hne : x.1 ≠ n := by
        rintro rfl
        exact h.1 (List.mem_map.2 ⟨_, hmem, rfl⟩)
      simp [hne, ih h.2 hmem]

namespace Files

def lookup (fs : Files Name Dir) (d : Dir) (n : Name) : Option (Entry Dir) :=
  ((fs.entries d).find? (·.1 = n)).map Prod.snd

theorem lookup_eq_some {fs : Files Name Dir} {d : Dir} {n : Name} {e : Entry Dir} :
    fs.lookup d n = some e ↔ (n, e) ∈ fs.entries d := by
  constructor
  · intro h
    obtain ⟨⟨n', e'⟩, hfind, rfl⟩ := Option.map_eq_some_iff.1 h
    have hname := List.find?_some hfind
    obtain rfl : n' = n := by simpa using hname
    exact List.mem_of_find?_eq_some hfind
  · intro h
    rw [lookup, find?_key (fs.names_nodup d) h]
    rfl

end Files

/-- A limit on the links of a path, if there is one. -/
def Within : Option Nat → Nat → Prop
  | none, _ => True
  | some m, links => links ≤ m

instance : (max : Option Nat) → (links : Nat) → Decidable (Within max links)
  | none, _ => isTrue trivial
  | some m, links => inferInstanceAs (Decidable (links ≤ m))

section
variable (fs : Files Name Dir) (max : Option Nat)

/-- From a directory, reached over some links, into the entry `n`. -/
def enter (s : Dir × Nat) (n : Name) : Option (Dir × Nat) :=
  match fs.lookup s.1 n with
  | some (.directory c) => some (c, s.2)
  | some (.link more (.directory c)) =>
    if Within max (s.2 + more + 1) then some (c, s.2 + more + 1) else none
  | _ => none

/-- The directory a path leads to, and the links on the way. -/
def resolve : Dir × Nat → List Name → Option (Dir × Nat)
  | s, [] => some s
  | s, n :: p => (enter fs max s n).bind fun s' => resolve s' p

theorem resolve_append (s : Dir × Nat) (p q : List Name) :
    resolve fs max s (p ++ q) = (resolve fs max s p).bind fun s' => resolve fs max s' q := by
  induction p generalizing s with
  | nil => rfl
  | cons n p ih =>
    rw [List.cons_append, resolve, resolve, Option.bind_assoc]
    congr 1
    funext s'
    exact ih s'

theorem resolve_concat (s : Dir × Nat) (p : List Name) (n : Name) :
    resolve fs max s (p ++ [n]) = (resolve fs max s p).bind fun s' => enter fs max s' n := by
  rw [resolve_append]
  congr 1
  funext s'
  simp [resolve]

end

section
variable {fs : Files Name Dir} {max : Option Nat}

/-- Into a directory of its own, or over links. -/
theorem enter_cases {s s' : Dir × Nat} {n : Name} (h : enter fs max s n = some s') :
    ((n, .directory s'.1) ∈ fs.entries s.1 ∧ s'.2 = s.2) ∨
      (∃ more, (n, .link more (.directory s'.1)) ∈ fs.entries s.1 ∧ s'.2 = s.2 + more + 1 ∧
        Within max s'.2) := by
  unfold enter at h
  split at h
  · next c hc =>
    cases h
    exact .inl ⟨Files.lookup_eq_some.1 hc, rfl⟩
  · next more c hc =>
    split at h
    · next hw =>
      cases h
      exact .inr ⟨more, Files.lookup_eq_some.1 hc, rfl, hw⟩
    · cases h
  · cases h

theorem enter_directory {d c : Dir} {n : Name} (h : (n, .directory c) ∈ fs.entries d)
    (links : Nat) : enter fs max (d, links) n = some (c, links) := by
  simp [enter, Files.lookup_eq_some.2 h]

theorem enter_file {s : Dir × Nat} {n : Name} (h : (n, .file) ∈ fs.entries s.1) :
    enter fs max s n = none := by
  simp [enter, Files.lookup_eq_some.2 h]

theorem resolve_concat_eq_some {s s' : Dir × Nat} {p : List Name} {n : Name} :
    resolve fs max s (p ++ [n]) = some s' ↔
      ∃ s1, resolve fs max s p = some s1 ∧ enter fs max s1 n = some s' := by
  rw [resolve_concat, Option.bind_eq_some_iff]

/-- Where the last name of a path is looked up, and the name. -/
def parent (fs : Files Name Dir) (max : Option Nat) (s : Dir × Nat) (path : List Name) :
    Option ((Dir × Nat) × Name) :=
  path.getLast?.bind fun n => (resolve fs max s path.dropLast).map (·, n)

theorem parent_concat {s s' : Dir × Nat} {p : List Name} (h : resolve fs max s p = some s')
    (n : Name) : parent fs max s (p ++ [n]) = some (s', n) := by
  simp [parent, h]

/-- The entry a path names; a link as its last name is not followed. -/
def lstat (fs : Files Name Dir) (max : Option Nat) (s : Dir × Nat) (path : List Name) :
    Option (Nat × Entry Dir) :=
  (parent fs max s path).bind fun x => (fs.lookup x.1.1 x.2).map (x.1.2, ·)

theorem lstat_concat {s s' : Dir × Nat} {p : List Name} {n : Name} {x : Entry Dir}
    (h : resolve fs max s p = some s') (hmem : (n, x) ∈ fs.entries s'.1) :
    lstat fs max s (p ++ [n]) = some (s'.2, x) := by
  rw [lstat, parent_concat h n, Option.bind_some, Files.lookup_eq_some.2 hmem]
  rfl

/-! ## Paths without links -/

/-- The last step of a path without links. -/
theorem resolve_concat_zero {d e : Dir} {p : List Name} {n : Name}
    (h : resolve fs max (d, 0) (p ++ [n]) = some (e, 0)) :
    ∃ e1, resolve fs max (d, 0) p = some (e1, 0) ∧ (n, .directory e) ∈ fs.entries e1 := by
  obtain ⟨⟨e1, links⟩, h1, h2⟩ := resolve_concat_eq_some.1 h
  rcases enter_cases h2 with ⟨hmem, hl⟩ | ⟨more, -, hl, -⟩
  · obtain rfl : 0 = links := hl
    exact ⟨e1, h1, hmem⟩
  · exact absurd hl (by simp)

theorem height_of_resolve {d e : Dir} {p : List Name}
    (h : resolve fs max (d, 0) p = some (e, 0)) : fs.height e + p.length ≤ fs.height d := by
  induction p using List.reverseRecOn generalizing e with
  | nil =>
    cases h
    exact Nat.le_refl _
  | append_singleton p n ih =>
    obtain ⟨e1, h1, hmem⟩ := resolve_concat_zero h
    have := ih h1
    have := fs.height_lt hmem
    rw [List.length_append, List.length_singleton]
    omega

/-- **A directory has one path without links.** -/
theorem resolve_unique {d e : Dir} {p q : List Name} (hp : resolve fs max (d, 0) p = some (e, 0))
    (hq : resolve fs max (d, 0) q = some (e, 0)) : p = q := by
  have hloop {r : List Name} {n : Name} (h : resolve fs max (d, 0) (r ++ [n]) = some (d, 0)) :
      False := by
    have := height_of_resolve h
    rw [List.length_append, List.length_singleton] at this
    omega
  induction p using List.reverseRecOn generalizing e q with
  | nil =>
    cases hp
    rcases List.eq_nil_or_concat' q with rfl | ⟨r, n, rfl⟩
    · rfl
    · exact (hloop hq).elim
  | append_singleton p n ih =>
    rcases List.eq_nil_or_concat' q with rfl | ⟨r, m, rfl⟩
    · cases hq
      exact (hloop hp).elim
    · obtain ⟨e1, h1, hmem1⟩ := resolve_concat_zero hp
      obtain ⟨e2, h2, hmem2⟩ := resolve_concat_zero hq
      obtain ⟨rfl, rfl⟩ := fs.parent_unique hmem1 hmem2
      rw [ih h1 h2]

end

/-! ## Directories below a directory -/

section
variable (fs : Files Name Dir) (max : Option Nat) (visible : Name → Prop) (d : Dir)

/-- The directories of a directory's own tree, through visible names. -/
inductive Below : Dir → Prop
  | here : Below d
  | child {e c : Dir} {n : Name} : Below e → (n, .directory c) ∈ fs.entries e → visible n → Below c

/-- A path of visible names to a directory, over links or not. -/
def DirPath (p : List Name) : Prop :=
  (∀ n ∈ p, visible n) ∧ (resolve fs max (d, 0) p).isSome

/-- A directory is reached by visible names, and from there again. -/
def Cycle : Prop :=
  ∃ p q e u v, (∀ n ∈ p ++ q, visible n) ∧ q ≠ [] ∧
    resolve fs max (d, 0) p = some (e, u) ∧ resolve fs max (e, u) q = some (e, v)

end

section
variable {fs : Files Name Dir} {max : Option Nat} {visible : Name → Prop} {d : Dir}

theorem below_iff {e : Dir} : Below fs visible d e ↔
    ∃ p, (∀ n ∈ p, visible n) ∧ resolve fs max (d, 0) p = some (e, 0) := by
  constructor
  · intro h
    induction h with
    | here => exact ⟨[], by simp, rfl⟩
    | @child e c n _ hmem hn ih =>
      obtain ⟨p, hp, hres⟩ := ih
      refine ⟨p ++ [n], ?_, resolve_concat_eq_some.2 ⟨_, hres, enter_directory hmem 0⟩⟩
      intro m hm
      rcases List.mem_append.1 hm with hm | hm
      · exact hp m hm
      · rwa [List.mem_singleton.1 hm]
  · rintro ⟨p, hp, hres⟩
    induction p using List.reverseRecOn generalizing e with
    | nil =>
      cases hres
      exact .here
    | append_singleton p n ih =>
      obtain ⟨e1, h1, hmem⟩ := resolve_concat_zero hres
      have hbelow := ih (fun m hm => hp m (List.mem_append_left _ hm)) h1
      exact .child hbelow hmem (hp n (by simp))

/-! ## Trees without links -/

variable (fs d) in
/-- No directory of the tree has a link in it. -/
def NoLinks : Prop :=
  ∀ e, Below fs (fun _ => True) d e → ∀ n more target, (n, .link more target) ∉ fs.entries e

theorem NoLinks.resolve (h : NoLinks fs d) {p : List Name} {s : Dir × Nat}
    (hp : resolve fs max (d, 0) p = some s) : s.2 = 0 := by
  induction p using List.reverseRecOn generalizing s with
  | nil =>
    cases hp
    rfl
  | append_singleton p n ih =>
    obtain ⟨⟨e, u⟩, h1, h2⟩ := resolve_concat_eq_some.1 hp
    obtain rfl : u = 0 := ih h1
    rcases enter_cases h2 with ⟨-, hu⟩ | ⟨more, hmem, -, -⟩
    · exact hu
    · exact absurd hmem (h e (below_iff.2 ⟨p, fun _ _ => trivial, h1⟩) n more _)

theorem NoLinks.not_cycle (h : NoLinks fs d) : ¬ Cycle fs max visible d := by
  rintro ⟨p, q, e, u, v, -, hne, hp, hq⟩
  have hpq : FileSystem.resolve fs max (d, 0) (p ++ q) = some (e, v) := by
    rw [resolve_append, hp]
    exact hq
  obtain rfl : u = 0 := h.resolve hp
  obtain rfl : v = 0 := h.resolve hpq
  exact hne (List.self_eq_append_right.1 (resolve_unique hp hpq))

/-! ## How long paths get -/

/-- A path of directories goes down, and a link goes up by at most the greatest
height. -/
theorem length_le_of_resolve {H : Nat} (hH : ∀ e, fs.height e ≤ H) {e : Dir} {u : Nat}
    {p : List Name} (h : resolve fs max (d, 0) p = some (e, u)) :
    p.length + fs.height e ≤ fs.height d + u * (H + 1) := by
  induction p using List.reverseRecOn generalizing e u with
  | nil =>
    cases h
    simp
  | append_singleton p n ih =>
    obtain ⟨⟨e1, u1⟩, h1, h2⟩ := resolve_concat_eq_some.1 h
    have hle := ih h1
    rw [List.length_append, List.length_singleton]
    rcases enter_cases h2 with ⟨hmem, hu⟩ | ⟨more, -, hu, -⟩
    · obtain rfl : u = u1 := hu
      have := fs.height_lt hmem
      dsimp only at this
      omega
    · have hlinks : (u1 + 1) * (H + 1) ≤ u * (H + 1) :=
        Nat.mul_le_mul_right _ (by dsimp only at hu; omega)
      have := hH e
      rw [Nat.add_mul, Nat.one_mul] at hlinks
      omega

theorem links_le_of_resolve {m : Nat} {e : Dir} {u : Nat} {p : List Name}
    (h : resolve fs (some m) (d, 0) p = some (e, u)) : u ≤ m := by
  induction p using List.reverseRecOn generalizing e u with
  | nil =>
    cases h
    exact Nat.zero_le m
  | append_singleton p n ih =>
    obtain ⟨⟨e1, u1⟩, h1, h2⟩ := resolve_concat_eq_some.1 h
    rcases enter_cases h2 with ⟨-, hu⟩ | ⟨more, -, -, hw⟩
    · obtain rfl : u = u1 := hu
      exact ih h1
    · exact hw

/-- Without a limit the links before do not matter. -/
theorem resolve_none_links {s s' : Dir × Nat} {p : List Name}
    (h : resolve fs none s p = some s') (u : Nat) :
    ∃ v, resolve fs none (s.1, u) p = some (s'.1, v) := by
  induction p generalizing s u with
  | nil =>
    cases h
    exact ⟨u, rfl⟩
  | cons n p ih =>
    obtain ⟨s1, h1, h2⟩ := Option.bind_eq_some_iff.1 h
    have henter : ∃ w, enter fs none (s.1, u) n = some (s1.1, w) := by
      rcases enter_cases h1 with ⟨hmem, -⟩ | ⟨more, hmem, -, -⟩
      · exact ⟨u, enter_directory hmem u⟩
      · exact ⟨u + more + 1, by simp [enter, Files.lookup_eq_some.2 hmem, Within]⟩
    obtain ⟨w, hw⟩ := henter
    obtain ⟨v, hv⟩ := ih h2 w
    exact ⟨v, Option.bind_eq_some_iff.2 ⟨_, hw, hv⟩⟩

theorem resolve_none_repeat {e : Dir} {u v : Nat} {q : List Name}
    (h : resolve fs none (e, u) q = some (e, v)) (k w : Nat) :
    (resolve fs none (e, w) (List.replicate k q).flatten).isSome := by
  induction k generalizing w with
  | zero => rfl
  | succ k ih =>
    obtain ⟨x, hx⟩ := resolve_none_links h w
    rw [List.replicate_succ, List.flatten_cons, resolve_append, hx]
    exact ih x

/-- A path as long as there are directories comes to one of them twice. -/
theorem exists_cycle [Fintype Dir] {p : List Name} (hp : DirPath fs max visible d p)
    (hlen : Fintype.card Dir ≤ p.length) : Cycle fs max visible d := by
  have hprefix (i : Nat) : ∃ s, resolve fs max (d, 0) (p.take i) = some s := by
    have hsome := hp.2
    rw [← List.take_append_drop i p, resolve_append] at hsome
    obtain ⟨s', hs'⟩ := Option.isSome_iff_exists.1 hsome
    obtain ⟨s, hs, -⟩ := Option.bind_eq_some_iff.1 hs'
    exact ⟨s, hs⟩
  choose s hs using hprefix
  obtain ⟨i, j, hne, hdir⟩ := Fintype.exists_ne_map_eq_of_card_lt
    (fun i : Fin (p.length + 1) => (s i).1) (by rw [Fintype.card_fin]; omega)
  wlog hij : i < j generalizing i j with hwlog
  · exact hwlog j i hne.symm hdir.symm (by omega)
  have hsplit : p.take j = p.take i ++ (p.drop i).take (j - i) := by
    rw [← List.take_add, Nat.add_sub_cancel' (Nat.le_of_lt hij)]
  have hq := hs j
  rw [hsplit, resolve_append, hs i] at hq
  refine ⟨p.take i, (p.drop i).take (j - i), (s i).1, (s i).2, (s j).2, ?_, ?_, hs i, ?_⟩
  · intro n hn
    rw [← hsplit] at hn
    exact hp.1 n (List.mem_of_mem_take hn)
  · intro hnil
    have := congrArg List.length hnil
    simp at this
    omega
  · exact hq.trans (congrArg some (Prod.ext hdir.symm rfl))

/-- **Paths are bounded if links are, or if none leads round in a cycle.** -/
theorem bounded_iff : (∃ N, ∀ p, DirPath fs max visible d p → p.length < N) ↔
    (max = none → ¬ Cycle fs max visible d) := by
  constructor
  · rintro ⟨N, hN⟩ rfl ⟨p, q, e, u, v, hvis, hne, hp, hq⟩
    have hlong := hN (p ++ (List.replicate N q).flatten) ⟨?_, ?_⟩
    · have hq1 : 1 ≤ q.length := List.length_pos_iff.2 hne
      have := Nat.mul_le_mul_left N hq1
      simp at hlong
      omega
    · intro n hn
      apply hvis
      simp only [List.mem_append, List.mem_flatten, List.mem_replicate] at hn ⊢
      rcases hn with hn | ⟨l, ⟨-, rfl⟩, hn⟩
      · exact .inl hn
      · exact .inr hn
    · rw [resolve_append, hp]
      exact resolve_none_repeat hq N u
  · intro hcycle
    have := fs.finite
    have := Fintype.ofFinite Dir
    cases max with
    | none =>
      refine ⟨Fintype.card Dir, fun p hp => ?_⟩
      by_contra hlen
      exact hcycle rfl (exists_cycle hp (Nat.not_lt.1 hlen))
    | some m =>
      obtain ⟨H, hH⟩ : ∃ H, ∀ e, fs.height e ≤ H :=
        ⟨Finset.univ.sup fs.height, fun e => Finset.le_sup (Finset.mem_univ e)⟩
      refine ⟨H + m * (H + 1) + 1, fun p hp => ?_⟩
      obtain ⟨⟨e, u⟩, he⟩ := Option.isSome_iff_exists.1 hp.2
      have hle := length_le_of_resolve hH he
      have := Nat.mul_le_mul_right (H + 1) (links_le_of_resolve he)
      have := hH d
      omega

end

end EmacsConfig.FileSystem
