import EmacsConfig.Lib.BoundedRing
import EmacsConfig.Lib.Runs

/-!
# `semantic-ia-fast-jump-back`

A fast jump pushes a bookmark for point on the MRU ring of
`semantic-mru-bookmark.el`; a jump back visits the newest bookmark and removes
it. The ring is not a stack: a push removes the bookmarks of similar tags, and
only `ringSize` bookmarks fit. The jumps back retrace the jumps exactly when
neither happens to a bookmark of the run (`fastJumpBacks_retrace`).
-/

namespace EmacsConfig.FastJump

open EmacsConfig.Runs

structure Position where
  buffer : Nat
  point : Int
  deriving DecidableEq, Repr

/-- What the parser and the tags say about the text, which the commands do not
change: the tag found near a position, and whether two tags are of one mode and
`semantic-tag-similar-p`. -/
structure Tags (Tag : Type*) where
  name : Tag → String
  buffer : Tag → Nat
  start : Tag → Int
  similar : Tag → Tag → Bool
  /-- `semantic-mrub-find-nearby-tag` -/
  findNearby : Position → Option Tag
  findNearby_buffer : ∀ p t, findNearby p = some t → buffer t = p.buffer

/-- A `semantic-bookmark`, with the slots the commands read. -/
structure Bookmark (Tag : Type*) where
  objectName : String
  tag : Tag
  offset : Int
  deriving DecidableEq, Repr

/-- `(make-ring 20)` -/
def ringSize : Nat := 20

abbrev BookmarkRing (Tag : Type*) := BoundedRing (Bookmark Tag) ringSize

variable {Tag : Type*} (T : Tags Tag)

/-- A new bookmark after `semantic-mrub-update`. -/
def Tags.bookmark (p : Position) (tag : Tag) : Bookmark Tag :=
  ⟨T.name tag, tag, p.point - T.start tag⟩

/-- `semantic-mrub-push` -/
def mrubPush (r : BookmarkRing Tag) (p : Position) : BookmarkRing Tag :=
  match T.findNearby p with
  | none => r
  | some tag => (r.removeLoop (fun b => T.similar b.tag tag) 0 ringSize).insert (T.bookmark p tag)

/-- `semantic-mrub-visit`: where point goes. -/
def mrubVisit (b : Bookmark Tag) : Position := ⟨T.buffer b.tag, T.start b.tag + b.offset⟩

/-- `semantic-mrub-ring-to-assoc-list` -/
def mrubRingToAssocList (r : BookmarkRing Tag) : List (String × Bookmark Tag) :=
  (List.range r.length).filterMap fun idx => (r.ref idx).map fun b => (b.objectName, b)

structure State (Tag : Type*) where
  point : Position
  ring : BookmarkRing Tag

/-- `semantic-ia-fast-jump` to `dest`: the advised `push-mark`, then the jump. -/
def fastJump (s : State Tag) (dest : Position) : State Tag := ⟨dest, mrubPush T s.ring s.point⟩

/-- `semantic-ia-fast-jump-back` -/
def fastJumpBack (s : State Tag) : Except String (State Tag) :=
  if s.ring.isEmpty then .error "Semantic Bookmark ring is currently empty"
  else
    match (mrubRingToAssocList s.ring).head? with
    | none => .error "No applicable method: semantic-mrub-visit, nil"
    | some (_, first) => .ok ⟨mrubVisit T first, s.ring.remove 0⟩

/-- `n` jumps back: the positions point goes to. -/
def fastJumpBacks : Nat → State Tag → Except String (List Position)
  | 0, _ => .ok []
  | n + 1, s =>
    match fastJumpBack T s with
    | .error e => .error e
    | .ok s => (fastJumpBacks n s).map (s.point :: ·)

/-- The positions the jumps to `dests` are started from. -/
def starts : Position → List Position → List Position
  | _, [] => []
  | p, d :: dests => p :: starts d dests

/-- The jumps back bring point to the starts of the jumps, last one first. -/
def Retraces (s : State Tag) (dests : List Position) : Prop :=
  fastJumpBacks T dests.length (run (fastJump T) s dests) = .ok (starts s.point dests).reverse

/-- No two of the positions have similar tags. -/
def Dissimilar (xs : List Position) : Prop :=
  xs.Pairwise fun x y => ∀ t u, T.findNearby x = some t → T.findNearby y = some u →
    T.similar t u = false

@[simp] theorem starts_length (p : Position) (dests : List Position) :
    (starts p dests).length = dests.length := by
  induction dests generalizing p with
  | nil => rfl
  | cons d dests ih => simp [starts, ih]

/-! ## What the commands do to the ring -/

section
variable {T}

theorem mrubVisit_bookmark {p : Position} {t : Tag} (h : T.findNearby p = some t) :
    mrubVisit T (T.bookmark p t) = p := by
  have hp : T.start t + (p.point - T.start t) = p.point := by omega
  rw [mrubVisit, Tags.bookmark, T.findNearby_buffer p t h, hp]

theorem fastJumpBack_cons {s : State Tag} {b : Bookmark Tag} {rest : List (Bookmark Tag)}
    (h : s.ring.items = b :: rest) :
    ∃ s', fastJumpBack T s = .ok s' ∧ s'.point = mrubVisit T b ∧ s'.ring.items = rest := by
  have hlen : s.ring.length = rest.length + 1 := by simp [BoundedRing.length, h]
  have href : s.ring.ref 0 = some b := by
    rw [BoundedRing.ref_of_lt (by omega), h, List.getElem?_cons_zero]
  have hfirst : (mrubRingToAssocList s.ring).head? = some (b.objectName, b) := by
    rw [mrubRingToAssocList, hlen, List.range_succ_eq_map, List.filterMap_cons, href]
    rfl
  refine ⟨⟨mrubVisit T b, s.ring.remove 0⟩, ?_, rfl, ?_⟩
  · simp [fastJumpBack, BoundedRing.isEmpty, h, hfirst]
  · rw [BoundedRing.remove_items_of_lt (by omega), h, List.eraseIdx_cons_zero]

/-- `n` jumps back visit the `n` newest bookmarks; they fail when the ring runs
empty. -/
theorem fastJumpBacks_eq (n : Nat) (s : State Tag) :
    fastJumpBacks T n s =
      if n ≤ s.ring.items.length then .ok ((s.ring.items.take n).map (mrubVisit T))
      else .error "Semantic Bookmark ring is currently empty" := by
  induction n generalizing s with
  | zero => simp [fastJumpBacks]
  | succ n ih =>
    cases hr : s.ring.items with
    | nil => simp [fastJumpBacks, fastJumpBack, BoundedRing.isEmpty, hr]
    | cons b rest =>
      obtain ⟨s', hback, hpoint, hring⟩ := fastJumpBack_cons (T := T) hr
      rw [fastJumpBacks, hback]
      show (fastJumpBacks T n s').map (s'.point :: ·) = _
      rw [ih, hring, hpoint]
      by_cases hn : n ≤ rest.length
      · simp [hn, Except.map]
      · simp [hn, Except.map]

theorem run_fastJump_ring (s : State Tag) (dests : List Position) :
    (run (fastJump T) s dests).ring = run (mrubPush T) s.ring (starts s.point dests) := by
  induction dests generalizing s with
  | nil => rfl
  | cons d dests ih => exact ih (fastJump T s d)

/-- The jumps back retrace the jumps when the newest bookmarks are those of the
starts. -/
theorem retraces_iff (s : State Tag) (dests : List Position) :
    Retraces T s dests ↔
      dests.length ≤ (run (mrubPush T) s.ring (starts s.point dests)).items.length ∧
      ((run (mrubPush T) s.ring (starts s.point dests)).items.take dests.length).map (mrubVisit T) =
        (starts s.point dests).reverse := by
  rw [Retraces, fastJumpBacks_eq, run_fastJump_ring]
  split
  · next h => simp [h]
  · next h => simp [h]

/-! ## Dissimilar tags -/

theorem mrubPush_items {r : BookmarkRing Tag} {p : Position} {t : Tag}
    (hp : T.findNearby p = some t) :
    (mrubPush T r p).items =
      (T.bookmark p t ::
        (r.removeLoop (fun b => T.similar b.tag t) 0 ringSize).items).take ringSize := by
  rw [mrubPush, hp]
  rfl

/-- While the tags are dissimilar and the ring has room, the bookmarks of the
run are the newest ones of the ring. -/
theorem pushes_front (r : BookmarkRing Tag) {xs : List Position}
    (hin : ∀ x ∈ xs, (T.findNearby x).isSome) (hlen : xs.length ≤ ringSize)
    (hdis : Dissimilar T xs) :
    ∃ bs rest, (run (mrubPush T) r xs).items = bs ++ rest ∧ bs.map (mrubVisit T) = xs.reverse ∧
      ∀ b ∈ bs, ∃ x ∈ xs, T.findNearby x = some b.tag := by
  induction xs using List.reverseRecOn with
  | nil => exact ⟨[], _, rfl, rfl, nofun⟩
  | append_singleton xs x ih =>
    rw [Dissimilar, List.pairwise_append] at hdis
    obtain ⟨hdis, -, hlast⟩ := hdis
    rw [List.length_append, List.length_singleton] at hlen
    obtain ⟨bs, rest, hitems, hvisit, htags⟩ :=
      ih (fun y hy => hin y (List.mem_append_left _ hy)) (by omega) hdis
    obtain ⟨t, ht⟩ := Option.isSome_iff_exists.1 (hin x (by simp))
    -- none of the run's bookmarks is similar to the new one, so the loop keeps them
    have hkeep : ∀ b ∈ bs, T.similar b.tag t = false := fun b hb => by
      obtain ⟨y, hy, hyt⟩ := htags b hb
      exact hlast y hy x (List.mem_singleton_self x) b.tag t hyt ht
    obtain ⟨rest', hrest⟩ := BoundedRing.removeLoop_front hkeep ringSize 0 hitems
    have hbs : bs.length = xs.length := by simpa using congrArg List.length hvisit
    refine ⟨T.bookmark x t :: bs, rest'.take (ringSize - (bs.length + 1)), ?_, ?_, ?_⟩
    · rw [run_concat, mrubPush_items ht, hrest, ← List.cons_append, List.take_append,
        List.take_of_length_le (by simp; omega), List.length_cons]
    · rw [List.map_cons, mrubVisit_bookmark ht, hvisit, List.reverse_append]
      rfl
    · intro b hb
      rcases List.mem_cons.1 hb with rfl | hb
      · exact ⟨x, by simp, ht⟩
      · obtain ⟨y, hy, hyt⟩ := htags b hb
        exact ⟨y, List.mem_append_left _ hy, hyt⟩

/-- Dissimilar starts, not more than fit in the ring, are retraced. -/
theorem retraces_of_dissimilar (s : State Tag) (dests : List Position)
    (hin : ∀ x ∈ starts s.point dests, (T.findNearby x).isSome) (hlen : dests.length ≤ ringSize)
    (hdis : Dissimilar T (starts s.point dests)) : Retraces T s dests := by
  obtain ⟨bs, rest, hitems, hvisit, -⟩ := pushes_front s.ring hin (by simpa using hlen) hdis
  have hbs : bs.length = dests.length := by simpa using congrArg List.length hvisit
  rw [retraces_iff, hitems]
  refine ⟨by simp; omega, ?_⟩
  rw [← hbs, List.take_left', hvisit]
  rfl

/-! ## Similar tags -/

/-- Similarity as an equivalence: what the removal on push relies on to keep one
bookmark for each class. -/
structure SimilarEquiv (T : Tags Tag) : Prop where
  symm : ∀ t u, T.similar t u = true → T.similar u t = true
  trans : ∀ t u v, T.similar t u = true → T.similar u v = true → T.similar t v = true

/-- The bookmarks were made in this text, and no two of them have similar tags. -/
structure Coherent (T : Tags Tag) (r : BookmarkRing Tag) : Prop where
  tag : ∀ b ∈ r.items, T.findNearby (mrubVisit T b) = some b.tag
  distinct : r.items.Pairwise fun b c => T.similar b.tag c.tag = false

theorem Coherent.push (he : SimilarEquiv T) {r : BookmarkRing Tag} (h : Coherent T r)
    (p : Position) : Coherent T (mrubPush T r p) := by
  cases hp : T.findNearby p with
  | none => simpa [mrubPush, hp] using h
  | some t =>
    have hone : r.items.Pairwise fun b c =>
        ¬ (T.similar b.tag t = true ∧ T.similar c.tag t = true) := by
      refine h.distinct.imp fun {b c} hbc hboth => ?_
      rw [he.trans _ _ _ hboth.1 (he.symm _ _ hboth.2)] at hbc
      cases hbc
    have hitems := mrubPush_items (r := r) hp
    rw [BoundedRing.removeLoop_filter hone] at hitems
    have hsub := List.take_sublist ringSize
      (T.bookmark p t :: r.items.filter fun b => !T.similar b.tag t)
    have hdistinct : (T.bookmark p t :: r.items.filter fun b => !T.similar b.tag t).Pairwise
        fun b c => T.similar b.tag c.tag = false := by
      refine List.pairwise_cons.2 ⟨fun b hb => ?_, h.distinct.sublist List.filter_sublist⟩
      have hb' : T.similar b.tag t = false := by simpa using (List.mem_filter.1 hb).2
      show T.similar t b.tag = false
      by_contra hs
      rw [he.symm _ _ (by simpa using hs)] at hb'
      cases hb'
    refine ⟨fun b hb => ?_, hitems ▸ hdistinct.sublist hsub⟩
    rw [hitems] at hb
    rcases List.mem_cons.1 (hsub.subset hb) with rfl | hb
    · rw [mrubVisit_bookmark hp]; exact hp
    · exact h.tag b (List.mem_filter.1 hb).1

/-- In a ring made in this text, retracing needs dissimilar starts and room. -/
theorem dissimilar_of_retraces (he : SimilarEquiv T) {s : State Tag} (h : Coherent T s.ring)
    {dests : List Position} (hr : Retraces T s dests) :
    dests.length ≤ ringSize ∧ Dissimilar T (starts s.point dests) := by
  obtain ⟨hlen, hvisit⟩ := (retraces_iff s dests).1 hr
  have hco : Coherent T (run (mrubPush T) s.ring (starts s.point dests)) :=
    run_invariant h (fun _ p hr => hr.push he p) _
  generalize run (mrubPush T) s.ring (starts s.point dests) = r at *
  refine ⟨Nat.le_trans hlen r.length_le, ?_⟩
  have hpw : (r.items.take dests.length).Pairwise fun b c => ∀ t u,
      T.findNearby (mrubVisit T c) = some t → T.findNearby (mrubVisit T b) = some u →
        T.similar t u = false := by
    refine (hco.distinct.sublist (List.take_sublist ..)).imp_of_mem
      fun {b c} hb hc hbc t u ht hu => ?_
    rw [hco.tag c (List.mem_of_mem_take hc), Option.some.injEq] at ht
    rw [hco.tag b (List.mem_of_mem_take hb), Option.some.injEq] at hu
    subst ht hu
    by_contra hs
    rw [he.symm _ _ (by simpa using hs)] at hbc
    cases hbc
  rw [Dissimilar, ← List.pairwise_reverse, ← hvisit, List.pairwise_map]
  exact hpw

end

/-- **The jumps back retrace the jumps** whenever the starts have dissimilar
tags and fit in the ring, whatever the ring held before; and only then, if the
ring held bookmarks of this text with dissimilar tags. -/
theorem fastJumpBacks_retrace (s : State Tag) (dests : List Position)
    (hin : ∀ x ∈ starts s.point dests, (T.findNearby x).isSome) :
    (dests.length ≤ ringSize ∧ Dissimilar T (starts s.point dests) → Retraces T s dests) ∧
    (SimilarEquiv T → Coherent T s.ring → Retraces T s dests →
      dests.length ≤ ringSize ∧ Dissimilar T (starts s.point dests)) :=
  ⟨fun ⟨hlen, hdis⟩ => retraces_of_dissimilar s dests hin hlen hdis,
    fun he h hr => dissimilar_of_retraces he h hr⟩

/-- One buffer whose tags are the blocks of ten positions. -/
def blocks : Tags Int where
  name t := toString t
  buffer _ := 0
  start t := 10 * t
  similar t u := t == u
  findNearby p := if p.buffer = 0 then some (p.point / 10) else none
  findNearby_buffer p t h := by
    split at h
    · next hb => exact hb.symm
    · cases h

def inBlocks (n : Int) : Position := ⟨0, n⟩

theorem similarEquiv_blocks : SimilarEquiv blocks where
  symm _ _ h := beq_iff_eq.2 (beq_iff_eq.1 h).symm
  trans _ _ _ h h' := beq_iff_eq.2 ((beq_iff_eq.1 h).trans (beq_iff_eq.1 h'))

/-- From 1 to 52, from 52 to 87, and back, with a bookmark at 35 in the ring. -/
theorem fastJumpBacks_retrace_two :
    let s : State Int := ⟨inBlocks 1, mrubPush blocks BoundedRing.empty (inBlocks 35)⟩
    let dests := [inBlocks 52, inBlocks 87]
    Retraces blocks s dests ∧ dests.length ≤ ringSize ∧ Dissimilar blocks (starts s.point dests) := by
  intro s dests
  have hretrace := fastJumpBacks_retrace blocks s dests (by decide)
  have hdissimilar : Dissimilar blocks (starts s.point dests) := by
    refine List.pairwise_cons.2 ⟨fun x hx t u ht hu => ?_, List.pairwise_singleton ..⟩
    obtain rfl := List.mem_singleton.1 hx
    cases ht
    cases hu
    decide
  have hempty : Coherent blocks BoundedRing.empty := ⟨nofun, .nil⟩
  have hring : Coherent blocks s.ring := hempty.push similarEquiv_blocks (inBlocks 35)
  have hback := hretrace.1 ⟨by decide, hdissimilar⟩
  exact ⟨hback, hretrace.2 similarEquiv_blocks hring hback⟩

/-- Two jumps from one tag: the second push removes the first bookmark, and the
second jump back finds the ring empty. -/
theorem not_retraces_same_tag :
    ¬ ∀ (T : Tags Int) (s : State Int) (dests : List Position),
      (∀ x ∈ starts s.point dests, (T.findNearby x).isSome) → Retraces T s dests := by
  intro h
  have h0 := h blocks ⟨inBlocks 1, BoundedRing.empty⟩ [inBlocks 2, inBlocks 57] (by decide)
  rw [retraces_iff] at h0
  revert h0
  decide

end EmacsConfig.FastJump
