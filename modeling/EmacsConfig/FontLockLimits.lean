import EmacsConfig.FontLockIf0

/-!
# Fontifying up to a limit

What `my-c-mode-font-lock-if0` passes to `c-put-font-lock-face` on any text,
nested or not, is read off from the directives before the limit
(`calls_fontLockIf0`): the first `#if 0`, the `#else` or `#endif` that ends it,
and how many blocks are open at the limit. From this follow when the calls are
in range and in order (`callsInOrder_iff`) and when two limits paint the same
characters (`paintsSame_iff`).
-/

namespace EmacsConfig.FontLockIf0

open EmacsConfig.Lines

/-! ## The open blocks -/

/-- What a directive does to the depth. -/
def Kind.shift : Kind → Int
  | .if => 1
  | .ifZero _ => 1
  | .else => 0
  | .endif => -1

def Kind.isBranch : Kind → Bool
  | .else => true
  | .endif => true
  | _ => false

/-- More `#if` than `#endif`. -/
def balance : List Directive → Int
  | [] => 0
  | d :: ds => d.kind.shift + balance ds

/-- Where the first `#if 0` ends, and the directives after it. -/
def opening : List Directive → Option (Nat × List Directive)
  | [] => none
  | d :: ds =>
    match d.kind with
    | .ifZero start => some (start, ds)
    | _ => opening ds

/-- `n` levels inside a block: the first `#else` or `#endif` of that block, and
the directives after it. -/
def closing : Int → List Directive → Option (Directive × List Directive)
  | _, [] => none
  | n, d :: ds => if d.kind.isBranch ∧ n = 0 then some (d, ds) else closing (n + d.kind.shift) ds

/-- The calls that the directives before `limit` lead to. -/
def callsOf (limit : Nat) (ds : List Directive) : List (Nat × Nat) :=
  match opening ds with
  | none => []
  | some (start, rest) =>
    match closing 0 rest with
    | none => if 0 < balance ds then [(start, limit)] else []
    | some (d, post) =>
      (start, d.beginning) ::
        match closing d.kind.shift post with
        | some (d', _) => [(0, d'.beginning)]
        | none => if 0 < balance ds then [(0, limit)] else []

theorem balance_append (ds es : List Directive) : balance (ds ++ es) = balance ds + balance es := by
  induction ds with
  | nil => simp [balance]
  | cons d ds ih =>
    rw [List.cons_append, balance, balance, ih]
    omega

theorem opening_eq_some {ds rest : List Directive} {start : Nat}
    (h : opening ds = some (start, rest)) :
    ∃ pre d, ds = pre ++ d :: rest ∧ d.kind = .ifZero start ∧ opening pre = none := by
  induction ds with
  | nil => cases h
  | cons d ds ih =>
    unfold opening at h
    split at h
    · next s hd =>
      cases h
      exact ⟨[], d, rfl, hd, rfl⟩
    · next hd =>
      obtain ⟨pre, d', rfl, hkind, hpre⟩ := ih h
      refine ⟨d :: pre, d', rfl, hkind, ?_⟩
      unfold opening
      split
      · next s hs => exact absurd hs (hd s)
      · exact hpre

theorem opening_append (ds es : List Directive) :
    opening (ds ++ es) =
      match opening ds with
      | some (start, rest) => some (start, rest ++ es)
      | none => opening es := by
  induction ds with
  | nil => rfl
  | cons d ds ih =>
    rw [List.cons_append, opening, opening]
    split
    · rfl
    · exact ih

theorem closing_eq_some {n : Int} {ds post : List Directive} {d : Directive}
    (h : closing n ds = some (d, post)) :
    ∃ pre, ds = pre ++ d :: post ∧ n + balance pre = 0 ∧ closing n pre = none ∧
      d.kind.isBranch := by
  induction ds generalizing n with
  | nil => cases h
  | cons d' ds ih =>
    unfold closing at h
    split at h
    · next hd =>
      cases h
      exact ⟨[], rfl, by rw [balance, hd.2, Int.add_zero], rfl, hd.1⟩
    · next hd =>
      obtain ⟨pre, rfl, hbalance, hpre, hkind⟩ := ih h
      refine ⟨d' :: pre, rfl, by rw [balance]; omega, ?_, hkind⟩
      rw [closing, if_neg hd, hpre]

theorem closing_append (n : Int) (ds es : List Directive) :
    closing n (ds ++ es) =
      match closing n ds with
      | some (d, post) => some (d, post ++ es)
      | none => closing (n + balance ds) es := by
  induction ds generalizing n with
  | nil => simp [closing, balance]
  | cons d ds ih =>
    rw [List.cons_append, closing, closing]
    split
    · rfl
    · rw [ih, balance, Int.add_assoc]

/-! ## The loop on any directives -/

section
variable (size : Nat) (st : State)

/-- Before the first `#if 0`. -/
theorem runDirectives_before {ds : List Directive} (hstart : st.start = none)
    (hds : opening ds = none) :
    runDirectives size (.ok st) ds = .ok (st.deepen (balance ds)) := by
  induction ds generalizing st with
  | nil => simp [runDirectives, balance]
  | cons d ds ih =>
    obtain ⟨kind, b, e⟩ := d
    unfold opening at hds
    have hstep : stepDirective size st ⟨kind, b, e⟩ = .ok (st.deepen kind.shift) := by
      cases kind with
      | «if» => exact step_if st b e
      | ifZero s => cases hds
      | «else» =>
        rw [Kind.shift, State.deepen_zero]
        exact (step_branch (.inl hstart) b e).1
      | endif => exact (step_branch (.inl hstart) b e).2
    have hrest : opening ds = none := by
      cases kind with
      | ifZero s => cases hds
      | _ => exact hds
    have hrun := ih (st.deepen kind.shift) hstart hrest
    rw [runDirectives_cons hstep, hrun, State.deepen_deepen, balance]

/-- With a region open or painted, up to the directive that ends its block. -/
theorem runDirectives_within {ds : List Directive} {s : Nat} {n : Int}
    (hstart : st.start = some s) (hdepth : st.depth = st.startDepth + n)
    (hds : closing n ds = none) :
    runDirectives size (.ok st) ds = .ok (st.deepen (balance ds)) := by
  induction ds generalizing st n with
  | nil => simp [runDirectives, balance]
  | cons d ds ih =>
    obtain ⟨kind, b, e⟩ := d
    unfold closing at hds
    split at hds
    · cases hds
    · next hd =>
      have hstep : stepDirective size st ⟨kind, b, e⟩ = .ok (st.deepen kind.shift) := by
        cases kind with
        | «if» => exact step_if st b e
        | ifZero s => exact step_ifZero hstart s b e
        | «else» =>
          rw [Kind.shift, State.deepen_zero]
          exact (step_branch (.inr (by simp [Kind.isBranch] at hd; omega)) b e).1
        | endif => exact (step_branch (.inr (by simp [Kind.isBranch] at hd; omega)) b e).2
      have hrun := ih (st.deepen kind.shift) hstart
        (show st.depth + kind.shift = st.startDepth + (n + kind.shift) by omega) hds
      rw [runDirectives_cons hstep, hrun, State.deepen_deepen, balance]

/-- At the directive that ends the block. -/
theorem step_closing {s : Nat} {d : Directive} (hstart : st.start = some s)
    (hdepth : st.depth = st.startDepth) (hd : d.kind.isBranch) :
    stepDirective size st d =
      if InRange size (s, d.beginning) then
        .ok (State.deepen { st with start := some 0, calls := st.calls ++ [(s, d.beginning)] }
          d.kind.shift)
      else .error { st with calls := st.calls ++ [(s, d.beginning)] } := by
  obtain ⟨kind, b, e⟩ := d
  have hclose : closeRegion size st b =
      if InRange size (s, b) then
        .ok { st with start := some 0, calls := st.calls ++ [(s, b)] }
      else .error { st with calls := st.calls ++ [(s, b)] } := by
    unfold closeRegion cPutFontLockFace
    rw [hstart]
    dsimp only
    rw [if_pos hdepth]
    split <;> rfl
  cases kind with
  | «if» => cases hd
  | ifZero start => cases hd
  | «else» =>
    show closeRegion size st b = _
    rw [hclose]
    simp [Kind.shift]
  | endif =>
    show (closeRegion size st b).map _ = _
    rw [hclose]
    dsimp only
    split <;> rfl

/-- The final branch. -/
def paintRest (size limit : Nat) : Except State State → Except State State
  | .error st => .error st
  | .ok st =>
    match st.start with
    | some start => if 0 < st.depth then cPutFontLockFace size start limit st else .ok st
    | none => .ok st

/-- It has made the calls `calls` and signalled at the first one that begins at 0. -/
def Made (calls : List (Nat × Nat)) (res : Except State State) : Prop :=
  (stateOf res).calls = calls ∧ (res.isOk ↔ ∀ r ∈ calls, 1 ≤ r.1)

theorem made_paintRest {limit s : Nat} (hstart : st.start = some s)
    (hcalls : ∀ r ∈ st.calls, 1 ≤ r.1) (hrange : InRange size (s, limit) ↔ 1 ≤ s) :
    Made (st.calls ++ if 0 < st.depth then [(s, limit)] else [])
      (paintRest size limit (.ok st)) := by
  unfold paintRest
  dsimp only
  rw [hstart]
  dsimp only
  by_cases hdepth : 0 < st.depth
  · rw [if_pos hdepth, if_pos hdepth]
    unfold cPutFontLockFace
    dsimp only
    split
    · next h =>
      refine ⟨rfl, iff_of_true rfl ?_⟩
      rw [List.forall_mem_append, List.forall_mem_singleton]
      exact ⟨hcalls, hrange.1 h⟩
    · next h =>
      refine ⟨rfl, iff_of_false Bool.false_ne_true fun hall => ?_⟩
      rw [List.forall_mem_append, List.forall_mem_singleton] at hall
      exact h (hrange.2 hall.2)
  · rw [if_neg hdepth, if_neg hdepth, List.append_nil]
    exact ⟨rfl, iff_of_true rfl hcalls⟩

/-- After the first region has been painted. -/
theorem made_spent {limit : Nat} {d : Directive} {post : List Directive}
    (hlimit : 1 ≤ limit) (hpost : ∀ d' ∈ post, 1 ≤ d'.beginning)
    (hstart : st.start = some 0) (hdepth : st.depth = st.startDepth + d.kind.shift)
    (hcalls : ∀ r ∈ st.calls, 1 ≤ r.1) :
    Made (st.calls ++
        match closing d.kind.shift post with
        | some (d', _) => [(0, d'.beginning)]
        | none => if 0 < st.depth + balance post then [(0, limit)] else [])
      (paintRest size limit (runDirectives size (.ok st) post)) := by
  have hzero (b : Nat) (hb : 1 ≤ b) : ¬ InRange size (0, b) := by
    simp only [InRange]
    omega
  cases h : closing d.kind.shift post with
  | none =>
    rw [runDirectives_within size st hstart hdepth h]
    refine made_paintRest size (st.deepen (balance post)) hstart hcalls ?_
    exact iff_of_false (hzero limit hlimit) (by omega)
  | some found =>
    obtain ⟨d', rest⟩ := found
    obtain ⟨pre, rfl, hbalance, hpre, hkind⟩ := closing_eq_some h
    have hrun := runDirectives_within size st hstart hdepth hpre
    have hd' := hpost d' (List.mem_append_right _ List.mem_cons_self)
    have hstep := step_closing size (st.deepen (balance pre)) (d := d') hstart
      (by simp; omega) hkind
    rw [if_neg (hzero _ hd')] at hstep
    rw [runDirectives_append, hrun]
    show Made _ (paintRest size limit (runDirectives size (stepDirective size _ d') rest))
    rw [hstep, runDirectives_error]
    refine ⟨rfl, iff_of_false Bool.false_ne_true fun hall => ?_⟩
    have := hall (0, d'.beginning) (by simp)
    omega

/-- After the first `#if 0`, which ends at `s`. -/
theorem made_opened {limit s : Nat} {rest : List Directive} (hstart : st.start = some s)
    (hdepth : st.depth = st.startDepth) (hcalls : st.calls = [])
    (hs : 1 ≤ s ∧ s ≤ limit) (hlimit : limit ≤ size + 1)
    (hrest : ∀ d ∈ rest, s ≤ d.beginning ∧ d.beginning ≤ limit) :
    Made (match closing 0 rest with
        | none => if 0 < st.depth + balance rest then [(s, limit)] else []
        | some (d, post) =>
          (s, d.beginning) ::
            match closing d.kind.shift post with
            | some (d', _) => [(0, d'.beginning)]
            | none => if 0 < st.depth + balance rest then [(0, limit)] else [])
      (paintRest size limit (runDirectives size (.ok st) rest)) := by
  have hdepth0 : st.depth = st.startDepth + 0 := by omega
  cases hclose : closing 0 rest with
  | none =>
    have hnone : ∀ r ∈ st.calls, 1 ≤ r.1 := hcalls ▸ List.forall_mem_nil _
    rw [runDirectives_within size st hstart hdepth0 hclose]
    have hrange : InRange size (s, limit) := by
      simp only [InRange]
      omega
    have hmade := made_paintRest size (st.deepen (balance rest)) hstart hnone
      (iff_of_true hrange hs.1)
    rw [show (st.deepen (balance rest)).calls = [] from hcalls, List.nil_append] at hmade
    exact hmade
  | some found =>
    obtain ⟨d, post⟩ := found
    obtain ⟨mid, rfl, hbalance, hmid, hkind⟩ := closing_eq_some hclose
    have hd := hrest d (List.mem_append_right _ List.mem_cons_self)
    have hrange : InRange size (s, d.beginning) := by
      simp only [InRange]
      omega
    have hstep := step_closing size (st.deepen (balance mid)) (d := d) hstart
      (by simp; omega) hkind
    rw [if_pos hrange, show (st.deepen (balance mid)).calls = [] from hcalls,
      List.nil_append] at hstep
    rw [runDirectives_append, runDirectives_within size st hstart hdepth0 hmid,
      runDirectives_cons hstep]
    have hone : ∀ r ∈ [(s, d.beginning)], 1 ≤ r.1 := List.forall_mem_singleton.2 hs.1
    have hpost : ∀ d' ∈ post, 1 ≤ d'.beginning := by
      intro d' hd'
      have := hrest d' (List.mem_append_right _ (List.mem_cons_of_mem _ hd'))
      omega
    have hspent := made_spent size (State.deepen { st.deepen (balance mid) with
        start := some 0, calls := [(s, d.beginning)] } d.kind.shift) (d := d)
      (Nat.le_trans hs.1 hs.2) hpost rfl (by simp; omega) hone
    have hbal : st.depth + balance (mid ++ d :: post) =
        st.depth + balance mid + d.kind.shift + balance post := by
      rw [balance_append, balance]
      omega
    rw [hbal]
    exact hspent

/-- What the loop and the final branch pass on, from directives in order. -/
theorem made_runDirectives {limit : Nat} {ds : List Directive} (hds : InOrder ds)
    (hlimit : 1 ≤ limit ∧ limit ≤ size + 1) (hlast : ∀ d ∈ ds, d.last ≤ limit) :
    Made (callsOf limit ds) (paintRest size limit (runDirectives size (.ok .init) ds)) := by
  unfold callsOf
  cases hopen : opening ds with
  | none =>
    rw [runDirectives_before size _ rfl hopen]
    exact ⟨rfl, iff_of_true rfl fun _ h => by cases h⟩
  | some found =>
    obtain ⟨start, rest⟩ := found
    obtain ⟨pre, d0, rfl, hkind0, hpre⟩ := opening_eq_some hopen
    have hd0 := hds.2 d0 (List.mem_append_right _ List.mem_cons_self)
    have hd0' := hlast d0 (List.mem_append_right _ List.mem_cons_self)
    have hstart : d0.last = start := by simp only [Directive.last, hkind0]
    let st1 : State := ⟨balance pre + 1, some start, balance pre + 1, []⟩
    have hrun : runDirectives size (.ok .init) (pre ++ d0 :: rest) =
        runDirectives size (.ok st1) rest := by
      rw [runDirectives_append, runDirectives_before size _ rfl hpre]
      refine runDirectives_cons ?_ rest
      simp only [stepDirective, hkind0, State.deepen, State.init, st1, Int.zero_add]
    have hbal : balance (pre ++ d0 :: rest) = st1.depth + balance rest := by
      rw [balance_append, balance, hkind0]
      simp only [Kind.shift, st1]
      omega
    have hpair := (List.pairwise_append.1 hds.1).2.1
    rw [hrun, hbal]
    refine made_opened size st1 rfl rfl rfl (by omega) hlimit.2 fun d hd => ?_
    have hbeg := (List.pairwise_cons.1 hpair).1 d hd
    have hmem : d ∈ pre ++ d0 :: rest := List.mem_append_right _ (List.mem_cons_of_mem _ hd)
    have := hlast d hmem
    have := (hds.2 d hmem).2
    omega

end

/-! ## Beginnings of lines as limits -/

/-- Position `limit` is the beginning of a line, or the end of the text after a
last newline. -/
def LineBeginning (text : List Char) (limit : Nat) : Prop :=
  1 ≤ limit ∧ limit ≤ text.length + 1 ∧ (limit = 1 ∨ text[limit - 2]? = some '\n')

instance (text : List Char) (limit : Nat) : Decidable (LineBeginning text limit) :=
  inferInstanceAs (Decidable (_ ∧ _ ∧ _))

def directivesBefore (syn : SyntaxTable) (text : List Char) (limit : Nat) : List Directive :=
  (directives syn text).filter (·.stop ≤ limit)

section
variable (syn : SyntaxTable)

theorem directivesFrom_append (p : Nat) (ls ms : List (List Char)) :
    directivesFrom syn p (ls ++ ms) =
      directivesFrom syn p ls ++ directivesFrom syn (p + (ls.map (·.length + 1)).sum) ms := by
  induction ls generalizing p with
  | nil => simp [directivesFrom]
  | cons l ls ih =>
    rw [List.cons_append, directivesFrom, ih, directivesFrom, List.append_assoc, List.map_cons,
      List.sum_cons]
    congr 3
    omega

theorem length_ser (ls : List (Line '\n')) :
    ((ls.map (·.1)).map (·.length + 1)).sum = (ser ls).length := by
  induction ls with
  | nil => rfl
  | cons l ls ih =>
    rw [List.map_cons, List.map_cons, List.sum_cons, ih, ser]
    simp
    omega

/-- A beginning of a line separates the directives. -/
theorem directives_at {text : List Char} {limit : Nat} (h : LineBeginning text limit) :
    ∃ ds es, directives syn text = ds ++ es ∧ (∀ d ∈ ds, d.last < limit) ∧
      ∀ e ∈ es, limit ≤ e.beginning := by
  obtain ⟨hpos, -, hnl⟩ := h
  rcases Nat.eq_or_lt_of_le hpos with rfl | hpos
  · exact ⟨[], _, rfl, nofun, fun d hd => ((directives_inOrder text).2 d hd).1⟩
  · replace hnl := hnl.resolve_left (by omega)
    obtain ⟨hlt, hget⟩ := List.getElem?_eq_some_iff.1 hnl
    have htext : text.take (limit - 2) ++ '\n' :: text.drop (limit - 1) = text := by
      have hdrop := List.drop_eq_getElem_cons hlt
      rw [hget, show limit - 2 + 1 = limit - 1 by omega] at hdrop
      rw [← hdrop, List.take_append_drop]
    have hlen : (text.take (limit - 2)).length + 2 = limit := by
      rw [List.length_take]
      omega
    have hsplit := join_split '\n' (text.take (limit - 2))
    generalize (split '\n' (text.take (limit - 2))).1 = ls at hsplit
    generalize (split '\n' (text.take (limit - 2))).2 = r at hsplit
    have hser : ser (ls ++ [r]) ++ text.drop (limit - 1) = text := by
      calc ser (ls ++ [r]) ++ text.drop (limit - 1)
        _ = (ser ls ++ r.1) ++ '\n' :: text.drop (limit - 1) := by simp [ser_append, ser]
        _ = text := by rw [hsplit, htext]
    have hsum : 1 + (((ls ++ [r]).map (·.1)).map (·.length + 1)).sum = limit := by
      rw [length_ser, ser_append]
      have := congrArg List.length hsplit
      simp [ser] at this ⊢
      omega
    refine ⟨directivesFrom syn 1 ((ls ++ [r]).map (·.1)), directivesFrom syn limit
      ((split '\n' (text.drop (limit - 1))).1.map (·.1) ++
        [(split '\n' (text.drop (limit - 1))).2.1]), ?_, fun d hd => ?_, fun d hd => ?_⟩
    · conv_lhs => rw [directives, ← hser]
      rw [split_append]
      dsimp only
      rw [List.map_append, List.append_assoc, directivesFrom_append syn, hsum]
    · have := directivesFrom_bounds d hd
      omega
    · exact (directivesFrom_bounds d hd).1

/-- The directives before a beginning of a line, and those up to a later limit. -/
theorem directivesBefore_append {text : List Char} {limit limit' : Nat}
    (h : LineBeginning text limit) (hle : limit ≤ limit') :
    (∀ d ∈ directivesBefore syn text limit, d.last < limit) ∧
      ∃ es, directivesBefore syn text limit' = directivesBefore syn text limit ++ es ∧
        ∀ e ∈ es, limit ≤ e.beginning := by
  obtain ⟨ds, es, heq, hds, hes⟩ := directives_at syn h
  have hstop : ∀ d ∈ ds ++ es, d.beginning < d.stop ∧ d.stop ≤ d.last := by
    rw [← heq]
    intro d hd
    have := directivesFrom_bounds d hd
    omega
  have hbefore : directivesBefore syn text limit = ds := by
    unfold directivesBefore
    rw [heq, List.filter_append, List.filter_eq_self.2, List.filter_eq_nil_iff.2, List.append_nil]
    · intro d hd
      have h1 := hes d hd
      have h2 := hstop d (List.mem_append_right _ hd)
      simp
      omega
    · intro d hd
      have h1 := hds d hd
      have h2 := hstop d (List.mem_append_left _ hd)
      simp
      omega
  rw [hbefore]
  refine ⟨hds, es.filter (·.stop ≤ limit'), ?_, fun d hd => hes d ((List.mem_filter.1 hd).1)⟩
  unfold directivesBefore
  rw [heq, List.filter_append]
  congr 1
  refine List.filter_eq_self.2 fun d hd => ?_
  have h1 := hds d hd
  have h2 := hstop d (List.mem_append_left _ hd)
  simp
  omega

theorem inOrder_directivesBefore (text : List Char) (limit : Nat) :
    InOrder (directivesBefore syn text limit) := by
  have horder : InOrder (directives syn text) := directives_inOrder text
  obtain ⟨hpair, hall⟩ := horder
  exact ⟨hpair.filter _, fun d hd => hall d ((List.mem_filter.1 hd).1)⟩

/-- What the function passes to `c-put-font-lock-face`, on any text. -/
theorem calls_fontLockIf0 {text : List Char} {limit : Nat} (h : LineBeginning text limit) :
    Made (callsOf limit (directivesBefore syn text limit)) (fontLockIf0 syn limit text) := by
  have hrun : fontLockIf0 syn limit text = paintRest text.length limit
      (runDirectives text.length (.ok .init) (directivesBefore syn text limit)) := by
    unfold directivesBefore
    rw [← searches_eq_directives, ← runBody_eq]
    unfold fontLockIf0 paintRest
    cases runBody syn text.length .init (searches syn limit text.length 1 true text) <;> rfl
  rw [hrun]
  refine made_runDirectives _ (inOrder_directivesBefore syn text limit) ⟨h.1, h.2.1⟩ fun d hd => ?_
  exact ((directivesBefore_append syn h le_rfl).1 d hd).le

theorem opening_bounds {ds rest : List Directive} {start : Nat} (hds : InOrder ds)
    (h : opening ds = some (start, rest)) :
    (∃ d ∈ ds, d.last = start ∧ d.beginning < start) ∧
      ∀ d ∈ rest, d ∈ ds ∧ start < d.beginning := by
  obtain ⟨pre, d0, rfl, hkind, -⟩ := opening_eq_some h
  have hlast : d0.last = start := by simp only [Directive.last, hkind]
  have hmem : d0 ∈ pre ++ d0 :: rest := List.mem_append_right _ List.mem_cons_self
  have hpair := (List.pairwise_cons.1 (List.pairwise_append.1 hds.1).2.1).1
  rw [← hlast]
  exact ⟨⟨d0, hmem, rfl, (hds.2 d0 hmem).2⟩,
    fun d hd => ⟨List.mem_append_right _ (List.mem_cons_of_mem _ hd), hpair d hd⟩⟩

theorem closing_mem {n : Int} {ds post : List Directive} {d : Directive}
    (h : closing n ds = some (d, post)) : d ∈ ds ∧ ∀ d' ∈ post, d' ∈ ds := by
  obtain ⟨pre, rfl, -⟩ := closing_eq_some h
  exact ⟨List.mem_append_right _ List.mem_cons_self,
    fun d' hd' => List.mem_append_right _ (List.mem_cons_of_mem _ hd')⟩

/-! ## Calls in range and in order -/

/-- Every call is in the text before the limit, each one after the one before,
and none signals. -/
def CallsInOrder (limit : Nat) (res : Except State State) : Prop :=
  (∀ r ∈ (stateOf res).calls, 1 ≤ r.1 ∧ r.1 ≤ r.2 ∧ r.2 ≤ limit) ∧
    ((stateOf res).calls.Pairwise fun r r' => r.2 ≤ r'.1) ∧ res.isOk

/-- Behind the directive that ends the first disabled region there is no other
`#else` or `#endif` of that depth, and no block is open in the end. -/
def RegionLast (ds : List Directive) : Prop :=
  match opening ds with
  | none => True
  | some (_, rest) =>
    match closing 0 rest with
    | none => True
    | some (d, post) => (closing d.kind.shift post).isNone ∧ balance ds ≤ 0

instance (ds : List Directive) : Decidable (RegionLast ds) :=
  match h : opening ds with
  | none => isTrue (by simp [RegionLast, h])
  | some (_, rest) =>
    match h' : closing 0 rest with
    | none => isTrue (by simp [RegionLast, h, h'])
    | some (d, post) =>
      decidable_of_iff ((closing d.kind.shift post).isNone ∧ balance ds ≤ 0)
        (by simp [RegionLast, h, h'])

/-- **When the calls are in range and in order**: on any text, up to the
beginning of any line, exactly if nothing makes the function paint again after
the first region. -/
theorem callsInOrder_iff {text : List Char} {limit : Nat}
    (h : LineBeginning text limit) :
    CallsInOrder limit (fontLockIf0 syn limit text) ↔
      RegionLast (directivesBefore syn text limit) := by
  have hds := inOrder_directivesBefore syn text limit
  have hlast := (directivesBefore_append syn h le_rfl).1
  obtain ⟨hcalls, hok⟩ := calls_fontLockIf0 syn h
  generalize directivesBefore syn text limit = ds at hds hlast hcalls hok ⊢
  unfold CallsInOrder RegionLast
  rw [hcalls, hok]
  unfold callsOf
  cases hopen : opening ds with
  | none => simp
  | some found =>
    obtain ⟨start, rest⟩ := found
    obtain ⟨⟨d0, hd0, hstart, hbeg⟩, hrest⟩ := opening_bounds hds hopen
    have hlimit := hlast d0 hd0
    dsimp only
    cases hclose : closing 0 rest with
    | none =>
      dsimp only
      split
      · simp
        omega
      · simp
    | some found =>
      obtain ⟨d, post⟩ := found
      obtain ⟨hd, hpost⟩ := closing_mem hclose
      obtain ⟨hmem, hlt⟩ := hrest d hd
      have hdlast := hlast d hmem
      have hdbeg := hds.2 d hmem
      dsimp only
      cases hagain : closing d.kind.shift post with
      | some again =>
        refine iff_of_false (fun hall => ?_) (by simp)
        have := hall.2.2 (0, again.1.beginning) (by simp)
        omega
      | none =>
        dsimp only
        split
        · next hpos =>
          refine iff_of_false (fun hall => ?_) (by omega)
          have := hall.2.2 (0, limit) (by simp)
          omega
        · next hpos =>
          refine iff_of_true ?_ ⟨rfl, by omega⟩
          simp
          omega

theorem callsInOrder_iff_one :
    let text := "#if 0\nx\n#endif\n".toList
    CallsInOrder 16 (fontLockIf0 blanks 16 text) :=
  (callsInOrder_iff blanks (by decide)).2 (by decide)

/-- At the `#endif` of a block with an `#else` the region from 0 is passed on. -/
theorem not_callsInOrder_else :
    let text := "#if 0\nx\n#else\ny\n#endif\n".toList
    LineBeginning text 24 ∧ (stateOf (fontLockIf0 blanks 24 text)).calls = [(6, 9), (0, 17)] ∧
      ¬ CallsInOrder 24 (fontLockIf0 blanks 24 text) := by
  refine ⟨by decide, by decide, fun h => ?_⟩
  have := h.1 (0, 17) (by decide)
  omega

/-! ## Partial and full fontification -/

/-- The directives before `limit` lead to the character at `p` being painted. -/
def PaintedBy (limit : Nat) (ds : List Directive) (p : Nat) : Prop :=
  match opening ds with
  | none => False
  | some (start, rest) =>
    start ≤ p ∧
      match closing 0 rest with
      | some (d, _) => p < d.beginning
      | none => 0 < balance ds ∧ p < limit

theorem painted_iff_directives {text : List Char} {limit p : Nat} (h : LineBeginning text limit) :
    Painted text.length (fontLockIf0 syn limit text) p ↔
      PaintedBy limit (directivesBefore syn text limit) p := by
  have hds := inOrder_directivesBefore syn text limit
  have hlast := (directivesBefore_append syn h le_rfl).1
  obtain ⟨hcalls, -⟩ := calls_fontLockIf0 syn h
  obtain ⟨-, hsize, -⟩ := h
  generalize directivesBefore syn text limit = ds at hds hlast hcalls ⊢
  have hzero (b : Nat) (hb : 1 ≤ b) : ¬ InRange text.length (0, b) := by
    simp only [InRange]
    omega
  unfold Painted PaintedBy
  rw [hcalls]
  unfold callsOf
  cases hopen : opening ds with
  | none => simp
  | some found =>
    obtain ⟨start, rest⟩ := found
    obtain ⟨⟨d0, hd0, hstart, hbeg⟩, hrest⟩ := opening_bounds hds hopen
    have hlimit := hlast d0 hd0
    have hpos := (hds.2 d0 hd0).1
    have hregion (b : Nat) (hb : start < b ∧ b ≤ limit) :
        (InRange text.length (start, b) ∧ min start b ≤ p ∧ p < max start b) ↔
          start ≤ p ∧ p < b := by
      simp only [InRange]
      omega
    dsimp only
    cases hclose : closing 0 rest with
    | none =>
      have hlimit' := hregion limit ⟨by omega, le_rfl⟩
      dsimp only
      split
      · simp only [List.mem_singleton, exists_eq_left, hlimit']
        tauto
      · simp
        omega
    | some found =>
      obtain ⟨d, post⟩ := found
      obtain ⟨hd, hpost⟩ := closing_mem hclose
      obtain ⟨hmem, hlt⟩ := hrest d hd
      have hdlast := hlast d hmem
      have hdbeg := hds.2 d hmem
      have hregion' := hregion d.beginning ⟨hlt, by omega⟩
      constructor
      · rintro ⟨r, hr, hpaint⟩
        rcases List.mem_cons.1 hr with rfl | hr
        · exact hregion'.1 hpaint
        · -- what is passed on later begins at 0
          exfalso
          split at hr
          · next d' _ hd' =>
            obtain rfl := List.mem_singleton.1 hr
            have hmem' := (hrest d' (hpost d' (closing_mem hd').1)).1
            exact hzero _ (hds.2 d' hmem').1 hpaint.1
          · split at hr
            · obtain rfl := List.mem_singleton.1 hr
              exact hzero _ (by omega) hpaint.1
            · cases hr
      · intro hp
        exact ⟨(start, d.beginning), List.mem_cons_self, hregion'.2 hp⟩

/-- The call with the earlier limit paints the same of what comes before it as
the call with the later one. -/
def PaintsSame (syn : SyntaxTable) (text : List Char) (limit limit' : Nat) : Prop :=
  ∀ p, p < limit → (Painted text.length (fontLockIf0 syn limit text) p ↔
    Painted text.length (fontLockIf0 syn limit' text) p)

/-- The branch of the first `#if 0` has not ended. -/
def Open (ds : List Directive) : Prop :=
  match opening ds with
  | some (_, rest) => (closing 0 rest).isNone
  | none => False

instance (ds : List Directive) : Decidable (Open ds) :=
  match h : opening ds with
  | some (_, rest) => decidable_of_iff ((closing 0 rest).isNone) (by simp [Open, h])
  | none => isFalse (by simp [Open, h])

/-- **When partial and full fontification agree**: on any text and for any two
beginnings of lines, exactly if, where the branch of the first `#if 0` is open at
the first one, the depth there is positive just when the branch has ended at the
second one or the depth is positive there too. -/
theorem paintsSame_iff {text : List Char} {limit limit' : Nat}
    (h : LineBeginning text limit) (h' : LineBeginning text limit') (hle : limit ≤ limit') :
    PaintsSame syn text limit limit' ↔
      (Open (directivesBefore syn text limit) →
        (0 < balance (directivesBefore syn text limit) ↔
          ¬ Open (directivesBefore syn text limit') ∨
            0 < balance (directivesBefore syn text limit'))) := by
  have hds := inOrder_directivesBefore syn text limit
  have hds' := inOrder_directivesBefore syn text limit'
  obtain ⟨hlast, es, heq, hes⟩ := directivesBefore_append syn h hle
  unfold PaintsSame
  simp only [painted_iff_directives syn h, painted_iff_directives syn h']
  rw [heq] at hds' ⊢
  generalize directivesBefore syn text limit = ds at hds hds' hlast hes ⊢
  unfold Open PaintedBy
  rw [opening_append]
  cases hopen : opening ds with
  | none =>
    refine iff_of_true (fun p hp => iff_of_false id ?_) fun h => by cases h
    dsimp only
    split
    · exact id
    · next start rest hfound =>
      rintro ⟨hstart, -⟩
      obtain ⟨pre, d, rfl, hkind, -⟩ := opening_eq_some hfound
      have hlimit := hes d (List.mem_append_right _ List.mem_cons_self)
      have hd := hds'.2 d (by simp)
      have hlast : d.last = start := by simp only [Directive.last, hkind]
      omega
  | some found =>
    obtain ⟨start, rest⟩ := found
    obtain ⟨⟨d0, hd0, hstart, -⟩, -⟩ := opening_bounds hds hopen
    have hlt := hlast d0 hd0
    dsimp only
    rw [closing_append]
    cases hclose : closing 0 rest with
    | some found => exact iff_of_true (fun p hp => Iff.rfl) fun h => by cases h
    | none =>
      dsimp only
      -- the calls agree on the whole region if they do on its first character
      cases hclose' : closing (0 + balance rest) es with
      | none =>
        simp only [Option.isNone_none, not_true, false_or, forall_const]
        refine ⟨fun hall => ?_, fun hbalance p hp => by omega⟩
        have := hall start (by omega)
        omega
      | some found =>
        obtain ⟨d, post⟩ := found
        have hlimit := hes d (closing_mem hclose').1
        simp only [Option.isNone_none, Option.isNone_some, Bool.false_eq_true, not_false_eq_true,
          true_or, iff_true, forall_const]
        refine ⟨fun hall => ?_, fun hbalance p hp => by omega⟩
        have := hall start (by omega)
        omega

/-- An `#if 0` without `#else`, of which the call with the limit before the
`#endif` paints what the one with the limit after it does. -/
theorem paintsSame_iff_open :
    let text := "#ifdef A\n#if 0\nx\n#endif\n#endif\n".toList
    PaintsSame blanks text 18 25 :=
  (paintsSame_iff blanks (by decide) (by decide) (by decide)).2 (by decide)

/-- Behind a stray `#endif` the depth in the block is 0, and only the call that
comes to the `#endif` of the block paints it. -/
theorem not_paintsSame_stray :
    let text := "#endif\n#if 0\nx\n#endif\n".toList
    LineBeginning text 16 ∧ LineBeginning text 23 ∧ ¬ PaintsSame blanks text 16 23 := by
  refine ⟨by decide, by decide, fun h => ?_⟩
  exact absurd ((h 14 (by decide)).2 (by decide)) (by decide)

end

end EmacsConfig.FontLockIf0
