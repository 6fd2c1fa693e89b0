import EmacsConfig.Lib.Decimal
import Mathlib.Data.List.Pairwise
import Mathlib.Data.List.Sort

/-!
# Line numbers of a compact tag record (libutil/gtagsop.c, global/global.c)

`flush_pool` sorts the line numbers of a tag and folds them: after the first each
number is the distance to the one before, and `-k` stands for the `k` numbers that
follow. A record that has grown past a quarter of a page is put and the next one
starts with a whole number. `search` unfolds a record again.
-/

namespace EmacsConfig.Global.TagLines

open Decimal

/-- `DBOP_PAGESIZE / 4` -/
def quarterPage : ℕ := 8192 / 4

/-- The variables of the loop: `body` is what `sb` holds after the header, `puts` the
records written so far. -/
structure Fold where
  last : ℕ
  cont : ℕ
  body : List Char
  puts : List (List Char)
  deriving DecidableEq, Repr

/-- The body with the range that is still open written down. -/
def Fold.closed (s : Fold) : List Char :=
  if s.cont = 0 then s.body else s.body ++ '-' :: putNumber (s.last - s.cont)

/-- The body after the number `n` that does not continue a range. -/
def Fold.extended (s : Fold) (n : ℕ) : List Char :=
  if s.closed = [] then putNumber n else s.closed ++ ',' :: putNumber (n - s.last)

/-- One round of the loop for the line number `n`. -/
def foldLine (header : List Char) (s : Fold) (n : ℕ) : Fold :=
  if n = s.last then s
  else if 0 < s.last ∧ n = s.last + 1 then
    if s.cont = 0 then
      -- no range expression at the head
      if s.body = [] then { s with body := putNumber n, last := n }
      else { s with cont := s.last, last := n }
    else { s with last := n }
  else if quarterPage < (header ++ s.extended n).length then
    { last := n, cont := 0, body := [], puts := s.puts ++ [header ++ s.extended n] }
  else { last := n, cont := 0, body := s.extended n, puts := s.puts }

/-- The records that `flush_pool` puts for one tag. -/
def flushLines (header : List Char) (lnoArray : List ℕ) : List (List Char) :=
  let s := (lnoArray.mergeSort (· ≤ ·)).foldl (foldLine header) ⟨0, 0, [], []⟩
  if s.closed = [] then s.puts else s.puts ++ [header ++ s.closed]

/-- The loop of `search` from `p` on; `none` when `fuel` rounds are not enough, which is
also what a character without a meaning leads to. -/
def unfoldFrom : ℕ → List Char → ℕ → ℕ → Option (List ℕ)
  | 0, _, _, _ => none
  | fuel + 1, p, last, cont =>
    if 0 < cont then
      if cont < last + 1 then unfoldFrom fuel p last 0
      else (unfoldFrom fuel p (last + 1) cont).map ((last + 1) :: ·)
    else match p with
      | [] => some []
      | c :: q =>
        if c.isDigit then
          (unfoldFrom fuel (getNumber 0 (c :: q)).2 (getNumber 0 (c :: q)).1 0).map
            ((getNumber 0 (c :: q)).1 :: ·)
        else if c = '-' then
          (unfoldFrom fuel (getNumber 0 q).2 (last + 1) ((getNumber 0 q).1 + last)).map
            ((last + 1) :: ·)
        else if c = ',' then
          (unfoldFrom fuel (getNumber 0 q).2 ((getNumber 0 q).1 + last) 0).map
            (((getNumber 0 q).1 + last) :: ·)
        else none

/-- The line numbers that a body of a record unfolds to; it has to start with a digit. -/
def unfoldLines (fuel : ℕ) (p : List Char) : Option (List ℕ) :=
  if p.head?.any (·.isDigit) then unfoldFrom fuel p 0 0 else none

/-! ## Unfolding -/

/-- The loop ends from here with the numbers `ns`. -/
def Unfolds (p : List Char) (last cont : ℕ) (ns : List ℕ) : Prop :=
  ∃ fuel, unfoldFrom fuel p last cont = some ns

theorem unfoldFrom_succ {fuel last cont : ℕ} {p : List Char} {ns : List ℕ}
    (h : unfoldFrom fuel p last cont = some ns) :
    unfoldFrom (fuel + 1) p last cont = some ns := by
  induction fuel generalizing p last cont ns with
  | zero => cases h
  | succ fuel ih =>
    unfold unfoldFrom at h ⊢
    split_ifs at h ⊢ with h1 h2
    · exact ih h
    · obtain ⟨later, hlater, rfl⟩ := Option.map_eq_some_iff.1 h
      rw [ih hlater]
      rfl
    · cases p with
      | nil => exact h
      | cons c q =>
        simp only at h ⊢
        split_ifs at h ⊢ <;>
        · obtain ⟨later, hlater, rfl⟩ := Option.map_eq_some_iff.1 h
          rw [ih hlater]
          rfl

theorem unfoldFrom_le {fuel more last cont : ℕ} {p : List Char} {ns : List ℕ}
    (hle : fuel ≤ more) (h : unfoldFrom fuel p last cont = some ns) :
    unfoldFrom more p last cont = some ns := by
  induction hle with
  | refl => exact h
  | step _ ih => exact unfoldFrom_succ ih

theorem Unfolds.nil (last : ℕ) : Unfolds [] last 0 [] := ⟨1, rfl⟩

/-- The rest of a range. -/
theorem Unfolds.range {p : List Char} {cont last : ℕ} {ns : List ℕ} (hpos : 0 < cont)
    (hle : last ≤ cont) (h : Unfolds p cont 0 ns) :
    Unfolds p last cont (List.range' (last + 1) (cont - last) ++ ns) := by
  induction hk : cont - last generalizing last with
  | zero =>
    obtain ⟨fuel, hfuel⟩ := h
    have heq : last = cont := by omega
    subst heq
    refine ⟨fuel + 1, ?_⟩
    unfold unfoldFrom
    rw [if_pos hpos, if_pos (by omega), hfuel]
    rfl
  | succ k ih =>
    obtain ⟨fuel, hfuel⟩ := ih (show last + 1 ≤ cont by omega) (by omega)
    refine ⟨fuel + 1, ?_⟩
    unfold unfoldFrom
    rw [if_pos hpos, if_neg (by omega), hfuel]
    rfl

theorem not_isDigit_of_dash {c : Char} (h : c = '-' ∨ c = ',') : ¬ c.isDigit := by
  rcases h with rfl | rfl <;> decide

/-- No digit follows, so that a number before `q` ends there. -/
def Ends (q : List Char) : Prop := ∀ c ∈ q.head?, ¬ c.isDigit

theorem Unfolds.number {n last : ℕ} {q : List Char} {ns : List ℕ} (hq : Ends q)
    (h : Unfolds q n 0 ns) : Unfolds (putNumber n ++ q) last 0 (n :: ns) := by
  obtain ⟨fuel, hfuel⟩ := h
  obtain ⟨c, p, hput, hc⟩ := exists_cons n
  have hget := getNumber_putNumber n hq
  rw [hput, List.cons_append] at hget
  refine ⟨fuel + 1, ?_⟩
  rw [hput, List.cons_append, unfoldFrom, if_neg (by omega)]
  simp only [if_pos hc, hget, hfuel]
  rfl

theorem Unfolds.distance {n last : ℕ} {q : List Char} {ns : List ℕ} (hq : Ends q)
    (h : Unfolds q (n + last) 0 ns) :
    Unfolds (',' :: putNumber n ++ q) last 0 ((n + last) :: ns) := by
  obtain ⟨fuel, hfuel⟩ := h
  refine ⟨fuel + 1, ?_⟩
  rw [List.cons_append, unfoldFrom, if_neg (by omega)]
  simp only [getNumber_putNumber n hq, hfuel]
  rfl

theorem Unfolds.dash {n last : ℕ} {q : List Char} {ns : List ℕ} (hpos : 0 < n) (hq : Ends q)
    (h : Unfolds q (n + last) 0 ns) :
    Unfolds ('-' :: putNumber n ++ q) last 0 (List.range' (last + 1) n ++ ns) := by
  obtain ⟨fuel, hfuel⟩ := Unfolds.range (by omega) (show last + 1 ≤ n + last by omega) h
  have hsplit : List.range' (last + 1) n =
      (last + 1) :: List.range' (last + 1 + 1) (n + last - (last + 1)) := by
    rw [← List.range'_succ]
    congr 1
    omega
  refine ⟨fuel + 1, ?_⟩
  rw [hsplit, List.cons_append, unfoldFrom, if_neg (by omega)]
  simp only [getNumber_putNumber n hq, hfuel]
  rfl

/-! ## Folding -/

/-- `body` starts with a number and unfolds to `ns`, whatever record it is continued to;
`last` is the number that a continuation counts from. -/
structure Reads (body : List Char) (ns : List ℕ) (last : ℕ) : Prop where
  head : body.head?.any (·.isDigit)
  unfolds : ∀ {k q rest}, Ends q → Unfolds q last 0 rest → Unfolds (body ++ q) k 0 (ns ++ rest)

theorem Reads.ne_nil {body : List Char} {ns : List ℕ} {last : ℕ} (h : Reads body ns last) :
    body ≠ [] := by
  rintro rfl
  cases h.head

theorem head_append {body : List Char} (h : body.head?.any (·.isDigit)) (q : List Char) :
    (body ++ q).head?.any (·.isDigit) := by
  cases body with
  | nil => cases h
  | cons c body => exact h

theorem ends_cons {c : Char} (h : c = '-' ∨ c = ',') (q : List Char) : Ends (c :: q) := by
  intro d hd
  obtain rfl : c = d := by simpa using hd
  exact not_isDigit_of_dash h

theorem Reads.number (n : ℕ) : Reads (putNumber n) [n] n where
  head := by
    obtain ⟨c, p, hput, hc⟩ := exists_cons n
    simpa [hput] using hc
  unfolds hq h := Unfolds.number hq h

theorem Reads.distance {body : List Char} {ns : List ℕ} {last n : ℕ} (h : Reads body ns last)
    (hlt : last < n) : Reads (body ++ ',' :: putNumber (n - last)) (ns ++ [n]) n where
  head := head_append h.head _
  unfolds {k q rest} hq hrest := by
    have hsum : n - last + last = n := by omega
    have hdist : Unfolds (',' :: putNumber (n - last) ++ q) last 0 (n :: rest) := by
      rw [← hsum] at hrest
      simpa only [hsum] using Unfolds.distance hq hrest
    simpa using h.unfolds (k := k) (ends_cons (.inr rfl) _) hdist

theorem Reads.dash {body : List Char} {ns : List ℕ} {cont last : ℕ} (h : Reads body ns cont)
    (hlt : cont < last) :
    Reads (body ++ '-' :: putNumber (last - cont))
      (ns ++ List.range' (cont + 1) (last - cont)) last where
  head := head_append h.head _
  unfolds {k q rest} hq hrest := by
    have hsum : last - cont + cont = last := by omega
    rw [← hsum] at hrest
    have hdash := Unfolds.dash (by omega) hq hrest
    simpa using h.unfolds (k := k) (ends_cons (.inl rfl) _) hdash

/-- The numbers that the record being built stands for. -/
inductive Building (s : Fold) : List ℕ → Prop
  | empty : s.body = [] → s.cont = 0 → Building s []
  | plain {ns : List ℕ} : s.cont = 0 → Reads s.body ns s.last → Building s ns
  | range {ns : List ℕ} : 0 < s.cont → s.cont < s.last → Reads s.body ns s.cont →
      Building s (ns ++ List.range' (s.cont + 1) (s.last - s.cont))

theorem Building.closed {s : Fold} {ns : List ℕ} (h : Building s ns) :
    s.closed = [] ∧ ns = [] ∨ Reads s.closed ns s.last := by
  unfold Fold.closed
  cases h with
  | empty hbody hcont => exact .inl ⟨by rw [if_pos hcont, hbody], rfl⟩
  | plain hcont hreads =>
    rw [if_pos hcont]
    exact .inr hreads
  | range hpos hlt hreads =>
    rw [if_neg (by omega)]
    exact .inr (hreads.dash hlt)

theorem Building.extended {s : Fold} {ns : List ℕ} {n : ℕ} (h : Building s ns) (hlt : s.last < n) :
    Reads (s.extended n) (ns ++ [n]) n := by
  unfold Fold.extended
  rcases h.closed with ⟨hnil, rfl⟩ | hreads
  · rw [if_pos hnil]
    exact Reads.number n
  · rw [if_neg hreads.ne_nil]
    exact hreads.distance hlt

/-- `r` is a record of the numbers `ns`. -/
def IsRecord (header r : List Char) (ns : List ℕ) : Prop :=
  ∃ body last, r = header ++ body ∧ Reads body ns last

/-- After the line numbers `done`: the records put and the one being built stand for them. -/
structure Covers (header : List Char) (s : Fold) (done : List ℕ) : Prop where
  sorted : done.Pairwise (· < ·)
  pos : ∀ n ∈ done, 0 < n
  last : done = [] ∧ s.last = 0 ∨ s.last ∈ done ∧ ∀ n ∈ done, n ≤ s.last
  records : ∃ parts cur, done = parts.flatten ++ cur ∧
    List.Forall₂ (IsRecord header) s.puts parts ∧ Building s cur

theorem Covers.le_last {header : List Char} {s : Fold} {done : List ℕ} (h : Covers header s done) :
    ∀ n ∈ done, n ≤ s.last := by
  rcases h.last with ⟨rfl, -⟩ | ⟨-, hle⟩
  · simp
  · exact hle

/-- The next line number is greater than those done. -/
theorem Covers.concat {header : List Char} {s s' : Fold} {done : List ℕ} {n : ℕ}
    (h : Covers header s done) (hlt : s.last < n) (hlast : s'.last = n)
    (hrecords : ∃ parts cur, done ++ [n] = parts.flatten ++ cur ∧
      List.Forall₂ (IsRecord header) s'.puts parts ∧ Building s' cur) :
    Covers header s' (done ++ [n]) where
  sorted := by
    refine List.pairwise_append.2 ⟨h.sorted, List.pairwise_singleton _ _, ?_⟩
    intro m hm k hk
    rw [List.mem_singleton.1 hk]
    exact (h.le_last m hm).trans_lt hlt
  pos := by
    intro m hm
    rcases List.mem_append.1 hm with hm | hm
    · exact h.pos m hm
    · rw [List.mem_singleton.1 hm]
      omega
  last := by
    refine .inr ⟨by simp [hlast], ?_⟩
    intro m hm
    rcases List.mem_append.1 hm with hm | hm
    · rw [hlast]
      exact (h.le_last m hm).trans hlt.le
    · rw [List.mem_singleton.1 hm, hlast]
  records := hrecords

/-- **One round** of the loop covers one more line number. -/
theorem Covers.foldLine {header : List Char} {s : Fold} {done : List ℕ} {n : ℕ}
    (h : Covers header s done) (hlt : s.last < n) :
    Covers header (foldLine header s n) (done ++ [n]) := by
  obtain ⟨parts, cur, hdone, hputs, hcur⟩ := h.records
  have hext := hcur.extended hlt
  unfold TagLines.foldLine
  rw [if_neg (by omega)]
  split_ifs with hnext hcont hbody hpage
  · -- the first number of a record
    refine h.concat hlt rfl ⟨parts, [n], ?_, hputs, .plain hcont (Reads.number n)⟩
    have hnil : cur = [] := by
      rcases hcur.closed with ⟨-, hnil⟩ | hreads
      · exact hnil
      · rw [Fold.closed, if_pos hcont] at hreads
        exact absurd hbody hreads.ne_nil
    rw [hdone, hnil, List.append_nil]
  · -- a range starts
    have hreads : Reads s.body cur s.last := by
      rcases hcur.closed with ⟨hclosed, -⟩ | hreads
      · rw [Fold.closed, if_pos hcont] at hclosed
        exact absurd hclosed hbody
      · rwa [Fold.closed, if_pos hcont] at hreads
    refine h.concat hlt rfl ⟨parts, cur ++ [n], by rw [hdone, List.append_assoc], hputs, ?_⟩
    have hrange := Building.range (s := { s with cont := s.last, last := n }) hnext.1 hlt hreads
    have hone : n - s.last = 1 := by omega
    rw [show List.range' (s.last + 1) (n - s.last) = [n] by rw [hone, hnext.2]; rfl] at hrange
    exact hrange
  · -- a range goes on
    cases hcur with
    | empty _ hzero => exact absurd hzero hcont
    | plain hzero _ => exact absurd hzero hcont
    | @range ns hpos hclt hreads =>
      refine h.concat hlt rfl ⟨parts, _, ?_, hputs,
        Building.range (s := { s with last := n }) hpos (hclt.trans hlt) hreads⟩
      have hsub : n - s.cont = s.last - s.cont + 1 := by omega
      have hmore : List.range' (s.cont + 1) (n - s.cont) =
          List.range' (s.cont + 1) (s.last - s.cont) ++ [n] := by
        rw [hsub, List.range'_concat]
        congr 2
        omega
      rw [hdone, hmore]
      simp only [List.append_assoc]
  · -- the record is put
    refine h.concat hlt rfl ⟨parts ++ [cur ++ [n]], [], ?_, ?_, .empty rfl rfl⟩
    · rw [hdone]
      simp
    · exact List.rel_append hputs (.cons ⟨_, n, rfl, hext⟩ .nil)
  · exact h.concat hlt rfl ⟨parts, cur ++ [n], by rw [hdone, List.append_assoc], hputs,
      .plain rfl hext⟩

theorem covers_start (header : List Char) : Covers header ⟨0, 0, [], []⟩ [] where
  sorted := .nil
  pos := by simp
  last := .inl ⟨rfl, rfl⟩
  records := ⟨[], [], rfl, .nil, .empty rfl rfl⟩

/-- **The whole loop** over sorted line numbers; line `0` and repeated lines are left out. -/
theorem Covers.foldl {header : List Char} {s : Fold} {done : List ℕ} (h : Covers header s done)
    {lnos : List ℕ} (hsorted : lnos.Pairwise (· ≤ ·)) (hge : ∀ n ∈ lnos, s.last ≤ n) :
    ∃ all, Covers header (lnos.foldl (TagLines.foldLine header) s) all ∧
      ∀ n, n ∈ all ↔ n ∈ done ∨ n ∈ lnos ∧ 0 < n := by
  induction lnos generalizing s done with
  | nil => exact ⟨done, h, by simp⟩
  | cons n lnos ih =>
    rw [List.pairwise_cons] at hsorted
    rw [List.forall_mem_cons] at hge
    rw [List.foldl_cons]
    rcases Nat.eq_or_lt_of_le hge.1 with heq | hlt
    · have hskip : TagLines.foldLine header s n = s := by
        rw [TagLines.foldLine, if_pos heq.symm]
      rw [hskip]
      obtain ⟨all, hall, hmem⟩ := ih h hsorted.2 hge.2
      refine ⟨all, hall, fun m => (hmem m).trans ?_⟩
      have hn : 0 < n → n ∈ done := by
        intro hpos
        rcases h.last with ⟨-, hzero⟩ | ⟨hdone, -⟩
        · omega
        · exact heq ▸ hdone
      grind
    · have hstep := h.foldLine hlt
      have hlast : (TagLines.foldLine header s n).last = n := by
        unfold TagLines.foldLine
        split_ifs <;> first | rfl | omega
      obtain ⟨all, hall, hmem⟩ := ih hstep hsorted.2 (by rw [hlast]; exact hsorted.1)
      refine ⟨all, hall, fun m => (hmem m).trans ?_⟩
      grind

/-- **Folding**: the records put for a tag stand for its line numbers, in increasing
order and each once. -/
theorem flushLines_records (header : List Char) (lnoArray : List ℕ) :
    ∃ parts, List.Forall₂ (IsRecord header) (flushLines header lnoArray) parts ∧
      parts.flatten.Pairwise (· < ·) ∧ ∀ n, n ∈ parts.flatten ↔ n ∈ lnoArray ∧ 0 < n := by
  have hsorted : (lnoArray.mergeSort (· ≤ ·)).Pairwise (· ≤ ·) := by
    simpa using List.pairwise_mergeSort' (· ≤ ·) lnoArray
  obtain ⟨all, hall, hmem⟩ := (covers_start header).foldl hsorted (by simp)
  have hiff : ∀ n, n ∈ all ↔ n ∈ lnoArray ∧ 0 < n := by
    intro n
    rw [hmem n]
    simp
  obtain ⟨parts, cur, heq, hputs, hcur⟩ := hall.records
  unfold flushLines
  rcases hcur.closed with ⟨hclosed, rfl⟩ | hreads
  · rw [List.append_nil] at heq
    refine ⟨parts, ?_, heq ▸ hall.sorted, heq ▸ hiff⟩
    simpa only [if_pos hclosed] using hputs
  · have hflat : (parts ++ [cur]).flatten = all := by
      simpa using heq.symm
    refine ⟨parts ++ [cur], ?_, hflat ▸ hall.sorted, hflat ▸ hiff⟩
    simp only [if_neg hreads.ne_nil]
    exact List.rel_append hputs (.cons ⟨_, _, rfl, hreads⟩ .nil)

theorem IsRecord.exists_unfoldLines {header r : List Char} {ns : List ℕ}
    (h : IsRecord header r ns) :
    ∃ body, r = header ++ body ∧ ∃ fuel, ∀ more, fuel ≤ more → unfoldLines more body = some ns := by
  obtain ⟨body, last, rfl, hreads⟩ := h
  obtain ⟨fuel, hfuel⟩ := hreads.unfolds (k := 0) (q := []) (by simp [Ends]) (.nil last)
  rw [List.append_nil, List.append_nil] at hfuel
  refine ⟨body, rfl, fuel, fun more hle => ?_⟩
  rw [unfoldLines, if_pos hreads.head, unfoldFrom_le hle hfuel]

/-- What `atoi` reads from a body is its first line number. -/
theorem head_of_unfoldLines {fuel : ℕ} {p : List Char} {ns : List ℕ}
    (h : unfoldLines fuel p = some ns) : ns.head? = some (getNumber 0 p).1 := by
  unfold unfoldLines at h
  split_ifs at h with hhead
  cases fuel with
  | zero => cases h
  | succ fuel =>
    cases p with
    | nil => cases hhead
    | cons c q =>
      rw [unfoldFrom, if_neg (by omega)] at h
      simp only [if_pos (show c.isDigit by simpa using hhead)] at h
      obtain ⟨later, -, rfl⟩ := Option.map_eq_some_iff.1 h
      rfl

end EmacsConfig.Global.TagLines
