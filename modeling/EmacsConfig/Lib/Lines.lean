import Mathlib.Data.List.Induction
import Mathlib.Data.List.InsertIdx
import Mathlib.Data.List.TakeWhile

/-!
# Lines of a text with a point

A text is a list of terminated lines and a rest without a terminator
(`join_split`, `split_join`). `Zipper` is a text with a point; `lineAt ls r k`
is the one whose point is at the beginning of line `k`, and each motion has a
lemma that says where it takes `lineAt ls r k`.
-/

namespace EmacsConfig.Lines

variable {α : Type*} {nl : α}

/-- A line without its terminator `nl`. -/
def Line (nl : α) : Type _ := { l : List α // nl ∉ l }

def Line.empty : Line nl := ⟨[], List.not_mem_nil⟩

def Line.append (l m : Line nl) : Line nl := ⟨l.1 ++ m.1, by simp [l.2, m.2]⟩

def Line.cons (c : α) (h : c ≠ nl) (l : Line nl) : Line nl :=
  ⟨c :: l.1, by simp [h.symm, l.2]⟩

/-- The text of terminated lines. -/
def ser : List (Line nl) → List α
  | [] => []
  | l :: ls => l.1 ++ nl :: ser ls

theorem ser_append (ls ms : List (Line nl)) : ser (ls ++ ms) = ser ls ++ ser ms := by
  induction ls with
  | nil => rfl
  | cons l ls ih => simp [ser, ih]

variable [DecidableEq α]

instance : DecidableEq (Line nl) := inferInstanceAs (DecidableEq (Subtype _))

/-- The terminated lines of a text, and what follows the last terminator. -/
def split (nl : α) : List α → List (Line nl) × Line nl
  | [] => ([], .empty)
  | c :: t =>
    if h : c = nl then (.empty :: (split nl t).1, (split nl t).2)
    else
      match (split nl t).1 with
      | [] => ([], .cons c h (split nl t).2)
      | l :: ls => (.cons c h l :: ls, (split nl t).2)

variable (nl) in
theorem join_split (t : List α) : ser (split nl t).1 ++ (split nl t).2.1 = t := by
  induction t with
  | nil => rfl
  | cons c t ih =>
    rw [split]
    split
    · next h => subst h; simpa [ser, Line.empty] using ih
    · split
      · next h => rw [h] at ih; simpa [ser, Line.cons] using ih
      · next h => rw [h] at ih; simpa [ser, Line.cons] using ih

theorem split_line (l : Line nl) (t : List α) :
    split nl (l.1 ++ nl :: t) = (l :: (split nl t).1, (split nl t).2) := by
  obtain ⟨l, hl⟩ := l
  induction l with
  | nil => simp [split, Line.empty]
  | cons c l ih =>
    rw [List.mem_cons, not_or] at hl
    have h := ih hl.2
    dsimp only at h
    rw [List.cons_append, split, dif_neg (Ne.symm hl.1), h]
    rfl

theorem split_rest (r : Line nl) : split nl r.1 = ([], r) := by
  obtain ⟨r, hr⟩ := r
  induction r with
  | nil => rfl
  | cons c r ih =>
    rw [List.mem_cons, not_or] at hr
    have h := ih hr.2
    dsimp only at h
    rw [split, dif_neg (Ne.symm hr.1), h]
    rfl

theorem split_append (ls : List (Line nl)) (t : List α) :
    split nl (ser ls ++ t) = (ls ++ (split nl t).1, (split nl t).2) := by
  induction ls with
  | nil => rfl
  | cons l ls ih =>
    rw [ser, List.append_assoc, List.cons_append, split_line, ih]
    rfl

theorem split_join (ls : List (Line nl)) (r : Line nl) : split nl (ser ls ++ r.1) = (ls, r) := by
  rw [split_append, split_rest, List.append_nil]

theorem count_ser (ls : List (Line nl)) : (ser ls).count nl = ls.length := by
  induction ls with
  | nil => rfl
  | cons l ls ih => simp [ser, ih, List.count_eq_zero_of_not_mem l.2]

/-- The lines of a text: a terminator at the end of the text starts no line. -/
def lines (nl : α) (t : List α) : List (Line nl) :=
  (split nl t).1 ++ if (split nl t).2.1 = [] then [] else [(split nl t).2]

theorem lines_join (ls : List (Line nl)) (r : Line nl) :
    lines nl (ser ls ++ r.1) = ls ++ if r.1 = [] then [] else [r] := by
  rw [lines, split_join]

/-! ## A text with a point -/

/-- `before` is the text before the point, nearest character first. -/
structure Zipper (α : Type*) where
  before : List α
  after : List α
  deriving DecidableEq, Repr

namespace Zipper

def text (z : Zipper α) : List α := z.before.reverse ++ z.after

/-- To the beginning of the line. -/
def bol (nl : α) (z : Zipper α) : Zipper α :=
  ⟨z.before.dropWhile (· != nl), (z.before.takeWhile (· != nl)).reverse ++ z.after⟩

/-- To the end of the line. -/
def eol (nl : α) (z : Zipper α) : Zipper α :=
  ⟨(z.after.takeWhile (· != nl)).reverse ++ z.before, z.after.dropWhile (· != nl)⟩

/-- To the beginning of the next line, if a terminator is left. -/
def forward (nl : α) (z : Zipper α) : Option (Zipper α) :=
  match (z.eol nl).after with
  | [] => none
  | c :: rest => some ⟨c :: (z.eol nl).before, rest⟩

/-- To the beginning of the previous line, if there is one. -/
def backward (nl : α) (z : Zipper α) : Option (Zipper α) :=
  match (z.bol nl).before with
  | [] => none
  | c :: rest => some (Zipper.bol nl ⟨rest, c :: (z.bol nl).after⟩)

def insert (s : List α) (z : Zipper α) : Zipper α := ⟨s.reverse ++ z.before, z.after⟩

/-- What is deleted from the point through the next terminator, and the rest. -/
def cutLine (nl : α) (z : Zipper α) : List α × Zipper α :=
  match (z.eol nl).after with
  | [] => (z.after, ⟨z.before, []⟩)
  | c :: rest => (z.after.takeWhile (· != nl) ++ [c], ⟨z.before, rest⟩)

variable (nl) in
@[simp] theorem text_bol (z : Zipper α) : (z.bol nl).text = z.text := by
  simp only [text, bol]
  rw [← List.append_assoc, ← List.reverse_append, List.takeWhile_append_dropWhile]

variable (nl) in
@[simp] theorem text_eol (z : Zipper α) : (z.eol nl).text = z.text := by
  simp only [text, eol]
  rw [List.reverse_append, List.reverse_reverse, List.append_assoc,
    List.takeWhile_append_dropWhile]

theorem text_backward {z z' : Zipper α} (h : z.backward nl = some z') : z'.text = z.text := by
  unfold backward at h
  split at h
  · cases h
  · next c rest hc =>
    cases h
    rw [text_bol, ← text_bol nl z]
    simp [text, hc]

end Zipper

/-! ## The beginnings of the lines -/

/-- The point at the beginning of line `k`; line `ls.length` is the rest `r`. -/
def lineAt (ls : List (Line nl)) (r : Line nl) (k : Nat) : Zipper α :=
  ⟨(ser (ls.take k)).reverse, ser (ls.drop k) ++ r.1⟩

omit [DecidableEq α] in
@[simp] theorem text_lineAt (ls : List (Line nl)) (r : Line nl) (k : Nat) :
    (lineAt ls r k).text = ser ls ++ r.1 := by
  simp only [lineAt, Zipper.text, List.reverse_reverse]
  rw [← List.append_assoc, ← ser_append, List.take_append_drop]

theorem takeWhile_line {l : List α} (hl : nl ∉ l) (t : List α) :
    (l ++ nl :: t).takeWhile (· != nl) = l ∧ (l ++ nl :: t).dropWhile (· != nl) = nl :: t := by
  have hne : ∀ c ∈ l, (c != nl) = true := by
    rintro c hc
    simpa using ne_of_mem_of_not_mem hc hl
  rw [List.takeWhile_append_of_pos hne, List.dropWhile_append_of_pos hne]
  simp

theorem takeWhile_rest {r : List α} (hr : nl ∉ r) :
    r.takeWhile (· != nl) = r ∧ r.dropWhile (· != nl) = [] := by
  have hne : ∀ c ∈ r, (c != nl) = true := by
    rintro c hc
    simpa using ne_of_mem_of_not_mem hc hr
  exact ⟨List.takeWhile_eq_self_iff.2 hne, List.dropWhile_eq_nil_iff.2 hne⟩

omit [DecidableEq α] in
/-- Behind terminated lines there is nothing or a terminator. -/
theorem ser_reverse (ls : List (Line nl)) :
    (ser ls).reverse = [] ∨ ∃ t, (ser ls).reverse = nl :: t := by
  induction ls using List.reverseRecOn with
  | nil => exact .inl rfl
  | append_singleton ls l _ =>
    exact .inr ⟨l.1.reverse ++ (ser ls).reverse, by simp [ser_append, ser]⟩

theorem bol_of_line {col : List α} (hcol : nl ∉ col) (ls : List (Line nl)) (after : List α) :
    Zipper.bol nl ⟨col ++ (ser ls).reverse, after⟩ =
      ⟨(ser ls).reverse, col.reverse ++ after⟩ := by
  rcases ser_reverse ls with h | ⟨t, h⟩
  · obtain ⟨h1, h2⟩ := takeWhile_rest hcol
    rw [h, List.append_nil, Zipper.bol, h1, h2]
  · obtain ⟨h1, h2⟩ := takeWhile_line hcol t
    rw [h, Zipper.bol, h1, h2]

@[simp] theorem bol_lineAt (ls : List (Line nl)) (r : Line nl) (k : Nat) :
    (lineAt ls r k).bol nl = lineAt ls r k :=
  bol_of_line List.not_mem_nil _ _

section
variable {ls : List (Line nl)} {r : Line nl} {k : Nat}

omit [DecidableEq α] in
theorem lineAt_before_succ (hk : k < ls.length) :
    (lineAt ls r (k + 1)).before = nl :: (ls[k].1.reverse ++ (lineAt ls r k).before) := by
  simp only [lineAt]
  rw [List.take_succ_eq_append_getElem hk, ser_append]
  simp [ser]

omit [DecidableEq α] in
theorem lineAt_after (hk : k < ls.length) :
    (lineAt ls r k).after = ls[k].1 ++ nl :: (lineAt ls r (k + 1)).after := by
  simp only [lineAt]
  rw [List.drop_eq_getElem_cons hk]
  simp [ser]

omit [DecidableEq α] in
theorem lineAt_after_rest : (lineAt ls r ls.length).after = r.1 := by
  simp [lineAt, ser]

theorem eol_lineAt (hk : k < ls.length) :
    (lineAt ls r k).eol nl =
      ⟨ls[k].1.reverse ++ (lineAt ls r k).before, nl :: (lineAt ls r (k + 1)).after⟩ := by
  obtain ⟨h1, h2⟩ := takeWhile_line ls[k].2 (lineAt ls r (k + 1)).after
  rw [Zipper.eol, lineAt_after hk, h1, h2]

theorem eol_rest : (lineAt ls r ls.length).eol nl =
    ⟨r.1.reverse ++ (lineAt ls r ls.length).before, []⟩ := by
  obtain ⟨h1, h2⟩ := takeWhile_rest r.2
  rw [Zipper.eol, lineAt_after_rest, h1, h2]

theorem forward_lineAt (hk : k < ls.length) :
    (lineAt ls r k).forward nl = some (lineAt ls r (k + 1)) := by
  simp only [Zipper.forward, eol_lineAt hk]
  rw [← lineAt_before_succ hk]

theorem forward_rest : (lineAt ls r ls.length).forward nl = none := by
  simp only [Zipper.forward, eol_rest]

theorem backward_zero {z : Zipper α} (h : z.bol nl = lineAt ls r 0) : z.backward nl = none := by
  simp [Zipper.backward, h, lineAt, ser]

theorem backward_succ {z : Zipper α} (hk : k < ls.length) (h : z.bol nl = lineAt ls r (k + 1)) :
    z.backward nl = some (lineAt ls r k) := by
  have hline : nl ∉ ls[k].1.reverse := by simpa using ls[k].2
  simp only [Zipper.backward, h, lineAt_before_succ hk]
  show some (Zipper.bol nl ⟨ls[k].1.reverse ++ (ser (ls.take k)).reverse, _⟩) = _
  rw [bol_of_line hline, List.reverse_reverse, ← lineAt_after hk]
  rfl

theorem cutLine_lineAt (hk : k < ls.length) :
    (lineAt ls r k).cutLine nl = (ls[k].1 ++ [nl], lineAt (ls.eraseIdx k) r k) := by
  have hcut : lineAt (ls.eraseIdx k) r k =
      ⟨(lineAt ls r k).before, (lineAt ls r (k + 1)).after⟩ := by
    simp only [lineAt]
    rw [List.take_eraseIdx_eq_take_of_le _ _ _ le_rfl, List.eraseIdx_eq_take_drop_succ,
      List.drop_left' (by simp; omega)]
  obtain ⟨h1, -⟩ := takeWhile_line ls[k].2 (lineAt ls r (k + 1)).after
  simp only [Zipper.cutLine, eol_lineAt hk]
  rw [lineAt_after hk, h1, hcut]

theorem cutLine_rest :
    (lineAt ls r ls.length).cutLine nl = (r.1, lineAt ls .empty ls.length) := by
  simp only [Zipper.cutLine, eol_rest]
  rw [lineAt_after_rest]
  simp [lineAt, ser, Line.empty]

omit [DecidableEq α] in
theorem insert_lineAt (hk : k ≤ ls.length) (l : Line nl) :
    (lineAt ls r k).insert (l.1 ++ [nl]) = lineAt (ls.insertIdx k l) r (k + 1) := by
  have hlen : k < (ls.insertIdx k l).length := by
    rw [List.length_insertIdx_of_le_length hk]
    omega
  have hdrop : (ls.insertIdx k l).drop (k + 1) = ls.drop k :=
    List.ext_getElem (by grind) (by grind)
  have htake : (ls.insertIdx k l).take (k + 1) = ls.take k ++ [l] := by
    rw [List.take_succ_eq_append_getElem hlen, List.take_insertIdx_eq_take_of_le _ _ _ _ le_rfl]
    simp
  simp only [lineAt, Zipper.insert, hdrop, htake]
  simp [ser_append, ser]

end

variable (nl) in
/-- Every text with a point is on a line of its text: as many lines come before
as there are terminators. -/
theorem bol_eq_lineAt (z : Zipper α) :
    z.bol nl = lineAt (split nl z.text).1 (split nl z.text).2 (z.before.count nl) ∧
      z.before.count nl ≤ (split nl z.text).1.length := by
  obtain ⟨before, after⟩ := z
  obtain ⟨ls, r, hbefore⟩ : ∃ (ls : List (Line nl)) (r : Line nl),
      before = r.1.reverse ++ (ser ls).reverse :=
    ⟨_, _, by rw [← List.reverse_append, join_split nl before.reverse, List.reverse_reverse]⟩
  subst hbefore
  have hr : nl ∉ r.1.reverse := by simpa using r.2
  have hcount : (r.1.reverse ++ (ser ls).reverse).count nl = ls.length := by
    simp [count_ser, List.count_eq_zero_of_not_mem r.2]
  have htext : Zipper.text ⟨r.1.reverse ++ (ser ls).reverse, after⟩ = ser ls ++ (r.1 ++ after) := by
    simp [Zipper.text]
  rw [hcount, htext, split_append, bol_of_line hr]
  refine ⟨?_, by simp⟩
  simp [lineAt, join_split]

/-! ## Points within a line -/

/-- The point after `j` characters of line `k`. -/
def inLine (ls : List (Line nl)) (r : Line nl) (k j : Nat) : Zipper α :=
  ⟨((lineAt ls r k).after.take j).reverse ++ (lineAt ls r k).before, (lineAt ls r k).after.drop j⟩

variable (nl) in
theorem count_bol (z : Zipper α) : (z.bol nl).before.count nl = z.before.count nl := by
  have htake : nl ∉ z.before.takeWhile (· != nl) := fun h => by
    simpa using List.mem_takeWhile_imp h
  have happ := congrArg (List.count nl) (List.takeWhile_append_dropWhile (p := (· != nl))
    (l := z.before))
  rw [List.count_append, List.count_eq_zero_of_not_mem htake, Nat.zero_add] at happ
  exact happ

section
variable {ls : List (Line nl)} {r : Line nl} {k : Nat}

theorem count_of_bol {z : Zipper α} (hk : k ≤ ls.length) (hz : z.bol nl = lineAt ls r k) :
    z.before.count nl = k := by
  rw [← count_bol, hz]
  simp [lineAt, count_ser, hk]

theorem text_of_bol {z : Zipper α} (hz : z.bol nl = lineAt ls r k) :
    z.text = ser ls ++ r.1 := by
  rw [← Zipper.text_bol nl z, hz, text_lineAt]

theorem inLine_of_bol {z : Zipper α} (hk : k < ls.length) (hz : z.bol nl = lineAt ls r k) :
    ∃ j, j ≤ ls[k].1.length ∧ z = inLine ls r k j := by
  obtain ⟨before, after⟩ := z
  have hnl : nl ∉ (before.takeWhile (· != nl)).reverse := fun h => by
    simpa using List.mem_takeWhile_imp (List.mem_reverse.1 h)
  have hbefore : before.dropWhile (· != nl) = (lineAt ls r k).before := congrArg Zipper.before hz
  have hafter : (before.takeWhile (· != nl)).reverse ++ after = (lineAt ls r k).after :=
    congrArg Zipper.after hz
  have hsplit := List.takeWhile_append_dropWhile (p := (· != nl)) (l := before)
  generalize (before.takeWhile (· != nl)) = col at hnl hafter hsplit
  refine ⟨col.length, ?_, ?_⟩
  · -- a terminator stands at the end of the line
    by_contra hlen
    have hmem := congrArg (fun t => t[ls[k].1.length]?) hafter
    simp only [lineAt_after hk] at hmem
    rw [List.getElem?_append_left (by simp; omega)] at hmem
    exact hnl (List.mem_of_getElem? (by simpa using hmem))
  · unfold inLine
    rw [← hafter, List.take_left' (by simp), List.drop_left' (by simp), List.reverse_reverse,
      ← hbefore, hsplit]

omit [DecidableEq α] in
theorem inLine_eq {j : Nat} (hk : k < ls.length) (hj : j ≤ ls[k].1.length) :
    inLine ls r k j = ⟨(ls[k].1.take j).reverse ++ (lineAt ls r k).before,
      ls[k].1.drop j ++ nl :: (lineAt ls r (k + 1)).after⟩ := by
  unfold inLine
  rw [lineAt_after hk, List.take_append_of_le_length hj, List.drop_append_of_le_length hj]

theorem bol_inLine {j : Nat} (hk : k < ls.length) (hj : j ≤ ls[k].1.length) :
    (inLine ls r k j).bol nl = lineAt ls r k ∧
      (inLine ls r k j).before.takeWhile (· != nl) = (ls[k].1.take j).reverse := by
  have hcol : nl ∉ (ls[k].1.take j).reverse := fun h =>
    ls[k].2 (List.mem_of_mem_take (List.mem_reverse.1 h))
  have hbefore : (lineAt ls r k).before = (ser (ls.take k)).reverse := rfl
  rw [inLine_eq hk hj]
  constructor
  · rw [hbefore, bol_of_line hcol, List.reverse_reverse, ← List.append_assoc,
      List.take_append_drop, ← lineAt_after hk]
    rfl
  · show (_ ++ (ser (ls.take k)).reverse).takeWhile _ = _
    rcases ser_reverse (ls.take k) with h | ⟨t, h⟩
    · rw [h, List.append_nil]
      exact (takeWhile_rest hcol).1
    · rw [h]
      exact (takeWhile_line hcol t).1

end

end EmacsConfig.Lines
