import EmacsConfig.Lib.Lines
import Mathlib.Data.List.GetD
import Mathlib.Data.List.Infix

/-!
# Literal search (global/literal.c)

`literal_comple` makes a table of nodes for the words of a pattern, which a newline
separates: the nodes with one prefix read are a list of alternatives, and fail links lead to
shorter prefixes. `literal_search` runs over a file with it and shows the lines in which it
arrives at the end of a word. Whatever the links are, such a line has a word in it.
-/

namespace EmacsConfig.Global.Literal

open Lines

def maxSiz : ℕ := 6000

def qSize : ℕ := 400

/-- Why a function does not return a result. -/
inductive Halt where
  /-- "wordlist too large." -/
  | overflo
  /-- "mmap failed": a file of size 0 -/
  | mmapFailed
  /-- a null pointer, or a place behind an array -/
  | undefined
  /-- more rounds than were given -/
  | running
  deriving DecidableEq, Repr

/-- `inp` is `'\x00'` for no character. -/
structure Words where
  inp : Char
  out : Bool
  nst : Option ℕ
  link : Option ℕ
  fail : Option ℕ
  deriving DecidableEq, Repr

def Words.zero : Words := ⟨'\x00', false, none, none, none⟩

/-- The nodes from `w` to `smax`. -/
abbrev Table := List Words

def Table.node (w : Table) (i : ℕ) : Words := w.getD i .zero

def deref : Option ℕ → Except Halt ℕ
  | none => .error .undefined
  | some i => .ok i

/-! ## The goto table -/

/-- `++smax` -/
def grow (w : Table) : Except Halt Table :=
  if maxSiz ≤ w.length then .error .overflo else .ok (w ++ [.zero])

/-- Where the label `loop` ends. -/
inductive Place where
  | follow (s : ℕ)
  | enter (w : Table) (s : ℕ)

def place (c : Char) : ℕ → Table → ℕ → Except Halt Place
  | 0, _, _ => .error .running
  | n + 1, w, s =>
    if (w.node s).inp = c then (deref (w.node s).nst).map .follow
    else if (w.node s).inp = '\x00' then .ok (.enter w s)
    else
      match (w.node s).link with
      | none =>
        (grow w).map fun w' =>
          .enter (w'.modify s fun x => { x with link := some w.length }) w.length
      | some t => place c n w t

/-- One round of the label `enter`; the new `smax` is `w.length`. -/
def enter (c : Char) (w : Table) (s : ℕ) : Except Halt Table :=
  (grow w).map fun w' => w'.modify s fun x => { x with inp := c, nst := some w.length }

def setOut (w : Table) (s : ℕ) : Table := w.modify s fun x => { x with out := true }

/-- `cgotofn`; `entered` says that the loop is the one of the label `enter`. -/
def cgotofn : List Char → Bool → Table → ℕ → Except Halt Table
  | [], entered, w, s => .ok (if entered then setOut w s else w)
  | c :: pattern, entered, w, s =>
    if c = '\n' then cgotofn pattern false (setOut w s) 0
    else if entered then
      (enter c w s).bind fun w' => cgotofn pattern true w' w.length
    else
      (place c w.length w s).bind fun
        | .follow t => cgotofn pattern false w t
        | .enter w s => (enter c w s).bind fun w' => cgotofn pattern true w' w.length

/-! ## The fail links -/

structure Queue where
  cells : List ℕ
  front : ℕ
  rear : ℕ
  deriving DecidableEq, Repr

/-- What stands in `queue` before it is written is not read. -/
def Queue.empty : Queue := ⟨List.replicate qSize 0, 0, 0⟩

def Queue.pushStart (q : Queue) (s : ℕ) : Except Halt Queue :=
  if qSize - 1 ≤ q.rear + 1 then .error .overflo
  else .ok { q with cells := q.cells.set q.rear s, rear := q.rear + 1 }

def Queue.push (q : Queue) (s : ℕ) : Except Halt Queue :=
  if qSize ≤ q.rear then .error .undefined
  else
    let cells := q.cells.set q.rear s
    if q.front < q.rear then
      if qSize - 1 ≤ q.rear then
        if q.front = 0 then .error .overflo else .ok { q with cells := cells, rear := 0 }
      else .ok { q with cells := cells, rear := q.rear + 1 }
    else if q.rear + 1 = q.front then .error .overflo
    else .ok { q with cells := cells, rear := q.rear + 1 }

def Queue.head (q : Queue) : ℕ := q.cells.getD q.front 0

def Queue.pop (q : Queue) : Queue :=
  { q with front := if q.front = qSize - 1 then 0 else q.front + 1 }

/-- The label `init`. -/
def startQueue (w : Table) : ℕ → ℕ → Queue → Except Halt Queue
  | 0, _, _ => .error .running
  | n + 1, s, q =>
    (if (w.node s).inp = '\x00' then .ok q else (deref (w.node s).nst).bind q.pushStart).bind
      fun q =>
        match (w.node s).link with
        | none => .ok q
        | some t => startQueue w n t q

/-- The label `floop`: the node that goes on with `c`; from the fail state it goes back to `w`. -/
def findFail (w : Table) (c : Char) : ℕ → Option ℕ → Bool → Except Halt (Option ℕ)
  | 0, _, _ => .error .running
  | n + 1, state, bstart =>
    if (w.node (state.getD 0)).inp = c then .ok (some (state.getD 0))
    else
      match (w.node (state.getD 0)).link with
      | some t => findFail w c n (some t) (bstart || state.isNone)
      | none => if bstart || state.isNone then .ok none else findFail w c n none false

/-- The label `qloop`. -/
def setFail (t : ℕ) : ℕ → Table → ℕ → Except Halt Table
  | 0, _, _ => .error .running
  | n + 1, w, q =>
    let w' : Table := w.modify q fun x => { x with fail := some t, out := x.out || (w.node t).out }
    match (w'.node q).link with
    | none => .ok w'
    | some q' => setFail t n w' q'

/-- The fail links of the state that the node `s` goes to. -/
def linkNext (fuel : ℕ) (w : Table) (s q : ℕ) : Except Halt Table :=
  (findFail w (w.node s).inp fuel (w.node s).fail false).bind fun
    | none => .ok w
    | some f => (deref (w.node f).nst).bind fun t => setFail t fuel w q

/-- The label `cloop`. -/
def cloop (fuel : ℕ) : ℕ → Table → Queue → ℕ → Except Halt (Table × Queue)
  | 0, _, _, _ => .error .running
  | n + 1, w, queue, s =>
    (if (w.node s).inp = '\x00' then .ok (w, queue)
      else (deref (w.node s).nst).bind fun q => (queue.push q).bind fun queue =>
        (linkNext fuel w s q).map fun w => (w, queue)).bind
      fun (w, queue) =>
        match (w.node s).link with
        | none => .ok (w, queue)
        | some t => cloop fuel n w queue t

/-- The outer loop. -/
def drain (fuel : ℕ) : ℕ → Table → Queue → Except Halt Table
  | 0, _, _ => .error .running
  | n + 1, w, queue =>
    if queue.rear = queue.front then .ok w
    else (cloop fuel fuel w queue.pop queue.head).bind fun (w, queue) => drain fuel n w queue

def cfail (fuel : ℕ) (w : Table) : Except Halt Table :=
  (startQueue w fuel 0 .empty).bind (drain fuel fuel w)

/-- `literal_comple` -/
def literalComple (fuel : ℕ) (pattern : List Char) : Except Halt Table :=
  (cgotofn pattern false [.zero] 0).bind (cfail fuel)

/-! ## The search -/

/-- The options. -/
structure Options where
  iflag : Bool
  vflag : Bool
  pathOnly : Bool
  deriving DecidableEq, Repr

/-- `lca` -/
def fold (iflag : Bool) (c : Char) : Char := if iflag then c.toLower else c

def ccomp (iflag : Bool) (a b : Char) : Bool := fold iflag a = fold iflag b

/-- The label `istate`. -/
def istate (iflag : Bool) (w : Table) (x : Char) : ℕ → ℕ → Except Halt ℕ
  | 0, _ => .error .running
  | n + 1, c =>
    if ccomp iflag (w.node c).inp x then deref (w.node c).nst
    else
      match (w.node c).link with
      | some t => istate iflag w x n t
      | none => .ok c

/-- The label `nstate`. -/
def nstate (iflag : Bool) (w : Table) (x : Char) : ℕ → ℕ → Except Halt ℕ
  | 0, _ => .error .running
  | n + 1, c =>
    if ccomp iflag (w.node c).inp x then deref (w.node c).nst
    else
      match (w.node c).link with
      | some t => nstate iflag w x n t
      | none =>
        match (w.node c).fail with
        | some f => nstate iflag w x n f
        | none => istate iflag w x (n + 1) 0

/-- What is put out: the path alone, or a line with its number. -/
inductive Shown where
  | path
  | line (lineno : ℕ) (image : List Char)
  deriving DecidableEq, Repr

def unputc (c : Char) (s : List Char) : List Char := if s.getLast? = some c then s.dropLast else s

/-- The label `succeed`, with what comes after it. -/
def succeed (opts : Options) (lineno : ℕ) (lineText : List Char)
    (rest : Except Halt (List Shown)) : Except Halt (List Shown) :=
  if opts.pathOnly then .ok [.path]
  else rest.map (.line lineno (unputc '\r' (unputc '\n' lineText)) :: ·)

/-- The inner loop, which goes to the end of a line that is found, at the character `x`; `lineText`
is the line with it. `next` and `stay` go on behind it with the next line and with this one. -/
def innerLoop (opts : Options) (x : Char) (ccount : ℕ) (lineText : List Char) (lineno : ℕ)
    (next : ℕ → Except Halt (List Shown)) (stay : Except Halt (List Shown)) :
    Except Halt (List Shown) :=
  let found (rest : Except Halt (List Shown)) :=
    if opts.vflag then rest else succeed opts lineno lineText rest
  if x = '\n' then found (next ccount)
  else if ccount ≤ 1 then found (next (ccount - 1))
  else stay

/-- The loop over the text at `p`, with `ccount` characters left to count; `seen` is the text from
`linep` on, and `c` is `none` in the inner loop. -/
def scan (opts : Options) (fuel : ℕ) (w : Table) :
    List Char → ℕ → List Char → ℕ → Option ℕ → Except Halt (List Shown)
  | [], ccount, _, _, some _ => if ccount ≤ 1 then .ok [] else .error .undefined
  | [], _, _, _, none => .error .undefined
  | x :: p, ccount, seen, lineno, some c =>
    let next k := scan opts fuel w p k [] (lineno + 1) (some 0)
    if ccount ≤ 1 then .ok []
    else
      (nstate opts.iflag w x fuel c).bind fun c' =>
        if (w.node c').out then
          innerLoop opts x (ccount - 1) (seen ++ [x]) lineno next
            (scan opts fuel w p (ccount - 1 - 1) (seen ++ [x]) lineno none)
        else if x = '\n' then
          if opts.vflag then succeed opts lineno (seen ++ [x]) (next (ccount - 1))
          else next (ccount - 1)
        else scan opts fuel w p (ccount - 1) (seen ++ [x]) lineno (some c')
  | x :: p, ccount, seen, lineno, none =>
    innerLoop opts x ccount (seen ++ [x]) lineno
      (fun k => scan opts fuel w p k [] (lineno + 1) (some 0))
      (scan opts fuel w p (ccount - 1) (seen ++ [x]) lineno none)

/-- `literal_search` -/
def literalSearch (opts : Options) (fuel : ℕ) (w : Table) (file : List Char) :
    Except Halt (List Shown) :=
  if file = [] then .error .mmapFailed
  else scan opts fuel w file file.length [] 1 (some 0)

/-! ## Nodes -/

theorem of_bind_ok {α β : Type} {x : Except Halt α} {f : α → Except Halt β} {b : β}
    (h : x.bind f = .ok b) : ∃ a, x = .ok a ∧ f a = .ok b := by
  cases x with
  | error => cases h
  | ok a => exact ⟨a, rfl, h⟩

theorem of_map_ok {α β : Type} {x : Except Halt α} {f : α → β} {b : β} (h : x.map f = .ok b) :
    ∃ a, x = .ok a ∧ f a = b := by
  cases x with
  | error => cases h
  | ok a => exact ⟨a, rfl, Except.ok.inj h⟩

theorem of_deref_ok {p : Option ℕ} {i : ℕ} (h : deref p = .ok i) : p = some i := by
  cases p with
  | none => cases h
  | some j => rw [Except.ok.inj h]

section

variable {w w' : Table} {f : Words → Words} {i s : ℕ}

theorem node_modify (hs : s < w.length) :
    Table.node (w.modify s f) i = if i = s then f (w.node i) else w.node i := by
  rw [Table.node, Table.node, List.getD_eq_getElem?_getD, List.getElem?_modify]
  by_cases his : s = i
  · subst his
    rw [List.getD_eq_getElem?_getD, List.getElem?_eq_getElem hs]
    simp
  · rw [List.getD_eq_getElem?_getD]
    simp [his, Ne.symm his]

theorem node_of_le (h : w.length ≤ i) : w.node i = .zero := List.getD_eq_default _ _ h

/-- A new node is as the nodes behind the table. -/
theorem grow_eq (h : grow w = .ok w') :
    w'.length = w.length + 1 ∧ ∀ i, w'.node i = w.node i := by
  unfold grow at h
  split_ifs at h
  cases h
  refine ⟨List.length_append, fun i => ?_⟩
  rw [Table.node, Table.node]
  by_cases hlt : i < w.length
  · rw [List.getD_append _ _ _ _ hlt]
  · rw [List.getD_append_right _ _ _ _ (not_lt.1 hlt), List.getD_eq_default _ _ (not_lt.1 hlt)]
    cases i - w.length <;> rfl

end

/-! ## What the nodes stand for -/

/-- A node for the prefix `u`, in a table of the length `size` whose nodes stand for `lab`. -/
structure Sound (words : List (List Char)) (size : ℕ) (lab : ℕ → List Char) (u : List Char)
    (x : Words) : Prop where
  nst : ∀ {j}, x.nst = some j → lab j = u ++ [x.inp] ∧ j < size
  link : ∀ {j}, x.link = some j → lab j = u ∧ j < size
  fail : ∀ {j}, x.fail = some j → lab j <:+ u ∧ j < size
  out : x.out → ∃ word ∈ words, word <:+ u

structure Labelled (words : List (List Char)) (lab : ℕ → List Char) (w : Table) : Prop where
  root : lab 0 = []
  pos : 0 < w.length
  node : ∀ i, Sound words w.length lab (lab i) (w.node i)

section

variable {words : List (List Char)} {lab : ℕ → List Char} {w w' : Table} {c : Char} {s t : ℕ}

theorem sound_zero (size : ℕ) (u : List Char) : Sound words size lab u .zero :=
  ⟨nofun, nofun, nofun, nofun⟩

theorem Sound.mono {size size' : ℕ} {lab' : ℕ → List Char} {u : List Char} {x : Words}
    (h : Sound words size lab u x) (hsize : size ≤ size') (hlab : ∀ j < size, lab' j = lab j) :
    Sound words size' lab' u x := by
  refine ⟨fun hj => ?_, fun hj => ?_, fun hj => ?_, h.out⟩
  · obtain ⟨hj, hlt⟩ := h.nst hj
    exact ⟨(hlab _ hlt).trans hj, hlt.trans_le hsize⟩
  · obtain ⟨hj, hlt⟩ := h.link hj
    exact ⟨(hlab _ hlt).trans hj, hlt.trans_le hsize⟩
  · obtain ⟨hj, hlt⟩ := h.fail hj
    exact ⟨by rwa [hlab _ hlt], hlt.trans_le hsize⟩

/-- One more node, for a prefix of any kind. -/
theorem Labelled.grow (h : Labelled words lab w) (hgrow : grow w = .ok w') (u : List Char) :
    Labelled words (Function.update lab w.length u) w' := by
  obtain ⟨hlen, hnode⟩ := grow_eq hgrow
  have hold : ∀ j < w.length, Function.update lab w.length u j = lab j := fun j hj =>
    Function.update_of_ne hj.ne _ _
  refine ⟨(hold 0 h.pos).trans h.root, by omega, fun i => ?_⟩
  rw [hnode, hlen]
  by_cases hi : i < w.length
  · rw [hold i hi]
    exact (h.node i).mono (Nat.le_succ _) hold
  · rw [node_of_le (not_lt.1 hi)]
    exact sound_zero _ _

/-- A change of one node. -/
theorem Labelled.modify (h : Labelled words lab w) (hs : s < w.length) {f : Words → Words}
    (hf : Sound words w.length lab (lab s) (f (w.node s))) : Labelled words lab (w.modify s f) := by
  have hlen : (w.modify s f).length = w.length := List.length_modify _ _ _
  refine ⟨h.root, hlen ▸ h.pos, fun i => ?_⟩
  rw [hlen, node_modify hs]
  split_ifs with his
  · rw [his]
    exact hf
  · exact h.node i

theorem Labelled.setOut (h : Labelled words lab w) (hs : s < w.length) (hword : lab s ∈ words) :
    Labelled words lab (setOut w s) := by
  have hnode := h.node s
  exact h.modify hs ⟨hnode.nst, hnode.link, hnode.fail, fun _ => ⟨_, hword, List.suffix_rfl⟩⟩

/-! ## The goto table stands for the words -/

theorem Labelled.enter (h : Labelled words lab w) (hs : s < w.length) (henter : enter c w s = .ok w') :
    ∃ lab', Labelled words lab' w' ∧ lab' w.length = lab s ++ [c] ∧ w.length < w'.length := by
  obtain ⟨g, hgrow, rfl⟩ := of_map_ok henter
  obtain ⟨hlen, hnode⟩ := grow_eq hgrow
  have hg := h.grow hgrow (lab s ++ [c])
  have hold : Function.update lab w.length (lab s ++ [c]) s = lab s :=
    Function.update_of_ne hs.ne _ _
  have hnew : Function.update lab w.length (lab s ++ [c]) w.length = lab s ++ [c] :=
    Function.update_self _ _ _
  have hsound := hg.node s
  rw [hold] at hsound
  refine ⟨_, hg.modify (by omega) ⟨?_, ?_, ?_, ?_⟩, hnew, by rw [List.length_modify]; omega⟩
  · rintro j ⟨⟩
    rw [hnew, hold]
    exact ⟨rfl, by omega⟩
  · rw [hold]
    exact hsound.link
  · rw [hold]
    exact hsound.fail
  · rw [hold]
    exact hsound.out

/-- The node that goes on with `c` behind the prefix `u`, or the one that will. -/
def Placed (words : List (List Char)) (lab : ℕ → List Char) (w : Table) (u : List Char) (c : Char) :
    Place → Prop
  | .follow t => lab t = u ++ [c] ∧ t < w.length
  | .enter w' t => ∃ lab', Labelled words lab' w' ∧ lab' t = u ∧ t < w'.length

theorem Labelled.place (h : Labelled words lab w) (hs : s < w.length) {n : ℕ} {found : Place}
    (hplace : place c n w s = .ok found) : Placed words lab w (lab s) c found := by
  induction n generalizing s with
  | zero => cases hplace
  | succ n ih =>
    rw [Literal.place] at hplace
    split_ifs at hplace with hc hzero
    · obtain ⟨t, hderef, rfl⟩ := of_map_ok hplace
      exact hc ▸ (h.node s).nst (of_deref_ok hderef)
    · cases hplace
      exact ⟨lab, h, rfl, hs⟩
    · cases hlink : (w.node s).link with
      | some t =>
        rw [hlink] at hplace
        obtain ⟨hlab, hlt⟩ := (h.node s).link hlink
        have := ih hlt hplace
        rwa [hlab] at this
      | none =>
        rw [hlink] at hplace
        obtain ⟨g, hgrow, rfl⟩ := of_map_ok hplace
        obtain ⟨hlen, hnode⟩ := grow_eq hgrow
        have hg := h.grow hgrow (lab s)
        have hold : Function.update lab w.length (lab s) s = lab s :=
          Function.update_of_ne hs.ne _ _
        have hnew : Function.update lab w.length (lab s) w.length = lab s :=
          Function.update_self _ _ _
        have hsound := hg.node s
        rw [hold] at hsound
        refine ⟨_, hg.modify (by omega) ⟨?_, ?_, ?_, ?_⟩, hnew, by rw [List.length_modify]; omega⟩
        · rw [hold]
          exact hsound.nst
        · rintro j ⟨⟩
          rw [hnew, hold]
          exact ⟨rfl, by omega⟩
        · rw [hold]
          exact hsound.fail
        · rw [hold]
          exact hsound.out

/-- The words of a pattern. -/
def wordsOf (pattern : List Char) : List (List Char) :=
  ((split '\n' pattern).1 ++ [(split '\n' pattern).2]).map (·.1)

theorem Labelled.cgotofn {full pattern : List Char} {entered : Bool} (ls : List (Line '\n'))
    (h : Labelled (wordsOf full) lab w) (hs : s < w.length) (hnl : '\n' ∉ lab s)
    (hfull : full = ser ls ++ (lab s ++ pattern))
    (hrun : cgotofn pattern entered w s = .ok w') : ∃ lab', Labelled (wordsOf full) lab' w' := by
  induction pattern generalizing entered w s lab ls with
  | nil =>
    rw [Literal.cgotofn] at hrun
    split_ifs at hrun with hentered
    · have hword : lab s ∈ wordsOf full := by
        rw [wordsOf, hfull, List.append_nil, split_join ls ⟨lab s, hnl⟩]
        exact List.mem_map.2 ⟨⟨lab s, hnl⟩, List.mem_append_right _ List.mem_cons_self, rfl⟩
      exact ⟨lab, Except.ok.inj hrun ▸ h.setOut hs hword⟩
    · exact ⟨lab, Except.ok.inj hrun ▸ h⟩
  | cons c pattern ih =>
    rw [Literal.cgotofn] at hrun
    -- the prefix at a node one character further on
    have hnext : ∀ {u : List Char}, u = lab s ++ [c] → c ≠ '\n' →
        '\n' ∉ u ∧ full = ser ls ++ (u ++ pattern) := by
      rintro u rfl hc
      refine ⟨by simp [hnl, Ne.symm hc], by rw [hfull]; simp⟩
    split_ifs at hrun with hc hentered
    · subst hc
      have hword : lab s ∈ wordsOf full := by
        have hline : split '\n' (lab s ++ '\n' :: pattern) =
            (⟨lab s, hnl⟩ :: (split '\n' pattern).1, (split '\n' pattern).2) :=
          split_line ⟨lab s, hnl⟩ pattern
        rw [wordsOf, hfull, split_append, hline]
        exact List.mem_map.2 ⟨⟨lab s, hnl⟩,
          List.mem_append_left _ (List.mem_append_right _ List.mem_cons_self), rfl⟩
      have hlen : (Literal.setOut w s).length = w.length := List.length_modify _ _ _
      refine ih (ls ++ [⟨lab s, hnl⟩]) (h.setOut hs hword) (hlen ▸ h.pos) ?_ ?_ hrun
      · rw [h.root]
        exact List.not_mem_nil
      · rw [h.root, hfull, ser_append]
        simp [ser]
    · obtain ⟨g, henter, hrun⟩ := of_bind_ok hrun
      obtain ⟨lab', h', hlab, hlt⟩ := h.enter hs henter
      obtain ⟨hnl', hfull'⟩ := hnext hlab hc
      exact ih ls h' hlt hnl' hfull' hrun
    · obtain ⟨found, hplace, hrun⟩ := of_bind_ok hrun
      have hfound := h.place hs hplace
      cases found with
      | follow t =>
        obtain ⟨hlab, hlt⟩ := hfound
        obtain ⟨hnl', hfull'⟩ := hnext hlab hc
        exact ih ls h hlt hnl' hfull' hrun
      | enter g t =>
        obtain ⟨lab₁, h₁, hlab₁, hlt₁⟩ := hfound
        obtain ⟨g', henter, hrun⟩ := of_bind_ok hrun
        obtain ⟨lab', h', hlab, hlt⟩ := h₁.enter hlt₁ henter
        obtain ⟨hnl', hfull'⟩ := hnext (hlab.trans (by rw [hlab₁])) hc
        exact ih ls h' hlt hnl' hfull' hrun

/-! ## The fail links lead to shorter prefixes -/

theorem Labelled.findFail (h : Labelled words lab w) {u : List Char} {n : ℕ} {state : Option ℕ}
    {bstart : Bool} {f : ℕ} (hstate : lab (state.getD 0) <:+ u)
    (hfind : findFail w c n state bstart = .ok (some f)) : lab f <:+ u ∧ (w.node f).inp = c := by
  induction n generalizing state bstart with
  | zero => cases hfind
  | succ n ih =>
    rw [Literal.findFail] at hfind
    by_cases hc : (w.node (state.getD 0)).inp = c
    · rw [if_pos hc] at hfind
      cases hfind
      exact ⟨hstate, hc⟩
    · rw [if_neg hc] at hfind
      cases hlink : (w.node (state.getD 0)).link with
      | some t =>
        rw [hlink] at hfind
        exact ih (by rwa [Option.getD_some, ((h.node _).link hlink).1]) hfind
      | none =>
        rw [hlink] at hfind
        dsimp only at hfind
        split_ifs at hfind
        · cases hfind
        · refine ih ?_ hfind
          rw [Option.getD_none, h.root]
          exact List.nil_suffix

theorem Labelled.setFail (h : Labelled words lab w) {q n : ℕ} (hq : q < w.length)
    (ht : lab t <:+ lab q) (htlt : t < w.length) (hset : setFail t n w q = .ok w') :
    Labelled words lab w' ∧ w'.length = w.length := by
  induction n generalizing w q with
  | zero => cases hset
  | succ n ih =>
    rw [Literal.setFail] at hset
    have hlen : ∀ f, (w.modify q f).length = w.length := fun f => List.length_modify _ _ _
    set w₁ : Table := w.modify q fun x =>
      { x with fail := some t, out := x.out || (w.node t).out } with hw₁
    have h₁ : Labelled words lab w₁ := by
      refine h.modify hq ⟨(h.node q).nst, (h.node q).link, ?_, fun hout => ?_⟩
      · rintro j ⟨⟩
        exact ⟨ht, htlt⟩
      · rcases Bool.or_eq_true_iff.1 hout with hout | hout
        · exact (h.node q).out hout
        · obtain ⟨word, hword, hsuffix⟩ := (h.node t).out hout
          exact ⟨word, hword, hsuffix.trans ht⟩
    have hlen₁ : w₁.length = w.length := hlen _
    cases hlink : (w₁.node q).link with
    | none =>
      rw [hlink] at hset
      exact Except.ok.inj hset ▸ ⟨h₁, hlen₁⟩
    | some q' =>
      rw [hlink] at hset
      obtain ⟨hlab, hlt⟩ := (h₁.node q).link hlink
      obtain ⟨h₂, hlen₂⟩ := ih h₁ hlt (by rwa [hlab]) (hlen₁ ▸ htlt) hset
      exact ⟨h₂, hlen₂.trans hlen₁⟩

theorem Labelled.linkNext (h : Labelled words lab w) {fuel q : ℕ} (hq : (w.node s).nst = some q)
    (hlink : linkNext fuel w s q = .ok w') : Labelled words lab w' := by
  obtain ⟨hlabq, hqlt⟩ := (h.node s).nst hq
  obtain ⟨found, hfind, hlink⟩ := of_bind_ok hlink
  cases found with
  | none => exact Except.ok.inj hlink ▸ h
  | some f =>
    have hstate : lab ((w.node s).fail.getD 0) <:+ lab s := by
      cases hfail : (w.node s).fail with
      | none =>
        rw [Option.getD_none, h.root]
        exact List.nil_suffix
      | some k => exact ((h.node s).fail hfail).1
    obtain ⟨⟨pre, hpre⟩, hinp⟩ := h.findFail hstate hfind
    obtain ⟨t, hderef, hset⟩ := of_bind_ok hlink
    obtain ⟨hlabt, htlt⟩ := (h.node f).nst (of_deref_ok hderef)
    refine (h.setFail hqlt ⟨pre, ?_⟩ htlt hset).1
    rw [hlabt, hlabq, hinp, ← List.append_assoc, hpre]

theorem Labelled.cloop (h : Labelled words lab w) {fuel n : ℕ} {queue queue' : Queue}
    (hloop : cloop fuel n w queue s = .ok (w', queue')) : Labelled words lab w' := by
  induction n generalizing w queue s with
  | zero => cases hloop
  | succ n ih =>
    obtain ⟨⟨w₁, queue₁⟩, hfirst, hrest⟩ := of_bind_ok hloop
    have h₁ : Labelled words lab w₁ := by
      split_ifs at hfirst
      · cases hfirst
        exact h
      · obtain ⟨q, hderef, hfirst⟩ := of_bind_ok hfirst
        obtain ⟨queue₂, hpush, hfirst⟩ := of_bind_ok hfirst
        obtain ⟨w₂, hlink, heq⟩ := of_map_ok hfirst
        cases heq
        exact h.linkNext (of_deref_ok hderef) hlink
    dsimp only at hrest
    cases hlink : (w₁.node s).link with
    | none =>
      rw [hlink] at hrest
      cases hrest
      exact h₁
    | some t =>
      rw [hlink] at hrest
      exact ih h₁ hrest

theorem Labelled.drain (h : Labelled words lab w) {fuel n : ℕ} {queue : Queue}
    (hdrain : drain fuel n w queue = .ok w') : Labelled words lab w' := by
  induction n generalizing w queue with
  | zero => cases hdrain
  | succ n ih =>
    rw [Literal.drain] at hdrain
    split_ifs at hdrain
    · exact Except.ok.inj hdrain ▸ h
    · obtain ⟨⟨w₁, queue₁⟩, hloop, hdrain⟩ := of_bind_ok hdrain
      exact ih (h.cloop hloop) hdrain

theorem labelled_literalComple {fuel : ℕ} {pattern : List Char}
    (hcomple : literalComple fuel pattern = .ok w) :
    ∃ lab, Labelled (wordsOf pattern) lab w := by
  obtain ⟨w₁, hgoto, hfail⟩ := of_bind_ok hcomple
  obtain ⟨queue, -, hdrain⟩ := of_bind_ok hfail
  have hstart : Labelled (wordsOf pattern) (fun _ => []) [Words.zero] := by
    refine ⟨rfl, Nat.one_pos, fun i => ?_⟩
    have hzero : Table.node [Words.zero] i = .zero := by
      cases i <;> rfl
    rw [hzero]
    exact sound_zero _ _
  obtain ⟨lab, h⟩ := hstart.cgotofn [] Nat.one_pos List.not_mem_nil rfl hgoto
  exact ⟨lab, h.drain hdrain⟩

end

/-! ## What is shown -/

/-- A word stands in the line, up to case with `iflag`. -/
def HasWord (iflag : Bool) (words : List (List Char)) (line : List Char) : Prop :=
  ∃ word ∈ words, word.map (fold iflag) <:+: line.map (fold iflag)

def linesOf (file : List Char) : List (List Char) :=
  ((split '\n' file).1 ++ [(split '\n' file).2]).map (·.1)

section

variable {words : List (List Char)} {lab : ℕ → List Char} {w : Table} {iflag : Bool} {x : Char}

theorem HasWord.mono {line line' : List Char} (h : HasWord iflag words line) (hle : line <+: line') :
    HasWord iflag words line' := by
  obtain ⟨word, hword, hinfix⟩ := h
  exact ⟨word, hword, hinfix.trans (hle.map _).isInfix⟩

theorem Labelled.goes (h : Labelled words lab w) {seen : List Char} {c c' : ℕ}
    (hc : (lab c).map (fold iflag) <:+ seen.map (fold iflag))
    (hcomp : ccomp iflag (w.node c).inp x) (hgo : deref (w.node c).nst = .ok c') :
    (lab c').map (fold iflag) <:+ (seen ++ [x]).map (fold iflag) := by
  have hfold : fold iflag (w.node c).inp = fold iflag x := of_decide_eq_true hcomp
  obtain ⟨pre, hpre⟩ := hc
  refine ⟨pre, ?_⟩
  rw [((h.node c).nst (of_deref_ok hgo)).1, List.map_append, List.map_append, ← List.append_assoc,
    hpre, List.map_singleton, List.map_singleton, hfold]

theorem Labelled.istate (h : Labelled words lab w) (seen : List Char) {n c c' : ℕ} (hc : lab c = [])
    (hrun : istate iflag w x n c = .ok c') :
    (lab c').map (fold iflag) <:+ (seen ++ [x]).map (fold iflag) := by
  induction n generalizing c with
  | zero => cases hrun
  | succ n ih =>
    rw [Literal.istate] at hrun
    by_cases hcomp : ccomp iflag (w.node c).inp x
    · rw [if_pos hcomp] at hrun
      refine h.goes ?_ hcomp hrun
      rw [hc]
      exact List.nil_suffix
    · rw [if_neg hcomp] at hrun
      cases hlink : (w.node c).link with
      | some t =>
        rw [hlink] at hrun
        exact ih (((h.node c).link hlink).1.trans hc) hrun
      | none =>
        rw [hlink] at hrun
        rw [← Except.ok.inj hrun, hc]
        exact List.nil_suffix

/-- The prefix at the current node has just been read. -/
theorem Labelled.nstate (h : Labelled words lab w) {seen : List Char} {n c c' : ℕ}
    (hc : (lab c).map (fold iflag) <:+ seen.map (fold iflag))
    (hrun : nstate iflag w x n c = .ok c') :
    (lab c').map (fold iflag) <:+ (seen ++ [x]).map (fold iflag) := by
  induction n generalizing c with
  | zero => cases hrun
  | succ n ih =>
    rw [Literal.nstate] at hrun
    by_cases hcomp : ccomp iflag (w.node c).inp x
    · rw [if_pos hcomp] at hrun
      exact h.goes hc hcomp hrun
    · rw [if_neg hcomp] at hrun
      cases hlink : (w.node c).link with
      | some t =>
        rw [hlink] at hrun
        exact ih (by rwa [((h.node c).link hlink).1]) hrun
      | none =>
        rw [hlink] at hrun
        cases hfail : (w.node c).fail with
        | some f =>
          rw [hfail] at hrun
          exact ih ((((h.node c).fail hfail).1.map _).trans hc) hrun
        | none =>
          rw [hfail] at hrun
          exact h.istate seen h.root hrun

theorem Labelled.hasWord (h : Labelled words lab w) {seen : List Char} {c : ℕ}
    (hc : (lab c).map (fold iflag) <:+ seen.map (fold iflag)) (hout : (w.node c).out) :
    HasWord iflag words seen := by
  obtain ⟨word, hword, hsuffix⟩ := (h.node c).out hout
  exact ⟨word, hword, ((hsuffix.map _).trans hc).isInfix⟩

end

/-- The line with the number `lineno` of the file, counted from 1. -/
def IsLine (file : List Char) (lineno : ℕ) (line : List Char) : Prop :=
  0 < lineno ∧ (linesOf file)[lineno - 1]? = some line

theorem isLine_of_newline (ls : List (Line '\n')) {line : List Char} (hnl : '\n' ∉ line)
    (rest : List Char) : IsLine (ser ls ++ (line ++ '\n' :: rest)) (ls.length + 1) line := by
  have hline : split '\n' (line ++ '\n' :: rest) =
      (⟨line, hnl⟩ :: (split '\n' rest).1, (split '\n' rest).2) := split_line ⟨line, hnl⟩ rest
  refine ⟨Nat.succ_pos _, ?_⟩
  rw [linesOf, split_append, hline, Nat.add_sub_cancel, List.getElem?_map, List.append_assoc,
    List.getElem?_append_right le_rfl, Nat.sub_self]
  rfl

/-- A line goes on to the next newline or to the end. -/
theorem exists_isLine (ls : List (Line '\n')) {seen : List Char} (hnl : '\n' ∉ seen)
    (rest : List Char) :
    ∃ line, IsLine (ser ls ++ (seen ++ rest)) (ls.length + 1) line ∧ seen <+: line := by
  have hjoin := join_split '\n' rest
  generalize (split '\n' rest).1 = ls' at hjoin
  generalize (split '\n' rest).2 = r at hjoin
  subst hjoin
  cases ls' with
  | nil =>
    have hnl' : '\n' ∉ seen ++ r.1 := by
      rw [List.mem_append, not_or]
      exact ⟨hnl, r.2⟩
    have hsplit : split '\n' (ser ls ++ (seen ++ r.1)) = (ls, ⟨seen ++ r.1, hnl'⟩) :=
      split_join ls ⟨seen ++ r.1, hnl'⟩
    refine ⟨seen ++ r.1, ⟨Nat.succ_pos _, ?_⟩, List.prefix_append _ _⟩
    rw [ser, List.nil_append, linesOf, hsplit, Nat.add_sub_cancel, List.getElem?_map,
      List.getElem?_append_right le_rfl, Nat.sub_self]
    rfl
  | cons l ls' =>
    have hnl' : '\n' ∉ seen ++ l.1 := by
      rw [List.mem_append, not_or]
      exact ⟨hnl, l.2⟩
    refine ⟨seen ++ l.1, ?_, List.prefix_append _ _⟩
    have hrest : ser (l :: ls') ++ r.1 = l.1 ++ '\n' :: (ser ls' ++ r.1) := by
      rw [ser, List.append_assoc, List.cons_append]
    rw [hrest, ← List.append_assoc seen]
    exact isLine_of_newline ls hnl' _

/-- What is shown is right: the line has a word in it and begins with the image. -/
def Right (iflag : Bool) (words : List (List Char)) (file : List Char) : Shown → Prop
  | .path => ∃ lineno line, IsLine file lineno line ∧ HasWord iflag words line
  | .line lineno image => ∃ line, IsLine file lineno line ∧ HasWord iflag words line ∧ image <+: line

theorem unputc_isPrefix (c : Char) (s : List Char) : unputc c s <+: s := by
  unfold unputc
  split_ifs
  · exact List.dropLast_prefix s
  · exact List.prefix_rfl

section

variable {words : List (List Char)} {lab : ℕ → List Char} {w : Table} {opts : Options}
  {file : List Char} {shown : List Shown}

theorem right_of_succeed {lineno : ℕ} {line lineText : List Char} {rest : Except Halt (List Shown)}
    (hline : IsLine file lineno line) (hword : HasWord opts.iflag words line)
    (himage : unputc '\n' lineText <+: line)
    (hrest : ∀ shown, rest = .ok shown → ∀ s ∈ shown, Right opts.iflag words file s)
    (hshown : succeed opts lineno lineText rest = .ok shown) :
    ∀ s ∈ shown, Right opts.iflag words file s := by
  unfold succeed at hshown
  split_ifs at hshown
  · cases hshown
    intro s hs
    obtain rfl := List.mem_singleton.1 hs
    exact ⟨lineno, line, hline, hword⟩
  · obtain ⟨shown', hok, rfl⟩ := of_map_ok hshown
    intro s hs
    rcases List.mem_cons.1 hs with rfl | hs
    · exact ⟨line, hline, hword, (unputc_isPrefix _ _).trans himage⟩
    · exact hrest shown' hok s hs

end

/-- A character below the small letters is that of no other one. -/
theorem eq_of_fold {iflag : Bool} {c d : Char} (hd : d.val.toNat < 97) (h : fold iflag c = d) :
    c = d := by
  unfold fold at h
  split_ifs at h
  · unfold Char.toLower at h
    split at h
    · next hupper =>
      have hlow : 65 ≤ c.val.toNat := UInt32.le_iff_toNat_le.1 hupper.1
      have hhigh : c.val.toNat ≤ 90 := UInt32.le_iff_toNat_le.1 hupper.2
      have hval : (c.val.toNat + 32) % 2 ^ 32 = d.val.toNat :=
        congrArg (fun d : Char => d.val.toNat) h
      omega
    · exact h
  · exact h

theorem eq_newline_of_fold {iflag : Bool} {c : Char} (h : fold iflag c = '\n') : c = '\n' :=
  eq_of_fold (by decide) h

theorem newline_not_mem {pattern word : List Char} (h : word ∈ wordsOf pattern) : '\n' ∉ word := by
  obtain ⟨l, -, rfl⟩ := List.mem_map.1 h
  exact l.2

/-- No word goes over the end of a line. -/
theorem HasWord.of_newline {iflag : Bool} {pattern line : List Char}
    (h : HasWord iflag (wordsOf pattern) (line ++ ['\n'])) :
    HasWord iflag (wordsOf pattern) line := by
  obtain ⟨word, hword, hinfix⟩ := h
  refine ⟨word, hword, ?_⟩
  rw [List.map_append, List.map_singleton, List.infix_concat_iff] at hinfix
  rcases hinfix with hsuffix | hinfix
  · rcases word.eq_nil_or_concat with rfl | ⟨word', c, rfl⟩
    · exact List.nil_infix
    · rw [List.concat_eq_append] at hword hsuffix
      rw [List.map_append, List.map_singleton] at hsuffix
      obtain ⟨pre, hpre⟩ := hsuffix
      rw [← List.append_assoc] at hpre
      have hlast := List.singleton_inj.1 (List.append_inj' hpre rfl).2
      have hc : fold iflag c = '\n' := hlast.trans (by cases iflag <;> rfl)
      rw [eq_newline_of_fold hc] at hword
      exact absurd (List.mem_append_right _ List.mem_cons_self) (newline_not_mem hword)
  · exact hinfix

section

variable {pattern file : List Char} {lab : ℕ → List Char} {w : Table} {opts : Options}
  {shown : List Shown} {ls : List (Line '\n')} {seen p : List Char} {x : Char}

theorem unputc_newline_of_not_mem {s : List Char} (h : '\n' ∉ s) : unputc '\n' s = s := by
  unfold unputc
  split_ifs with hlast
  · exact absurd (List.mem_of_getLast? hlast) h
  · rfl

theorem unputc_concat (c : Char) (s : List Char) : unputc c (s ++ [c]) = s := by
  unfold unputc
  rw [if_pos List.getLast?_concat, List.dropLast_concat]

theorem right_of_innerLoop (hv : opts.vflag = false) {ccount : ℕ} {next : ℕ → Except Halt (List Shown)}
    {stay : Except Halt (List Shown)} (hnl : '\n' ∉ seen)
    (hfile : file = ser ls ++ (seen ++ x :: p))
    (hword : HasWord opts.iflag (wordsOf pattern) (seen ++ [x]))
    (hnext : x = '\n' → ∀ k shown, next k = .ok shown →
      ∀ s ∈ shown, Right opts.iflag (wordsOf pattern) file s)
    (hend : ∀ shown, next 0 = .ok shown → ∀ s ∈ shown, Right opts.iflag (wordsOf pattern) file s)
    (hstay : x ≠ '\n' → ∀ shown, stay = .ok shown →
      ∀ s ∈ shown, Right opts.iflag (wordsOf pattern) file s)
    (hloop : innerLoop opts x ccount (seen ++ [x]) (ls.length + 1) next stay = .ok shown) :
    ∀ s ∈ shown, Right opts.iflag (wordsOf pattern) file s := by
  simp only [innerLoop, hv, Bool.false_eq_true, if_false] at hloop
  split_ifs at hloop with hx hcount
  · subst hx
    refine right_of_succeed ?_ hword.of_newline ?_ (hnext rfl _) hloop
    · rw [hfile]
      exact isLine_of_newline ls hnl p
    · rw [unputc_concat]
  · obtain ⟨line, hline, hbegin⟩ := exists_isLine ls
      (show '\n' ∉ seen ++ [x] by simp [hnl, Ne.symm hx]) p
    have hzero : ccount - 1 = 0 := by omega
    rw [hzero] at hloop
    refine right_of_succeed ?_ (hword.mono hbegin) ?_ hend hloop
    · rw [hfile]
      rwa [List.append_assoc, List.singleton_append] at hline
    · exact (unputc_isPrefix _ _).trans hbegin
  · exact hstay hx shown hloop

theorem scan_zero (opts : Options) (fuel : ℕ) (w : Table) (p seen : List Char) (lineno c : ℕ) :
    scan opts fuel w p 0 seen lineno (some c) = .ok [] := by
  cases p <;> rfl

/-- What the loop knows of the text from `linep` on. -/
def Read (iflag : Bool) (words : List (List Char)) (lab : ℕ → List Char) (seen : List Char) :
    Option ℕ → Prop
  | some c => (lab c).map (fold iflag) <:+ seen.map (fold iflag)
  | none => HasWord iflag words seen

theorem right_of_scan (h : Labelled (wordsOf pattern) lab w) (hv : opts.vflag = false) {fuel ccount : ℕ}
    (ls : List (Line '\n')) (seen : List Char) {c : Option ℕ} (hfile : file = ser ls ++ (seen ++ p)) (hnl : '\n' ∉ seen)
    (hread : Read opts.iflag (wordsOf pattern) lab seen c)
    (hscan : scan opts fuel w p ccount seen (ls.length + 1) c = .ok shown) :
    ∀ s ∈ shown, Right opts.iflag (wordsOf pattern) file s := by
  induction p generalizing ccount seen ls c shown with
  | nil =>
    cases c with
    | none => cases hscan
    | some c =>
      rw [scan] at hscan
      split_ifs at hscan
      obtain rfl := Except.ok.inj hscan
      nofun
  | cons x p ih =>
    have hstart : Read opts.iflag (wordsOf pattern) lab [] (some 0) := by
      rw [Read, h.root]
    have hnext : x = '\n' → ∀ k shown, scan opts fuel w p k [] (ls.length + 1 + 1) (some 0) = .ok shown →
        ∀ s ∈ shown, Right opts.iflag (wordsOf pattern) file s := by
      rintro rfl k shown hscan
      refine ih (ls ++ [⟨seen, hnl⟩]) [] ?_ List.not_mem_nil hstart
        (by rwa [List.length_append])
      rw [hfile, ser_append]
      simp [ser]
    have hend : ∀ shown, scan opts fuel w p 0 [] (ls.length + 1 + 1) (some 0) = .ok shown →
        ∀ s ∈ shown, Right opts.iflag (wordsOf pattern) file s := by
      intro shown hscan
      rw [scan_zero] at hscan
      obtain rfl := Except.ok.inj hscan
      nofun
    have hfile' : file = ser ls ++ (seen ++ [x] ++ p) := by rw [hfile, List.append_assoc seen]; rfl
    have hnl' : x ≠ '\n' → '\n' ∉ seen ++ [x] := fun hx => by simp [hnl, Ne.symm hx]
    have hstay : x ≠ '\n' → HasWord opts.iflag (wordsOf pattern) (seen ++ [x]) → ∀ k shown,
        scan opts fuel w p k (seen ++ [x]) (ls.length + 1) none = .ok shown →
        ∀ s ∈ shown, Right opts.iflag (wordsOf pattern) file s := fun hx hword k shown hscan =>
      ih ls (seen ++ [x]) (c := none) hfile' (hnl' hx) hword hscan
    cases c with
    | none =>
      have hword : HasWord opts.iflag (wordsOf pattern) (seen ++ [x]) :=
        HasWord.mono hread (List.prefix_append _ _)
      exact right_of_innerLoop hv hnl hfile hword hnext hend (fun hx => hstay hx hword _) hscan
    | some c =>
      rw [scan] at hscan
      by_cases hcount : ccount ≤ 1
      · rw [if_pos hcount] at hscan
        obtain rfl := Except.ok.inj hscan
        nofun
      · rw [if_neg hcount] at hscan
        obtain ⟨c', hstate, hscan⟩ := of_bind_ok hscan
        have hread' : Read opts.iflag (wordsOf pattern) lab (seen ++ [x]) (some c') :=
          h.nstate hread hstate
        rw [hv, if_neg Bool.false_ne_true] at hscan
        split_ifs at hscan with hout hx
        · have hword := h.hasWord hread' hout
          exact right_of_innerLoop hv hnl hfile hword hnext hend (fun hx => hstay hx hword _) hscan
        · exact hnext hx _ _ hscan
        · exact ih ls (seen ++ [x]) hfile' (hnl' hx) hread' hscan

end

/-- **What is shown has a word**: for every pattern, of one word or several, each line that a search
without `-V` shows has one of the words in it, up to case with `-i`, and begins with the image. -/
theorem shown_lines_have_words {opts : Options} {fuel fuel' : ℕ} {pattern file : List Char} {w : Table}
    {shown : List Shown} (hv : opts.vflag = false) (hcomple : literalComple fuel pattern = .ok w)
    (hsearch : literalSearch opts fuel' w file = .ok shown) :
    ∀ s ∈ shown, Right opts.iflag (wordsOf pattern) file s := by
  obtain ⟨lab, h⟩ := labelled_literalComple hcomple
  unfold literalSearch at hsearch
  split_ifs at hsearch
  refine right_of_scan h hv [] [] rfl List.not_mem_nil ?_ hsearch
  rw [Read, h.root]

theorem shown_lines_have_words_ushers :
    Right false (wordsOf "he\nshe".toList) "ushers\nhi\n".toList (.line 1 "ushers".toList) :=
  shown_lines_have_words
    (by rfl : (⟨false, false, false⟩ : Options).vflag = false)
    (by decide +kernel : literalComple 20 "he\nshe".toList =
      .ok [⟨'h', false, some 1, some 3, none⟩, ⟨'e', false, some 2, none, none⟩,
        ⟨'\x00', true, none, none, none⟩, ⟨'s', false, some 4, none, none⟩,
        ⟨'h', false, some 5, none, none⟩, ⟨'e', false, some 6, none, some 1⟩,
        ⟨'\x00', true, none, none, some 2⟩])
    (by decide +kernel : literalSearch ⟨false, false, false⟩ 20 _ "ushers\nhi\n".toList =
      .ok [.line 1 "ushers".toList])
    _ (List.mem_singleton.2 rfl)

end EmacsConfig.Global.Literal
