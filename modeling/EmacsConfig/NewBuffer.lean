import EmacsConfig.Lib.FreshIndex
import EmacsConfig.Lib.Runs

/-!
# New buffers

A double click on the header line tries the names `new 1`, `new 2` and so on
until no live buffer has the name, and switches to that. `doubleClick_fresh`: in
every run the name is the first that is free, and the buffer is new.
-/

namespace EmacsConfig.NewBuffer

open EmacsConfig.FreshIndex EmacsConfig.Runs

structure Buffer where
  id : Nat
  name : List Char
  deriving DecidableEq

/-- The live buffers; an `id` is not given twice. -/
structure Session where
  buffers : List Buffer
  next : Nat
  names_nodup : (buffers.map Buffer.name).Nodup
  ids_lt : ∀ b ∈ buffers, b.id < next

namespace Session

def names (s : Session) : List (List Char) := s.buffers.map Buffer.name

def getBuffer (s : Session) (name : List Char) : Option Buffer := s.buffers.find? (·.name = name)

theorem getBuffer_isSome {s : Session} {name : List Char} :
    (s.getBuffer name).isSome ↔ name ∈ s.names := by
  rw [getBuffer, List.find?_isSome, names, List.mem_map]
  simp only [decide_eq_true_eq]

def create (s : Session) (name : List Char) (h : s.getBuffer name = none) : Session where
  buffers := s.buffers ++ [⟨s.next, name⟩]
  next := s.next + 1
  names_nodup := by
    have hfree : name ∉ s.names := fun hmem => by
      rw [← getBuffer_isSome, h] at hmem
      cases hmem
    rw [List.map_append]
    exact List.nodup_append_comm.1 (List.nodup_cons.2 ⟨hfree, s.names_nodup⟩)
  ids_lt := by
    intro b hb
    rcases List.mem_append.1 hb with hb | hb
    · exact Nat.lt_succ_of_lt (s.ids_lt b hb)
    · cases List.mem_singleton.1 hb
      exact Nat.lt_succ_self _

/-- The buffer that is shown is the one of that name, or a new one. -/
def switchToBuffer (s : Session) (name : List Char) : Session × Buffer :=
  match h : s.getBuffer name with
  | some b => (s, b)
  | none => (s.create name h, ⟨s.next, name⟩)

def killBuffer (s : Session) (id : Nat) : Session where
  buffers := s.buffers.filter (·.id ≠ id)
  next := s.next
  names_nodup := s.names_nodup.sublist (List.filter_sublist.map _)
  ids_lt b hb := s.ids_lt b (List.mem_of_mem_filter hb)

end Session

/-- `(format "new %d" i)` -/
def formatNew (i : Nat) : List Char := "new ".toList ++ Nat.toDigits 10 i

def newNumbering : Numbering (List Char) where
  name := formatNew
  index name := Nat.ofDigitChars 10 (name.drop 4) 0
  index_name _ := Nat.ofDigitChars_ten_toDigits

/-- The `while`, at the number `i`. -/
def newLoop (s : Session) (i : Nat) : List Char :=
  if (s.getBuffer (formatNew i)).isSome then newLoop s (i + 1) else formatNew i
termination_by remaining newNumbering s.names i
decreasing_by exact remaining_lt newNumbering (Session.getBuffer_isSome.1 ‹_›)

/-- The command, and the buffer it shows. -/
def doubleClick (s : Session) : Session × Buffer := s.switchToBuffer (newLoop s 1)

inductive Event where
  | doubleClick
  | kill (id : Nat)
  /-- Another command switches to a buffer, as the last kill does to `*scratch*`. -/
  | switch (name : List Char)

def step (s : Session) : Event → Session
  | .doubleClick => (doubleClick s).1
  | .kill id => s.killBuffer id
  | .switch name => (s.switchToBuffer name).1

theorem newLoop_eq (s : Session) (i : Nat) :
    newLoop s i = formatNew (firstFree newNumbering s.names i) := by
  induction i using newLoop.induct s with
  | case1 i hlive ih =>
    have hused : newNumbering.name i ∈ s.names := Session.getBuffer_isSome.1 hlive
    rw [newLoop, if_pos hlive, ih, firstFree.eq_def newNumbering s.names i, if_pos hused]
  | case2 i hfree =>
    have hunused : newNumbering.name i ∉ s.names := fun h =>
      hfree (Session.getBuffer_isSome.2 h)
    rw [newLoop, if_neg hfree, firstFree, if_neg hunused]

/-- The name is free, so the command makes a buffer. -/
theorem doubleClick_eq (s : Session) : (doubleClick s).2 = ⟨s.next, newLoop s 1⟩ ∧
    (doubleClick s).1.buffers = s.buffers ++ [⟨s.next, newLoop s 1⟩] := by
  have hfree : s.getBuffer (newLoop s 1) = none := by
    rw [← Option.not_isSome_iff_eq_none, Session.getBuffer_isSome, newLoop_eq]
    exact (firstFree_isLeast newNumbering s.names 1).1.2
  unfold doubleClick Session.switchToBuffer
  split
  · next b hb =>
    rw [hfree] at hb
    cases hb
  · exact ⟨rfl, rfl⟩

theorem next_le_switchToBuffer (s : Session) (name : List Char) :
    s.next ≤ (s.switchToBuffer name).1.next := by
  unfold Session.switchToBuffer
  split
  · exact Nat.le_refl _
  · exact Nat.le_succ _

theorem next_le_step (s : Session) (e : Event) : s.next ≤ (step s e).next := by
  cases e with
  | doubleClick => exact next_le_switchToBuffer s _
  | kill id => exact Nat.le_refl _
  | switch name => exact next_le_switchToBuffer s name

/-- The buffers of the past have other ids than one that is made now. -/
theorem id_ne_next {s : Session} {pre es : List Event} (hpre : pre <+: es) {b : Buffer}
    (hb : b ∈ (run step s pre).buffers) : b.id ≠ (run step s es).next := by
  obtain ⟨later, rfl⟩ := hpre
  have hnext : (run step s pre).next ≤ (run step (run step s pre) later).next :=
    run_invariant (P := fun t => (run step s pre).next ≤ t.next) (Nat.le_refl _)
      (fun t e h => Nat.le_trans h (next_le_step t e)) later
  rw [run_append]
  exact Nat.ne_of_lt (Nat.lt_of_lt_of_le ((run step s pre).ids_lt b hb) hnext)

/-- **At any time, a double click takes the first number from 1 on whose name is
free, and makes a buffer that there has not been before.** -/
theorem doubleClick_fresh (s : Session) (es : List Event) :
    ∃ i, IsLeast {j | 1 ≤ j ∧ formatNew j ∉ (run step s es).names} i ∧
      i ≤ (run step s es).buffers.length + 1 ∧
      newLoop (run step s es) 1 = formatNew i ∧
      ∃ b, (doubleClick (run step s es)).2 = b ∧ b.name = formatNew i ∧
        (doubleClick (run step s es)).1.buffers = (run step s es).buffers ++ [b] ∧
        ∀ pre, pre <+: es → ∀ c ∈ (run step s pre).buffers, c.id ≠ b.id := by
  have hloop := newLoop_eq (run step s es) 1
  obtain ⟨hshown, hbuffers⟩ := doubleClick_eq (run step s es)
  have hle := firstFree_le newNumbering (run step s es).names 1
  rw [Session.names, List.length_map, Nat.add_comm] at hle
  exact ⟨_, firstFree_isLeast newNumbering _ 1, hle, hloop, _, hshown, hloop, hbuffers,
    fun pre hpre c hc => id_ne_next hpre hc⟩

end EmacsConfig.NewBuffer
