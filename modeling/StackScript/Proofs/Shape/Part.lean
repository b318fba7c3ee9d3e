import StackScript.Proofs.Code.Parts
import StackScript.Proofs.Shape.Statement

/-!
# Routines keep to their notes

The notes on a routine are those on its body and those on the return behind it.  By
offset they say of every instruction of the routine what stands on the stack when it
begins, so `Routine.Follows` is all that is needed to know about code that was compiled.
-/

namespace StackScript

/-! ## Notes by offset -/

/-- The note on the instruction at an offset, for code that begins at another. -/
def noteAt : (offset : Nat) → List Asm → List Note → (pc : Nat) → Option Note
  | offset, a :: code, note :: notes, pc =>
      if pc = offset then some note else noteAt (offset + a.size) code notes pc
  | _, _, _, _ => none

/-- By offset the notes are on the instructions that they are about. -/
theorem covers_noteAt {view : Nat → Option Note} {offset : Nat} {code : List Asm}
    {notes : List Note} (length : notes.length = code.length)
    (same : ∀ pc, offset ≤ pc → view pc = noteAt offset code notes pc) :
    Covers view offset (ops code) notes := by
  induction code generalizing offset notes with
  | nil =>
      obtain rfl := List.eq_nil_of_length_eq_zero length
      trivial
  | cons a code ih =>
      cases notes with
      | nil => cases length
      | cons note notes =>
          have pos := a.size_pos
          refine ⟨?_, ih (Nat.succ.inj length) fun pc le => ?_⟩
          · rw [same offset (Nat.le_refl _), noteAt, if_pos rfl]
          · change offset + a.size ≤ pc at le
            rw [same pc (by omega), noteAt, if_neg (by omega)]
            rfl

/-! ## Routines -/

/-- The instructions of a routine keep to notes by offset. -/
def Routine.Follows (r : Routine) (view : Nat → Option Note) (pool : Pool) : Prop :=
  ∀ pc note, view pc = some note → ∃ a : Asm,
    r.chunk.decode pc = .ok ⟨a.opcode, a.operand, pc + a.size⟩ ∧ a.Obeys view pool pc note

/-- Where there is a note there is an instruction that keeps to it. -/
theorem Chunk.Holds.follows {chunk : Chunk} {view : Nat → Option Note} {pool : Pool}
    {leave again offset pc : Nat} {code : List Asm} {notes : List Note} {note : Note}
    (holds : chunk.Holds offset code) (obeys : Obeys view pool leave again offset (ops code) notes)
    (there : noteAt offset code notes pc = some note) :
    ∃ a : Asm, a ∈ code ∧ chunk.decode pc = .ok ⟨a.opcode, a.operand, pc + a.size⟩ ∧
      a.Obeys view pool pc note := by
  induction code generalizing offset notes with
  | nil => cases there
  | cons a code ih =>
      cases notes with
      | nil => cases there
      | cons note' notes =>
          rw [noteAt] at there
          by_cases here : pc = offset
          · subst here
            rw [if_pos rfl] at there
            obtain rfl := Option.some.inj there
            exact ⟨a, List.mem_cons_self .., holds.1, obeys.1⟩
          · rw [if_neg here] at there
            obtain ⟨b, mem, found⟩ := ih holds.2 obeys.2 there
            exact ⟨b, List.mem_cons_of_mem _ mem, found⟩

/-! ## Bodies -/

/-- A statement that nothing leads out of has no open jumps. -/
theorem Statement.Closed.cells {layout : Layout} {s : Statement} (closed : s.Closed)
    (place : Place) (pool : Pool) :
    ops (draft (s.code layout place pool).cells) = (s.code layout place pool).cells := by
  induction s generalizing place pool with
  | leave | again => exact closed.elim
  | done => rfl
  | next a b first rest =>
      show ops (draft (_ ++ _)) = _ ++ _
      rw [draft_append, ops_append, first closed.1, rest closed.2]
  | print | expression | giveBack => exact congrArg ops (draft_ops _)
  | declare | define =>
      simp only [Statement.code]
      split <;> exact congrArg ops (draft_ops _)
  | block s ih =>
      show ops (draft (_ ++ ops _)) = _ ++ ops _
      rw [draft_append, ops_append, ih closed, draft_ops]
  | choose c s t yes no =>
      have cons (a : Asm) (code : List Asm) : ops (a :: code) = .op a :: ops code := rfl
      have left := yes closed.1 place (c.code place.locals pool).2
      have right := no closed.2 (place.knowing (s.code layout place
        (c.code place.locals pool).2).locals) (s.code layout place (c.code place.locals pool).2).pool
      simp only [Statement.code, chooseCells, draft_append, draft_ops, draft_cons, ops_append, cons,
        left, right]
      rfl
  | loop test step s => exact resolveJumps_closed ..

/-- Notes on what is put behind the code of a routine. -/
def Ending.closingNotes (scope : List Binding) : Ending → List Note
  | .sealed => []
  | _ => [.plain [] scope, .plain [.temporary] scope]

namespace Part

variable (layout : Layout) (p : Part)

/-- The body as it stands in its routine: the parameters are in scope, and the slot of the
routine itself. -/
def view : View := ⟨p.place.locals.map fun var => ⟨var.name, true, 0⟩, p.place.depth, p.place.floor, 0⟩

/-- The notes on the routine. -/
def notes : List Note :=
  (p.body.noted p.view).notes ++ p.ending.closingNotes (p.body.noted p.view).scope

/-- The notes on the routine by offset. -/
def noteAt : Nat → Option Note := StackScript.noteAt 0 (p.code layout) p.notes

/-- What stands on the stack when the routine begins. -/
def entry : List Slot := p.view.scope.map .bound

end Part

theorem Ending.length_closingNotes (scope : List Binding) (ending : Ending) :
    (ending.closingNotes scope).length = ending.closing.length := by
  cases ending <;> rfl

theorem Ending.obeys_closing {view : Nat → Option Note} {pool : Pool} {leave again pc : Nat}
    {scope : List Binding} {ending : Ending}
    (covers : Covers view pc (ops ending.closing) (ending.closingNotes scope)) :
    Obeys view pool leave again pc (ops ending.closing) (ending.closingNotes scope) := by
  cases ending with
  | «sealed» => trivial
  | untouched | unsealed =>
      exact ⟨Asm.obeys_work rfl rfl rfl rfl (by rintro (load | load) <;> cases load)
        covers.2.leads, Asm.obeys_return, trivial⟩

theorem Ending.fits_closing (ending : Ending) : ∀ a ∈ ending.closing, a.Fits := by
  cases ending <;> simp [Ending.closing, Asm.plain, Asm.Fits, Opcode.operandWidth]

namespace Part.Fine

variable {layout : Layout} {p : Part}

theorem view_fits (p : Part) : p.view.Fits p.place where
  names := by simp [Part.view]
  depth := rfl
  keep := rfl

theorem stands (h : p.Fine layout) : p.body.Stands p.place := by
  refine .inr fun d mem => ?_
  rw [h.outside] at mem
  cases mem

theorem length_noted (h : p.Fine layout) :
    (p.body.noted p.view).notes.length = (p.coded layout).cells.length :=
  p.body.length_noted layout h.proper (view_fits p) h.placed h.stands p.pool

theorem ops_code (h : p.Fine layout) :
    ops (p.code layout) = (p.coded layout).cells ++ ops p.ending.closing := by
  rw [Part.code, ops_append]
  exact congrArg (· ++ _) (h.closed.cells p.place p.pool)

/-- There is one note for each instruction of a routine. -/
theorem length_notes (h : p.Fine layout) : p.notes.length = (p.code layout).length := by
  rw [Part.notes, List.length_append, h.length_noted, Ending.length_closingNotes, ← length_ops,
    ← length_ops, h.ops_code, List.length_append]

theorem covers (h : p.Fine layout) :
    Covers (p.noteAt layout) 0 (ops (p.code layout)) p.notes :=
  covers_noteAt h.length_notes fun _ _ => rfl

/-- The code of a routine keeps to its notes. -/
theorem obeys (h : p.Fine layout) (leave again : Nat) :
    Obeys (p.noteAt layout) (p.coded layout).pool leave again 0 (ops (p.code layout)) p.notes := by
  have covers := h.covers
  rw [h.ops_code, Part.notes] at covers ⊢
  obtain ⟨covers, closing⟩ := (covers_append h.length_noted).mp covers
  rw [obeys_append h.length_noted]
  refine ⟨p.body.obeys_noted layout h.proper (view_fits p) h.placed h.stands (.refl _) covers
    (fun unsealed => ?_) (.inl h.closed), Ending.obeys_closing closing⟩
  cases ending : p.ending with
  | «sealed» => exact absurd ending unsealed
  | untouched | unsealed =>
      rw [ending] at closing
      exact closing.leads

/-- The bytes of a routine are read as its code. -/
theorem holds (h : p.Fine layout) : (p.routine layout).chunk.Holds 0 (p.code layout) := by
  refine Chunk.holds_of_carries (List.forall_mem_append.mpr ⟨h.fits, p.ending.fits_closing⟩) ?_
  intro i _
  rw [Nat.zero_add]
  exact List.getElem?_toArray ..

/-- A routine keeps to its notes. -/
theorem follows (h : p.Fine layout) :
    (p.routine layout).Follows (p.noteAt layout) (p.coded layout).pool := by
  intro pc note there
  obtain ⟨a, -, found⟩ := h.holds.follows (h.obeys 0 0) there
  exact ⟨a, found⟩

/-- A routine begins with its arguments on the stack. -/
theorem enters (h : p.Fine layout) :
    ∃ note, p.noteAt layout 0 = some note ∧ note.shape = p.entry := by
  have heads : Heads p.entry p.notes := by
    rcases p.body.noted_cases p.view with ⟨none, same, untouched⟩ | ⟨heads, -⟩
    · have ending : p.ending = .untouched := untouched
      rw [Part.notes, none, same, ending]
      exact heads_cons _ _
    · exact heads.append _
  obtain ⟨note, others, same, shape⟩ := heads
  have covers := h.covers
  rw [same] at covers
  exact ⟨note, covers.first, shape⟩

end Part.Fine

end StackScript
