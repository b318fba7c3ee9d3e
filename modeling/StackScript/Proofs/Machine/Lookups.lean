import StackScript.Proofs.Machine.Faults
import StackScript.Proofs.Machine.Turns
import StackScript.Proofs.Value.Texts

/-!
# What a run looks up in the string table

Whatever the code is and whatever host functions give back, the only text that an instruction
looks up is the one that an addition has joined: calling a host function pushes its result as
it is.  `lookups` is the list of texts that a step looks up, `lookupsOfRun` the list for a run,
and `enters_run` says that the table has been changed by these lookups and by nothing else.
-/

namespace StackScript

/-- A table that has looked more strings up has the old objects. -/
theorem TextTable.getElem?_internAll {table : TextTable} (texts : List String) {chars : String}
    {t : Text} (found : table.entries[chars]? = some t) :
    (table.internAll texts).entries[chars]? = some t := by
  induction texts generalizing table with
  | nil => exact found
  | cons other texts ih => exact ih (Heap.le_intern ⟨table, 0⟩ other chars t found)

theorem Heap.le_of_internAll {heap heap' : Heap} {texts : List String}
    (same : heap'.texts = heap.texts.internAll texts) : heap.Le heap' := by
  intro chars t found
  rw [same]
  exact TextTable.getElem?_internAll texts found

/-- Looking strings up files each under its own characters. -/
theorem Heap.Valid.internAll {heap heap' : Heap} {texts : List String} (valid : heap.Valid)
    (same : heap'.texts = heap.texts.internAll texts) : heap'.Valid := by
  induction texts generalizing heap with
  | nil =>
      intro chars t found
      rw [same] at found
      exact valid chars t found
  | cons other texts ih => exact ih (valid.intern other) same

namespace Machine

/-- The texts that an instruction looks up in the string table: the one that it joins. -/
def lookupsOf (op : Opcode) (stack : List Value) : List String :=
  match op, stack with
  | .add, b :: a :: _ =>
      match sum a.datum b.datum with
      | some (.inr chars) => [chars]
      | _ => []
  | _, _ => []

/-- The texts that the next step of a call looks up. -/
def lookups (frame : Frame) (m : Machine) : List String :=
  match frame.routine.chunk.decode frame.ip with
  | .ok instruction => lookupsOf instruction.opcode m.operands
  | .error _ => []

/-- The texts that executing a call looks up. -/
def lookupsFrom : (limit : Nat) → Frame → Machine → List String
  | 0, _, _ => []
  | limit + 1, frame, m =>
    m.lookups frame ++
      match step frame (m.traced frame) with
      | .ok (.running next) m' => lookupsFrom limit next m'
      | _ => []

/-- The texts that a run looks up. -/
def lookupsOfRun (limit : Nat) (script : Routine) (m : Machine) : List String :=
  lookupsFrom limit (m.begin script).1 (m.begin script).2

/-- The given texts have been looked up.  Host functions are as they were, and no routines have
been made. -/
structure Enters (m : Machine) (texts : List String) (m' : Machine) : Prop where
  natives : m'.natives = m.natives
  routines : m'.heap.routines = m.heap.routines
  texts : m'.heap.texts = m.heap.texts.internAll texts

namespace Enters

variable {m m' m'' : Machine} {texts more : List String}

theorem refl (m : Machine) : m.Enters [] m := ⟨rfl, rfl, rfl⟩

theorem trans (h : m.Enters texts m') (h' : m'.Enters more m'') : m.Enters (texts ++ more) m'' where
  natives := h'.natives.trans h.natives
  routines := h'.routines.trans h.routines
  texts := by rw [h'.texts, h.texts, TextTable.internAll_append]

/-- Objects that were in the table are still there. -/
theorem le (h : m.Enters texts m') : m.heap.Le m'.heap := Heap.le_of_internAll h.texts

theorem numbered (h : m.Enters texts m') (numbered : m.heap.texts.Numbered) :
    m'.heap.texts.Numbered := h.texts ▸ numbered.internAll texts

theorem valid (h : m.Enters texts m') (valid : m.heap.Valid) : m'.heap.Valid :=
  valid.internAll h.texts

end Enters

theorem Untouched.enters {m m' : Machine} (h : Untouched m m') : m.Enters [] m' where
  natives := h.natives
  routines := by rw [h.heap]
  texts := by rw [h.heap]; rfl

/-! ## Instructions -/

/-- A computation that looks nothing up. -/
def Abstains {α : Type} (x : Exec α) : Prop := ∀ m : Machine, m.Enters [] (after (x m))

theorem Spares.abstains {α : Type} {x : Exec α} (h : Spares x) : Abstains x := fun m => (h m).enters

/-- Looking nothing up. -/
def abstaining : Law := .ofRelation (fun m m' => m.Enters [] m') .refl .trans

theorem abstains_basic : abstaining.Basic where
  push v := (spares_push v).abstains
  pop := spares_pop.abstains
  peek distance := (spares_peek distance).abstains
  truncate height := (spares_truncate height).abstains
  drop count := (spares_drop count).abstains
  slot index := (spares_slot index).abstains
  setSlot index v := (spares_setSlot index v).abstains
  globalValue name := (spares_globalValue name).abstains

theorem abstains_setGlobal (name : Text) (v : Value) : Abstains (setGlobal name v) :=
  fun _ => ⟨rfl, rfl, rfl⟩

/-- Only an addition looks something up. -/
theorem abstains_executeInstruction (frame : Frame) {op : Opcode} (operand : Nat)
    (notAdd : op ≠ .add) : Abstains (executeInstruction frame op operand) :=
  abstains_basic.executeInstruction (fun _ => abstains_setGlobal) (fun isAdd => absurd isAdd notAdd)
    (fun _ _ => (spares_withSink _ _).abstains) (fun _ => (spares_call frame operand).abstains)
    (fun _ => (spares_leave frame).abstains)

/-- An addition looks the text up that it makes, if it makes one, also if there is no room for
the sum. -/
theorem enters_sumTwo (host : Host) (log : Log) (frame : Frame) (limit next : Nat) (world : World)
    (stack : List Value) : (assembled host world stack log).Enters (lookupsOf .add stack)
      (after ((sumTwo limit next world stack).result host log frame)) := by
  have pushed (v : Value) (rest : List Value) (world' : World)
      (texts : world'.heap.texts = world.heap.texts.internAll (lookupsOf .add stack))
      (routines : world'.heap.routines = world.heap.routines) :
      (assembled host world stack log).Enters (lookupsOf .add stack)
        (after ((Turn.push limit next v rest world').result host log frame)) := by
    unfold Turn.push
    split <;> exact ⟨rfl, routines, texts⟩
  rcases stack with _ | ⟨b, _ | ⟨a, rest⟩⟩
  · exact ⟨rfl, rfl, rfl⟩
  · exact ⟨rfl, rfl, rfl⟩
  · simp only [sumTwo]
    simp only [lookupsOf] at pushed ⊢
    cases total : sum a.datum b.datum with
    | none => exact ⟨rfl, rfl, rfl⟩
    | some found =>
        rw [total] at pushed
        cases found with
        | inl x => exact pushed _ rest world rfl rfl
        | inr chars => exact pushed _ rest _ rfl rfl

theorem lookupsOf_of_ne {op : Opcode} (notAdd : op ≠ .add) (stack : List Value) :
    lookupsOf op stack = [] := by
  unfold lookupsOf
  split
  · exact absurd rfl notAdd
  · rfl

theorem enters_executeInstruction (frame : Frame) (op : Opcode) (operand : Nat) (m : Machine) :
    m.Enters (lookupsOf op m.operands) (after (executeInstruction frame op operand m)) := by
  by_cases isAdd : op = .add
  · subst isAdd
    rw [← m.assembled_parts, operands_assembled, executeInstruction_eq (by decide) (by decide)]
    exact enters_sumTwo _ _ _ _ _ _ _
  · rw [lookupsOf_of_ne isAdd]
    exact abstains_executeInstruction frame operand isAdd m

/-! ## Steps and runs -/

/-- What a step enters into the table. -/
theorem enters_step (frame : Frame) (m : Machine) : m.Enters (m.lookups frame) (after (step frame m)) := by
  cases code : frame.routine.chunk.decode frame.ip with
  | error e =>
      simp only [lookups, step, code]
      exact .refl m
  | ok instruction =>
      obtain ⟨op, operand, next⟩ := instruction
      simp only [lookups, code]
      rw [step_ok code]
      exact enters_executeInstruction _ op operand m

theorem lookups_traced (m : Machine) (frame other : Frame) :
    (m.traced frame).lookups other = m.lookups other := by
  unfold lookups operands
  rw [stack_traced]

/-- Tracing an instruction looks nothing up. -/
theorem enters_step_traced (frame : Frame) (m : Machine) :
    m.Enters (m.lookups frame) (after (step frame (m.traced frame))) := by
  have traced := (untouched_traced m frame).1.enters.trans (enters_step frame (m.traced frame))
  rwa [lookups_traced] at traced

/-- What the execution of a call enters into the table, however it ends. -/
theorem enters_execute (limit : Nat) (frame : Frame) (m : Machine) :
    m.Enters (lookupsFrom limit frame m) (execute limit frame m).2 := by
  induction limit generalizing frame m with
  | zero => exact .refl m
  | succ limit ih =>
      have stepped := enters_step_traced frame m
      unfold lookupsFrom
      cases ran : step frame (m.traced frame) with
      | error fault m' =>
          rw [ran] at stepped
          rw [execute_error ran, List.append_nil]
          exact stepped
      | ok flow m' =>
          rw [ran] at stepped
          cases flow with
          | finished =>
              rw [execute_finished ran, List.append_nil]
              exact stepped
          | running next =>
              rw [execute_running ran]
              exact stepped.trans (ih next m')

/-- A run enters its lookups into the table, whether it finishes, fails or has to be broken
off. -/
theorem enters_run (limit : Nat) (script : Routine) (m : Machine) :
    m.Enters (m.lookupsOfRun limit script) (m.run limit script).2 := by
  have begun : m.Enters [] (m.begin script).2 := ⟨rfl, rfl, rfl⟩
  have ran := begun.trans (enters_execute limit (m.begin script).1 (m.begin script).2)
  unfold Machine.run lookupsOfRun
  dsimp only
  generalize execute limit (m.begin script).1 (m.begin script).2 = final at ran ⊢
  obtain ⟨log, stack, callers, same⟩ := conclude_eq final.1 final.2
  rw [same]
  exact ⟨ran.natives, ran.routines, ran.texts⟩

end Machine
end StackScript
