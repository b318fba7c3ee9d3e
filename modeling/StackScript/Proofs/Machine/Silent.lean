import StackScript.Proofs.Machine.Limits

/-!
# Instructions that write

Printing and calling a host function are the only instructions that write output, and
`outputFault?` says for each of them how the machine reports that it could not write.
All others are `Silent`: they take no notice of the sink, so they do the same whatever
their output goes into.
-/

namespace StackScript
namespace Machine

/-- The machine whose output goes into another sink. -/
def into (sink : Sink) (m : Machine) : Machine := { m with sink }

/-- The result, with the output going into another sink. -/
def intoResult {α : Type} (sink : Sink) :
    EStateM.Result Fault Machine α → EStateM.Result Fault Machine α
  | .ok a m => .ok a (m.into sink)
  | .error fault m => .error fault (m.into sink)

@[simp] theorem sink_into (sink : Sink) (m : Machine) : (m.into sink).sink = sink := rfl

@[simp] theorem into_sink (m : Machine) : m.into m.sink = m := rfl

@[simp] theorem stack_into (sink : Sink) (m : Machine) : (m.into sink).stack = m.stack := rfl

@[simp] theorem after_intoResult {α : Type} (sink : Sink) (result : EStateM.Result Fault Machine α) :
    after (intoResult sink result) = (after result).into sink := by
  cases result <;> rfl

theorem intoResult_ite {α : Type} (sink : Sink) (p : Prop) [Decidable p]
    (yes no : EStateM.Result Fault Machine α) : intoResult sink (if p then yes else no) =
      if p then intoResult sink yes else intoResult sink no := by
  split <;> rfl

/-- A computation that takes no notice of the sink. -/
def Silent {α : Type} (x : Exec α) : Prop :=
  ∀ (sink : Sink) (m : Machine), x (m.into sink) = intoResult sink (x m)

section Silent

variable {α β : Type}

/-- What takes no notice of the sink writes nothing. -/
theorem Silent.sink {x : Exec α} (h : Silent x) (m : Machine) : (after (x m)).sink = m.sink := by
  have same := h m.sink m
  rw [into_sink] at same
  rw [same, after_intoResult, sink_into]

theorem silent_pure (a : α) : Silent (pure a) := fun _ _ => rfl

theorem silent_throw (fault : Fault) : Silent (throw fault : Exec α) := fun _ _ => rfl

theorem Silent.bind {x : Exec α} {f : α → Exec β} (first : Silent x)
    (then_ : ∀ a, Silent (f a)) : Silent (x >>= f) := by
  intro sink m
  simp only [Bind.bind, EStateM.bind, first sink m]
  cases x m with
  | error fault m' => rfl
  | ok a m' => exact then_ a sink m'

end Silent

/-! ## The parts of instructions -/

theorem silent_push (v : Value) : Silent (push v) := by
  intro sink m
  simp only [push, intoResult_ite]
  rfl

theorem silent_pop : Silent pop := by
  intro sink m
  simp only [pop, into]
  cases m.stack.back? <;> rfl

theorem silent_peek (distance : Nat) : Silent (peek distance) := by
  intro sink m
  simp only [peek, intoResult_ite, stack_into]
  cases m.stack[m.stack.size - (distance + 1)]? <;> rfl

theorem silent_truncate (height : Nat) : Silent (truncate height) := fun _ _ => rfl

theorem silent_drop (count : Nat) : Silent (drop count) := fun _ _ => rfl

theorem silent_slot (index : Nat) : Silent (slot index) := by
  intro sink m
  simp only [slot, into]
  cases m.stack[index]? <;> rfl

theorem silent_setSlot (index : Nat) (v : Value) : Silent (setSlot index v) := fun _ _ => rfl

theorem silent_globalValue (name : Text) : Silent (globalValue name) := by
  intro sink m
  simp only [globalValue, into, global?]
  cases m.globals[name.chars]?.map Global.value <;> rfl

theorem silent_setGlobal (name : Text) (v : Value) : Silent (setGlobal name v) := fun _ _ => rfl

theorem silent_intern (chars : String) : Silent (intern chars) := fun _ _ => rfl

theorem silent_calleeIndex (count : Nat) : Silent (calleeIndex count) := by
  intro sink m
  simp only [calleeIndex, intoResult_ite]
  rfl

theorem silent_resumeCaller : Silent resumeCaller := by
  intro sink m
  simp only [resumeCaller, into]
  cases m.callers.back? <;> rfl

theorem silent_enterRoutine (frame : Frame) (r : Routine) (callee count : Nat) :
    Silent (enterRoutine frame r callee count) := by
  intro sink m
  simp only [enterRoutine, intoResult_ite]
  rfl

/-! ## Instructions -/

/-- Taking no notice of the sink. -/
def silence : Law where
  Holds := Silent
  returns := silent_pure
  fails fault _ := silent_throw fault
  andThen := Silent.bind

theorem silent_basic : silence.Basic where
  push := silent_push
  pop := silent_pop
  peek := silent_peek
  truncate := silent_truncate
  drop := silent_drop
  slot := silent_slot
  setSlot := silent_setSlot
  globalValue := silent_globalValue

/-- Only printing and calling can write. -/
theorem silent_executeInstruction (frame : Frame) {op : Opcode} (operand : Nat)
    (notCall : op ≠ .call) (notPrint : op ≠ .print) : Silent (executeInstruction frame op operand) :=
  silent_basic.executeInstruction (fun _ => silent_setGlobal) (fun _ => silent_intern)
    (fun isPrint => absurd isPrint notPrint) (fun isCall => absurd isCall notCall)
    (fun _ => silent_basic.leave silent_resumeCaller frame)

/-- The host function that a call with the given number of arguments calls, if it calls
one. -/
def calledNative? (count : Nat) (m : Machine) : Option Native :=
  if m.stack.size < count + 1 then none
  else
    match m.stack[m.stack.size - (count + 1)]?.map Value.datum with
    | some (.native n) => some n
    | _ => none

/-- What it means that the next instruction of a call could not write, if the instruction
writes: it prints, or it calls a host function. -/
def outputFault? (frame : Frame) (m : Machine) : Option (String → Fault) :=
  match frame.routine.chunk.decode frame.ip with
  | .ok ⟨.print, _, _⟩ => some .output
  | .ok ⟨.call, count, _⟩ => (m.calledNative? count).map fun n => .native n.name.chars
  | _ => none

/-- A call of anything but a host function takes no notice of the sink. -/
theorem call_into {frame : Frame} {count : Nat} {m : Machine}
    (notNative : m.calledNative? count = none) (sink : Sink) :
    call frame count (m.into sink) = intoResult sink (call frame count m) := by
  by_cases short : m.stack.size < count + 1
  · have index : calleeIndex count m = .error .stackUnderflow m := if_pos short
    simp only [call, bind, EStateM.bind, silent_calleeIndex count sink m, index]
    rfl
  obtain ⟨v, there⟩ : ∃ v, m.stack[m.stack.size - (count + 1)]? = some v :=
    ⟨_, Array.getElem?_eq_getElem (by omega)⟩
  rw [call_eq m frame there short, call_eq (m.into sink) frame there short]
  simp only [calledNative?, if_neg short, there, Option.map_some] at notNative
  simp only [stack_into]
  cases kind : v.datum with
  | native n =>
      rw [kind] at notNative
      cases notNative
  | routine r => exact silent_enterRoutine frame r _ count sink m
  | null | bool | number | string => rfl

/-- A step that does not write takes no notice of the sink. -/
theorem step_into {frame : Frame} {m : Machine} (quiet : m.outputFault? frame = none)
    (sink : Sink) : step frame (m.into sink) = intoResult sink (step frame m) := by
  cases code : frame.routine.chunk.decode frame.ip with
  | error e =>
      simp only [step, code]
      exact silent_throw _ sink m
  | ok instruction =>
      obtain ⟨op, operand, next⟩ := instruction
      rw [step_ok code]
      simp only [outputFault?, code] at quiet
      by_cases isPrint : op = .print
      · subst isPrint
        cases quiet
      by_cases isCall : op = .call
      · subst isCall
        exact call_into (Option.map_eq_none_iff.mp quiet) sink
      exact silent_executeInstruction _ operand isCall isPrint sink m

/-- A step that does not write leaves the output as it was. -/
theorem sink_step {frame : Frame} {m : Machine} (quiet : m.outputFault? frame = none) :
    (after (step frame m)).sink = m.sink := by
  have same := step_into quiet m.sink
  rw [into_sink] at same
  rw [same, after_intoResult, sink_into]

theorem outputFault?_traced (m : Machine) (frame other : Frame) :
    (m.traced frame).outputFault? other = m.outputFault? other := by
  simp only [outputFault?, calledNative?, stack_traced]

end Machine
end StackScript
