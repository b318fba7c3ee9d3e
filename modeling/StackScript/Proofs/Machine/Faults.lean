import StackScript.Library.Standard
import StackScript.Proofs.Machine.Silent

/-!
# What a fault leaves behind

Whatever the code, an instruction that faults has changed neither globals nor strings, and
unless it prints or calls a host function it has written nothing.  Most instructions never
touch globals and strings (`Spares`).  Those that bind a global do so last, when nothing can
fail any more.  An addition that enters a string has taken two values off the stack before,
and so there is room for the sum.
-/

namespace StackScript
namespace Machine

/-- Globals, strings and host functions are as they were. -/
structure Untouched (m m' : Machine) : Prop where
  globals : m'.globals = m.globals
  heap : m'.heap = m.heap
  natives : m'.natives = m.natives

namespace Untouched

theorem refl (m : Machine) : Untouched m m := ⟨rfl, rfl, rfl⟩

theorem trans {m m' m'' : Machine} (h : Untouched m m') (h' : Untouched m' m'') : Untouched m m'' where
  globals := h'.globals.trans h.globals
  heap := h'.heap.trans h.heap
  natives := h'.natives.trans h.natives

end Untouched

/-- However a computation ends, the machine is then in a relation to what it was before. -/
def Law.ofRelation (relation : Machine → Machine → Prop) (refl : ∀ m, relation m m)
    (trans : ∀ {m m' m''}, relation m m' → relation m' m'' → relation m m'') : Law where
  Holds x := ∀ m, relation m (after (x m))
  returns _ := refl
  fails _ _ := refl
  andThen {α β x f} first then_ := by
    intro m
    have here := first m
    simp only [Bind.bind, EStateM.bind]
    cases ran : x m with
    | error fault m' =>
        rw [ran] at here
        exact here
    | ok a m' =>
        rw [ran] at here
        exact trans here (then_ a m')

/-- A computation that works on stack, calls and output alone. -/
def Spares {α : Type} (x : Exec α) : Prop := ∀ m, Untouched m (after (x m))

/-- Working on stack, calls and output alone. -/
def sparing : Law := .ofRelation Untouched .refl .trans

/-- A computation that has touched neither globals nor strings if it faults. -/
def Careful {α : Type} (x : Exec α) : Prop :=
  ∀ ⦃m fault m'⦄, x m = .error fault m' → Untouched m m'

section

variable {α β : Type}

theorem spares_pure (a : α) : Spares (pure a) := sparing.returns a

theorem spares_throw (fault : Fault) : Spares (throw fault : Exec α) := fun m => .refl m

theorem Spares.careful {x : Exec α} (h : Spares x) : Careful x := by
  intro m fault m' ran
  have here := h m
  rwa [ran] at here

/-- What spares globals and strings may go before. -/
theorem Spares.then {x : Exec α} {f : α → Exec β} (first : Spares x)
    (then_ : ∀ a, Careful (f a)) : Careful (x >>= f) := by
  intro m fault m' ran
  have here := first m
  simp only [Bind.bind, EStateM.bind] at ran
  cases ran' : x m with
  | error fault n =>
      rw [ran'] at ran here
      cases ran
      exact here
  | ok a n =>
      rw [ran'] at ran here
      exact here.trans (then_ a ran)

end

/-! ## The parts of instructions -/

theorem spares_push (v : Value) : Spares (push v) := by
  intro m
  unfold push
  split <;> exact ⟨rfl, rfl, rfl⟩

theorem spares_pop : Spares pop := by
  intro m
  unfold pop
  split <;> exact ⟨rfl, rfl, rfl⟩

theorem spares_peek (distance : Nat) : Spares (peek distance) := by
  intro m
  unfold peek
  split
  · exact .refl m
  · split <;> exact .refl m

theorem spares_truncate (height : Nat) : Spares (truncate height) := fun _ => ⟨rfl, rfl, rfl⟩

theorem spares_drop (count : Nat) : Spares (drop count) := fun _ => ⟨rfl, rfl, rfl⟩

theorem spares_slot (index : Nat) : Spares (slot index) := by
  intro m
  unfold slot
  split <;> exact .refl m

theorem spares_setSlot (index : Nat) (v : Value) : Spares (setSlot index v) := fun _ => ⟨rfl, rfl, rfl⟩

theorem spares_globalValue (name : Text) : Spares (globalValue name) := by
  intro m
  unfold globalValue
  split <;> exact .refl m

/-- Output does not touch globals and strings, whatever it writes. -/
theorem spares_withSink {α : Type} (output : Output α) (fault : String → Fault) :
    Spares (withSink output fault) := by
  rintro ⟨config, loader, heap, globals, natives, sink, log, stack, callers⟩
  unfold withSink
  dsimp only
  cases output sink <;> exact ⟨rfl, rfl, rfl⟩

theorem spares_calleeIndex (count : Nat) : Spares (calleeIndex count) := by
  intro m
  unfold calleeIndex
  split <;> exact .refl m

theorem spares_enterRoutine (frame : Frame) (r : Routine) (callee count : Nat) :
    Spares (enterRoutine frame r callee count) := by
  intro m
  unfold enterRoutine
  split
  · exact .refl m
  · split <;> exact ⟨rfl, rfl, rfl⟩

theorem spares_applyNative (native : Native) (callee : Nat) : Spares (applyNative native callee) :=
  fun m => spares_withSink _ _ m

theorem spares_resumeCaller : Spares resumeCaller := by
  intro m
  unfold resumeCaller
  split <;> exact ⟨rfl, rfl, rfl⟩

/-! ## Instructions -/

/-- Once a global is bound nothing fails any more. -/
theorem careful_setGlobal (name : Text) (v : Value) (frame : Frame) :
    Careful (setGlobal name v >>= fun _ => (pure (.running frame) : Exec Flow)) := by
  intro m fault m' ran
  cases ran

/-- Where the stack is within its limit there is room for a sum. -/
theorem untouched_add {limits : MachineConfig} {m m' : Machine} {fault : Fault}
    (bounded : Bounded limits m) (ran : add m = .error fault m') : Untouched m m' := by
  have operand (distance : Nat) : (∃ v, peek distance m = .ok v m ∧ distance < m.stack.size) ∨
      peek distance m = .error .stackUnderflow m := by
    unfold peek
    by_cases short : m.stack.size < distance + 1
    · exact .inr (if_pos short)
    · have there := Array.getElem?_eq_getElem (show m.stack.size - (distance + 1) < m.stack.size by omega)
      rw [if_neg short, there]
      exact .inl ⟨_, rfl, by omega⟩
  unfold add at ran
  simp only [Bind.bind, EStateM.bind] at ran
  rcases operand 1 with ⟨a, first, two⟩ | under
  case inr =>
    rw [under] at ran
    cases ran
    exact .refl m
  rcases operand 0 with ⟨b, second, -⟩ | under
  case inr =>
    simp only [first, under] at ran
    cases ran
    exact .refl m
  -- Two values are dropped before the sum is pushed.
  have room : ¬ m.config.maxStack ≤ min (m.stack.size - 2) m.stack.size := by
    have small := bounded.stack
    rw [← bounded.config] at small
    omega
  simp only [first, second] at ran
  cases total : sum a.datum b.datum with
  | none =>
      simp only [total] at ran
      cases ran
      exact .refl m
  | some found =>
      cases found with
      | inl x =>
          simp only [total, EStateM.bind, drop, push, Array.size_shrink, if_neg room] at ran
          cases ran
      | inr chars =>
          simp only [total, EStateM.bind, drop, push, intern, Array.size_shrink, if_neg room] at ran
          cases ran

theorem spares_basic : sparing.Basic where
  push := spares_push
  pop := spares_pop
  peek := spares_peek
  truncate := spares_truncate
  drop := spares_drop
  slot := spares_slot
  setSlot := spares_setSlot
  globalValue := spares_globalValue

theorem spares_call (frame : Frame) (count : Nat) : Spares (call frame count) :=
  spares_basic.call spares_calleeIndex spares_enterRoutine spares_applyNative frame count

theorem spares_leave (frame : Frame) : Spares (leave frame) :=
  spares_basic.leave spares_resumeCaller frame

/-- An instruction that faults has touched neither globals nor strings. -/
theorem careful_executeInstruction (frame : Frame) {op : Opcode} (operand : Nat)
    (notAdd : op ≠ .add) : Careful (executeInstruction frame op operand) :=
  spares_basic.instruction Careful Spares.then (fun fault _ => (spares_throw fault).careful)
    (fun _ => (spares_pure _).careful) (fun _ name v => careful_setGlobal name v frame)
    (fun isAdd => absurd isAdd notAdd) (fun _ _ => spares_withSink _ _)
    (fun _ => (spares_call frame operand).careful) (fun _ => (spares_leave frame).careful)

/-! ## Steps and runs -/

/-- A step that faults has touched neither globals nor strings, where the stack is within
its limit. -/
theorem untouched_step {limits : MachineConfig} {frame : Frame} {m m' : Machine} {fault : Fault}
    (bounded : Bounded limits m) (ran : step frame m = .error fault m') : Untouched m m' := by
  cases code : frame.routine.chunk.decode frame.ip with
  | error e =>
      simp only [step, code] at ran
      exact (spares_throw _).careful ran
  | ok instruction =>
      obtain ⟨op, operand, next⟩ := instruction
      rw [step_ok code] at ran
      by_cases isAdd : op = .add
      · subst isAdd
        simp only [executeInstruction, Bind.bind, EStateM.bind] at ran
        cases ran' : add m with
        | ok a n =>
            rw [ran'] at ran
            cases ran
        | error fault' n =>
            rw [ran'] at ran
            cases ran
            exact untouched_add bounded ran'
      · exact careful_executeInstruction _ operand isAdd ran

/-- Tracing an instruction leaves a machine untouched, and writes nothing. -/
theorem untouched_traced (m : Machine) (frame : Frame) :
    Untouched m (m.traced frame) ∧ (m.traced frame).sink = m.sink := by
  unfold traced
  split
  · exact ⟨⟨rfl, rfl, rfl⟩, rfl⟩
  · exact ⟨.refl m, rfl⟩

/-- If an instruction faults in a run of any script, then globals and strings are as they
were before it, and so is the output unless the instruction prints or calls a host
function. -/
theorem fault_changes_nothing {script : Routine} {m before m' : Machine} {count : Nat}
    {frame : Frame} {fault : Fault}
    (reached : Reaches (m.begin script).1 (m.begin script).2 count frame before)
    (ran : step frame (before.traced frame) = .error fault m') :
    m'.globals = before.globals ∧ m'.heap = before.heap ∧
      (before.outputFault? frame = none → m'.sink = before.sink) := by
  have bounded := (reached.bounded (bounded_begin script m)).traced frame
  obtain ⟨traced, same⟩ := untouched_traced before frame
  have untouched := traced.trans (untouched_step bounded ran)
  refine ⟨untouched.globals, untouched.heap, fun quiet => ?_⟩
  rw [← outputFault?_traced before frame frame] at quiet
  have kept := sink_step quiet
  rw [ran] at kept
  exact kept.trans same

/-- A script that prints, and then negates a value that is no number. -/
theorem fault_changes_nothing_sample :
    let m : Machine := start .standard Library.load
    let script : Routine := ⟨0, none, 0, ⟨#[Opcode.null.toByte, Opcode.print.toByte,
      Opcode.null.toByte, Opcode.negate.toByte], #[], #[(0, 1)]⟩⟩
    ∃ frame before m', Reaches (m.begin script).1 (m.begin script).2 3 frame before ∧
      step frame (before.traced frame) = .error .operandMustBeNumber m' ∧
        m'.globals = before.globals ∧ m'.heap = before.heap ∧
          (before.outputFault? frame = none → m'.sink = before.sink) := by
  intro m script
  let frame : Frame := ⟨script, 3, 2, 0⟩
  obtain ⟨before, m', reached, ran⟩ : ∃ before m',
      Reaches (m.begin script).1 (m.begin script).2 3 frame before ∧
        step frame (before.traced frame) = .error .operandMustBeNumber m' :=
    ⟨_, _, .step (.step (.step .refl rfl) rfl) rfl, rfl⟩
  exact ⟨frame, before, m', reached, ran, fault_changes_nothing reached ran⟩

end Machine
end StackScript
