import StackScript.Proofs.Machine.Faults
import StackScript.Proofs.Machine.Histories
import StackScript.Proofs.Machine.Raised

/-!
# Output that never fails

A sink that takes everything and can always be flushed stays such a sink: instructions and host
functions write into it, and do nothing else to it.  So a machine with such a sink never fails
for its output, however long it runs.
-/

namespace StackScript

/-- The sink takes everything, and flushing it succeeds. -/
structure Sink.NeverFails (s : Sink) : Prop where
  takes : s.limit = none
  flushes : s.flushFailure = none

/-- Output after which a sink that never fails is still one. -/
def Output.LeavesSink {α : Type} (output : Output α) : Prop :=
  ∀ sink : Sink, sink.NeverFails → (sinkOf (output sink)).NeverFails

namespace Output

variable {α β : Type}

theorem LeavesSink.bind {x : Output α} {f : α → Output β} (first : x.LeavesSink)
    (then_ : ∀ a, (f a).LeavesSink) : (x >>= f).LeavesSink := by
  intro sink before
  have here := first sink before
  simp only [Bind.bind, EStateM.bind]
  cases ran : x sink with
  | error message sink' =>
      rw [ran] at here
      exact here
  | ok a sink' =>
      rw [ran] at here
      exact then_ a sink' here

theorem leavesSink_write (text : String) : (Sink.write text).LeavesSink := by
  rintro ⟨written, room, failure⟩ ⟨rfl, rfl⟩
  exact ⟨rfl, rfl⟩

end Output

/-- A host function that writes into its sink and leaves it what it is. -/
def NativeFunction.LeavesSink (f : NativeFunction) : Prop :=
  ∀ context arguments, Output.LeavesSink (f context arguments)

namespace Library

open Output

end Library

namespace Machine

/-- The output of the machine never fails, and its host functions write into the sink only. -/
structure Unfailing (m : Machine) : Prop where
  sink : m.sink.NeverFails
  natives : ∀ f ∈ m.natives, f.LeavesSink

/-- A computation after which output still never fails. -/
def Lasting {α : Type} (x : Exec α) : Prop := ∀ m : Machine, m.Unfailing → (after (x m)).Unfailing

/-- Keeping output that never fails. -/
def lasting : Law :=
  .ofRelation (fun m m' => m.Unfailing → m'.Unfailing) (fun _ => id) fun h h' => h' ∘ h

section

variable {α : Type}

theorem Silent.lasting {x : Exec α} (silent : Silent x) (spares : Spares x) : Lasting x := by
  intro m h
  constructor
  · rw [silent.sink]
    exact h.sink
  · rw [(spares m).natives]
    exact h.natives

theorem lasting_withSink {output : Output α} (leaves : output.LeavesSink) (fault : String → Fault) :
    Lasting (withSink output fault) := by
  rintro ⟨config, loader, heap, globals, natives, sink, log, stack, callers⟩ ⟨never, keep⟩
  have kept := leaves sink never
  unfold withSink
  dsimp only
  cases ran : output sink with
  | ok a sink' =>
      rw [ran] at kept
      exact ⟨kept, keep⟩
  | error message sink' =>
      rw [ran] at kept
      exact ⟨kept, keep⟩

end

theorem lasting_basic : lasting.Basic where
  push v := (silent_push v).lasting (spares_push v)
  pop := silent_pop.lasting spares_pop
  peek distance := (silent_peek distance).lasting (spares_peek distance)
  truncate height := (silent_truncate height).lasting (spares_truncate height)
  drop count := (silent_drop count).lasting (spares_drop count)
  slot index := (silent_slot index).lasting (spares_slot index)
  setSlot index v := (silent_setSlot index v).lasting (spares_setSlot index v)
  globalValue name := (silent_globalValue name).lasting (spares_globalValue name)

/-- Host functions that the machine does not know write nothing. -/
theorem lasting_applyNative (native : Native) (callee : Nat) : Lasting (applyNative native callee) := by
  intro m h
  refine lasting_withSink ?_ _ m h
  cases found : m.natives[native.id]? with
  | some f => exact h.natives f (Array.mem_of_getElem? found) _ _
  | none => exact fun _ => id

theorem lasting_executeInstruction (frame : Frame) (op : Opcode) (operand : Nat) :
    Lasting (executeInstruction frame op operand) :=
  lasting_basic.executeInstruction (fun _ _ _ _ h => ⟨h.sink, h.natives⟩)
    (fun _ _ _ h => ⟨h.sink, h.natives⟩)
    (fun _ text => lasting_withSink (Output.leavesSink_write (text ++ "\n")) _)
    (fun _ => lasting_basic.call
      (fun count => (silent_calleeIndex count).lasting (spares_calleeIndex count))
      (fun frame r callee count =>
        (silent_enterRoutine frame r callee count).lasting (spares_enterRoutine frame r callee count))
      lasting_applyNative frame operand)
    (fun _ => lasting_basic.leave (silent_resumeCaller.lasting spares_resumeCaller) frame)

theorem lasting_step (frame : Frame) : Lasting (step frame) := by
  intro m h
  cases code : frame.routine.chunk.decode frame.ip with
  | error e =>
      simp only [step, code]
      exact h
  | ok instruction =>
      obtain ⟨op, operand, next⟩ := instruction
      rw [step_ok code]
      exact lasting_executeInstruction _ op operand m h

theorem Unfailing.traced {m : Machine} (h : m.Unfailing) (frame : Frame) : (m.traced frame).Unfailing := by
  unfold Machine.traced
  split
  · exact ⟨h.sink, h.natives⟩
  · exact h

/-- However long a call is executed, output still never fails. -/
theorem Unfailing.execute {m : Machine} (h : m.Unfailing) (limit : Nat) (frame : Frame) :
    (execute limit frame m).2.Unfailing :=
  execute_keeps (fun frame _ h => lasting_step frame _ (h.traced frame)) limit frame h

/-- Interpreting sources leaves output that never fails, whether or not they compile. -/
theorem Unfailing.interpret {m : Machine} (h : m.Unfailing) (limit : Nat) (source : String) :
    (m.interpret limit source).2.Unfailing := by
  obtain ⟨log, compiled⟩ := m.compile_eq source
  unfold Machine.interpret
  rw [compiled]
  cases (StackScript.compile source m.heap).result with
  | error errors => exact ⟨h.sink, h.natives⟩
  | ok script =>
      let started : Machine := { m with heap := (StackScript.compile source m.heap).heap, log }
      have begun : (started.begin script).2.Unfailing := ⟨h.sink, h.natives⟩
      have ran := begun.execute limit (started.begin script).1
      dsimp only [Machine.run]
      generalize Machine.execute limit (started.begin script).1 (started.begin script).2 = final at ran
      obtain ⟨log', stack, callers, same⟩ := conclude_eq final.1 final.2
      show (final.2.conclude final.1).2.Unfailing
      rw [same]
      exact ⟨ran.sink, ran.natives⟩

end Machine
end StackScript
