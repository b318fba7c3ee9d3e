import StackScript.Proofs.Machine.Steps

/-!
# Limits of the machine

Whatever the code, the stack never holds more values and there are never more active
calls than the machine is configured for; the script itself always counts as one of each.
-/

namespace StackScript
namespace Machine

/-- Stack and calls are within the limits of a configuration. -/
structure Bounded (limits : MachineConfig) (m : Machine) : Prop where
  config : m.config = limits
  stack : m.stack.size ≤ max 1 limits.maxStack
  /-- The running call is active as well. -/
  calls : m.callers.size + 1 ≤ max 1 limits.maxFrames

variable {limits : MachineConfig} {m : Machine}

theorem Bounded.within {m' : Machine} (h : Bounded limits m) (within : Within m m') :
    Bounded limits m' := by
  have grown := within.stack
  have small := h.stack
  have calls := h.calls
  rw [h.config] at grown
  constructor
  · exact within.config.trans h.config
  · omega
  · rw [within.callers]
    exact calls

/-- The machine after a step, however it ended. -/
def after {α : Type} : EStateM.Result Fault Machine α → Machine
  | .ok _ m => m
  | .error _ m => m

/-- What every step keeps is kept by an execution of any length, however it ends. -/
theorem execute_keeps {P : Machine → Prop}
    (kept : ∀ (frame : Frame) (m : Machine), P m → P (after (step frame (m.traced frame))))
    (limit : Nat) (frame : Frame) (h : P m) : P (execute limit frame m).2 := by
  induction limit generalizing frame m with
  | zero => exact h
  | succ limit ih =>
      have stepped := kept frame m h
      cases ran : step frame (m.traced frame) with
      | error fault m' =>
          rw [ran] at stepped
          rw [execute_error ran]
          exact stepped
      | ok flow m' =>
          rw [ran] at stepped
          cases flow with
          | finished =>
              rw [execute_finished ran]
              exact stepped
          | running next =>
              rw [execute_running ran]
              exact ih next stepped

/-- A step keeps to the limits. -/
theorem Bounded.stepped {frame : Frame} {result : EStateM.Result Fault Machine Flow}
    (h : Bounded limits m) (step : Stepped frame m result) : Bounded limits (after result) := by
  have small := h.stack
  have calls := h.calls
  have same := h.config
  cases step with
  | stays _ _ within | faults within => exact h.within within
  | enters _ room =>
      rw [same] at room
      refine ⟨same, small, ?_⟩
      simp only [after, Array.size_push]
      omega
  | resumes _ _ config _ callers room =>
      rw [same] at room
      refine ⟨config.trans same, ?_, ?_⟩
      · simp only [after]
        omega
      · simp only [after, callers, Array.size_pop]
        omega
  | finishes =>
      refine ⟨same, ?_, calls⟩
      simp only [after, Array.size_shrink, Array.size_pop]
      omega
  | overflows config callers kept =>
      refine ⟨config.trans same, ?_, ?_⟩
      · simp only [after]
        omega
      · simp only [after, callers, Array.size_pop]
        omega

theorem Bounded.traced (h : Bounded limits m) (frame : Frame) : Bounded limits (m.traced frame) :=
  ⟨by simp [h.config], by simpa using h.stack, by simpa using h.calls⟩

/-- A run starts with the script on the stack. -/
theorem bounded_begin (script : Routine) (m : Machine) :
    Bounded m.config (m.begin script).2 := by
  refine ⟨rfl, ?_, ?_⟩
  · show 1 ≤ _
    omega
  · show 0 + 1 ≤ _
    omega

/-- Execution keeps to the limits, wherever it is stopped. -/
theorem Bounded.execute (h : Bounded limits m) (limit : Nat) (frame : Frame) :
    Bounded limits (execute limit frame m).2 :=
  execute_keeps (fun frame _ h => (h.traced frame).stepped (Machine.stepped frame _)) limit frame h

theorem Reaches.bounded {first frame : Frame} {start : Machine} {count : Nat}
    (h : Bounded limits start) (reached : Reaches first start count frame m) : Bounded limits m := by
  have kept := h.execute (count + 0) first
  rw [reached.execute] at kept
  exact kept

end Machine
end StackScript
