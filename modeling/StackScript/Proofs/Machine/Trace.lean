import StackScript.Proofs.Machine.Limits

/-!
# Active calls

A run follows which calls have been entered and not yet been returned from (`Pending`),
going by the instructions alone.  The machine's suspended calls are these, the script is
the outermost of them, and its part of the stack is the whole stack.  So a run that ends
leaves nothing behind, and the trace of a runtime error lists the calls that were active
when the faulting instruction began.
-/

namespace StackScript
namespace Machine

/-- The calls that wait for others after an instruction; `entry` stands for the call that
executes it. -/
def Event.update (entry : TraceEntry) (waiting : List TraceEntry) : Event → List TraceEntry
  | .enters _ => entry :: waiting
  | .leaves => waiting.tail
  | .stays => waiting

/-- Executing a number of instructions leads to a call and a machine, and these calls have
been entered and not yet been returned from, the innermost first; the running call is not
among them. -/
inductive Pending (first : Frame) (start : Machine) :
    Nat → Frame → Machine → List TraceEntry → Prop where
  | begin : Pending first start 0 first start []
  | step {count : Nat} {frame next : Frame} {m m' : Machine} {waiting : List TraceEntry}
      (before : Pending first start count frame m waiting)
      (ran : Machine.step frame (m.traced frame) = .ok (.running next) m') :
      Pending first start (count + 1) next m'
        ((m.event frame).update frame.atNext.traceEntry waiting)

/-- The active calls, the running one first. -/
def active (frame : Frame) (m : Machine) : List Frame := frame :: m.callers.toList.reverse

/-- The outermost call is that of the script, and it begins at the bottom of the stack. -/
def Rooted (script : Routine) (frames : List Frame) : Prop :=
  ∃ root, frames.getLast? = some root ∧ root.base = 0 ∧ root.routine = script

section Rooted

variable {script : Routine} {frame next : Frame} {frames : List Frame}

theorem Rooted.cons (h : Rooted script frames) (frame : Frame) : Rooted script (frame :: frames) := by
  obtain ⟨root, last, base, routine⟩ := h
  refine ⟨root, ?_, base, routine⟩
  cases frames with
  | nil => cases last
  | cons first rest => rwa [List.getLast?_cons_cons]

theorem Rooted.tail {caller : Frame} (h : Rooted script (frame :: caller :: frames)) :
    Rooted script (caller :: frames) := by
  obtain ⟨root, last, base, routine⟩ := h
  rw [List.getLast?_cons_cons] at last
  exact ⟨root, last, base, routine⟩

/-- Instructions of a call do not change where the call stands. -/
theorem Rooted.replace (h : Rooted script (frame :: frames)) (base : next.base = frame.base)
    (routine : next.routine = frame.routine) : Rooted script (next :: frames) := by
  cases frames with
  | cons caller rest => exact h.tail.cons next
  | nil =>
      obtain ⟨root, last, bottom, same⟩ := h
      obtain rfl : frame = root := by simpa using last
      exact ⟨next, rfl, base.trans bottom, routine.trans same⟩

end Rooted

theorem reverse_callers {callers : Array Frame} {caller : Frame}
    (last : callers.back? = some caller) :
    callers.toList.reverse = caller :: callers.pop.toList.reverse := by
  obtain ⟨frames⟩ := callers
  rw [List.back?_toArray] at last
  obtain ⟨others, rfl⟩ := List.getLast?_eq_some_iff.mp last
  simp

/-- What a run keeps: the machine's suspended calls are those that are pending. -/
structure Traces (script : Routine) (waiting : List TraceEntry) (frame : Frame) (m : Machine) :
    Prop where
  callers : m.callers.toList.reverse.map Frame.traceEntry = waiting
  rooted : Rooted script (active frame m)

theorem Traces.step {script : Routine} {waiting : List TraceEntry} {frame next : Frame}
    {m m' : Machine} (h : Traces script waiting frame m)
    (ran : Stepped frame m (.ok (.running next) m')) :
    Traces script ((m.event frame).update frame.atNext.traceEntry waiting) next m' := by
  obtain ⟨callers, rooted⟩ := h
  cases ran with
  | stays event same within =>
      rw [event]
      constructor
      · rw [within.callers]
        exact callers
      · unfold active at rooted ⊢
        rw [within.callers]
        exact rooted.replace same.2.1 same.1
  | enters event room =>
      rename_i r callee ip
      -- The running call is suspended behind its call instruction.
      have suspended : (m.callers.push { frame.atNext with ip }).toList.reverse =
          { frame.atNext with ip } :: m.callers.toList.reverse := by simp
      rw [event]
      constructor
      · simp only [suspended, List.map_cons, callers]
        rfl
      · unfold active
        simp only [suspended]
        have moved : Rooted script ({ frame.atNext with ip } :: m.callers.toList.reverse) :=
          rooted.replace rfl rfl
        exact moved.cons _
  | resumes event last config natives popped room =>
      have split := reverse_callers last
      rw [event]
      constructor
      · rw [popped, ← callers, split]
        rfl
      · unfold active at rooted ⊢
        rw [split] at rooted
        rw [popped]
        exact rooted.tail

/-- The calls that are pending do not depend on the log. -/
theorem Traces.traced {script : Routine} {waiting : List TraceEntry} {frame other : Frame}
    {m : Machine} (h : Traces script waiting frame m) :
    Traces script waiting frame (m.traced other) := by
  obtain ⟨callers, rooted⟩ := h
  constructor
  · rw [callers_traced]
    exact callers
  · unfold active at rooted ⊢
    rw [callers_traced]
    exact rooted

theorem Pending.reaches {first frame : Frame} {start m : Machine} {count : Nat}
    {waiting : List TraceEntry} (h : Pending first start count frame m waiting) :
    Reaches first start count frame m := by
  induction h with
  | begin => exact .refl
  | step before ran ih => exact .step ih ran

theorem Reaches.pending {first frame : Frame} {start m : Machine} {count : Nat}
    (h : Reaches first start count frame m) : ∃ waiting, Pending first start count frame m waiting := by
  induction h with
  | refl => exact ⟨[], .begin⟩
  | step before ran ih =>
      obtain ⟨waiting, pending⟩ := ih
      exact ⟨_, .step pending ran⟩

theorem Pending.traces {script : Routine} {m₀ m : Machine} {frame : Frame} {count : Nat}
    {waiting : List TraceEntry}
    (h : Pending (m₀.begin script).1 (m₀.begin script).2 count frame m waiting) :
    Traces script waiting frame m := by
  induction h with
  | begin => exact ⟨rfl, _, rfl, rfl, rfl⟩
  | @step count frame next m m' waiting before ran ih =>
      have stepped := stepped frame (m.traced frame)
      rw [ran] at stepped
      have traces := ih.traced.step stepped
      rwa [event_traced] at traces

/-! ## Ends of runs -/

/-- How a call faults: in its next instruction, or, if that ends the script, because the
output cannot be flushed. -/
inductive Faults (frame : Frame) (m : Machine) (fault : Fault) : Prop where
  | instruction {m' : Machine} (ran : step frame (m.traced frame) = .error fault m')
  | flush {m' m'' : Machine} (ran : step frame (m.traced frame) = .ok .finished m')
      (refused : Machine.flush m' = .error fault m'')

/-- What the trace of a runtime error says about the run in which it arose. -/
structure Explains (script : Routine) (m : Machine) (limit : Nat) (error : RuntimeError) :
    Prop where
  /-- It lists the calls that were active when the faulting instruction began. -/
  pending : ∃ count frame before waiting, count < limit ∧
    Pending (m.begin script).1 (m.begin script).2 count frame before waiting ∧
      Faults frame before error.fault ∧ error.trace = frame.atNext.traceEntry :: waiting
  /-- The innermost call is at the line of the error. -/
  first : error.trace.head?.map TraceEntry.line = some error.line
  /-- The outermost call is that of the script. -/
  last : ∃ offset, error.trace.getLast? =
    some ⟨script.chunk.lineAt offset, script.name.map Text.chars⟩
  length : error.trace.length ≤ max 1 m.config.maxFrames

theorem explains_of_callers {script : Routine} {m₀ m m' : Machine} {frame : Frame}
    {count limit : Nat} {waiting : List TraceEntry} {fault : Fault} (below : count < limit)
    (pending : Pending (m₀.begin script).1 (m₀.begin script).2 count frame m waiting)
    (faults : Faults frame m fault) (callers : m'.callers = m.callers) :
    Explains script m₀ limit (m'.runtimeError frame.atNext fault) := by
  obtain ⟨same, root, last, -, routine⟩ := pending.traces
  have bounded := pending.reaches.bounded (bounded_begin script m₀)
  have trace : (m'.runtimeError frame.atNext fault).trace = frame.atNext.traceEntry :: waiting := by
    rw [← same, ← callers]
    rfl
  constructor
  · exact ⟨count, frame, m, waiting, below, pending, faults, trace⟩
  · rfl
  · rw [trace, ← same]
    cases waiting : m.callers.toList.reverse with
    | nil =>
        obtain rfl : frame = root := by simpa [active, waiting] using last
        exact ⟨frame.ip, by rw [← routine]; rfl⟩
    | cons caller others =>
        rw [active, waiting, List.getLast?_cons_cons] at last
        refine ⟨root.opStart, ?_⟩
        rw [List.map_cons, List.getLast?_cons_cons, ← List.map_cons, List.getLast?_map, last,
          ← routine]
        rfl
  · rw [trace, List.length_cons, ← same, List.length_map, List.length_reverse]
    exact bounded.calls

/-- A run that ends leaves no values and no calls behind; the trace of a runtime error
lists the calls that were active, from the innermost to the script. -/
theorem run_leaves_nothing {limit : Nat} {script : Routine} {m m' : Machine}
    {outcome : RunOutcome} (ran : m.run limit script = (outcome, m'))
    (ended : outcome ≠ .unfinished) :
    m'.stack = #[] ∧ m'.callers = #[] ∧
      ∀ error, outcome = .failed error → 1 ≤ m.config.maxStack →
        Explains script m limit error := by
  obtain ⟨halt, after, halting, concluded⟩ := halts_run ran
  cases halting with
  | unfinished reached =>
      cases concluded
      exact absurd rfl ended
  | @faulted count frame before after fault reached below step =>
      cases concluded
      refine ⟨rfl, rfl, ?_⟩
      rintro error same room
      cases same
      obtain ⟨waiting, pending⟩ := reached.pending
      refine explains_of_callers below pending (.instruction step) ?_
      have bounded := (reached.bounded (bounded_begin script m)).traced frame
      have stepped := stepped frame (before.traced frame)
      rw [step] at stepped
      cases stepped with
      | faults within => exact within.callers.trans (callers_traced before frame)
      | overflows config callers kept full =>
          -- What is returned has just been popped, so there is room for it.
          have small := bounded.stack
          rw [bounded.config] at full
          omega
  | @finished count frame before after reached below step =>
      obtain ⟨waiting, pending⟩ := reached.pending
      have traces := pending.traces
      have stepped := stepped frame (before.traced frame)
      rw [step] at stepped
      cases stepped with
      | finishes event none =>
          rw [callers_traced] at none
          have callers : before.callers = #[] := by
            rwa [← Array.getLast?_toList, List.getLast?_eq_none_iff, Array.toList_eq_nil_iff]
              at none
          have base : frame.base = 0 := by
            obtain ⟨root, last, base, -⟩ := traces.rooted
            obtain rfl : frame = root := by simpa [active, callers] using last
            exact base
          have stack : (before.traced frame).stack.pop.shrink frame.base = #[] := by
            rw [base]
            simp
          cases concluded with
          | finished =>
              refine ⟨stack, ?_, fun error same => by cases same⟩
              simpa using callers
          | refused _ refused =>
              refine ⟨rfl, rfl, ?_⟩
              rintro error same -
              cases same
              exact explains_of_callers below pending (.flush step refused)
                (callers_traced before frame)

/-- A script that adds where there is only the script itself. -/
theorem run_leaves_nothing_sample :
    let m : Machine := .start .standard fun _ => none
    let script : Routine := ⟨0, none, 0, ⟨#[Opcode.add.toByte], #[], #[(0, 7)]⟩⟩
    ∃ error, (m.run 1 script).1 = .failed error ∧ error.fault = .stackUnderflow ∧
      (m.run 1 script).2.stack = #[] ∧ (m.run 1 script).2.callers = #[] ∧
        Explains script m 1 error := by
  intro m script
  have failed : (m.run 1 script).1 = .failed (m.runtimeError (.enter script 0) .stackUnderflow) := rfl
  have ended : (m.run 1 script).1 ≠ .unfinished := by
    rw [failed]
    exact RunOutcome.noConfusion
  have ran : m.run 1 script = ((m.run 1 script).1, (m.run 1 script).2) := rfl
  obtain ⟨stack, callers, explains⟩ := run_leaves_nothing ran ended
  exact ⟨_, failed, rfl, stack, callers, explains _ failed (by decide)⟩

end Machine
end StackScript
