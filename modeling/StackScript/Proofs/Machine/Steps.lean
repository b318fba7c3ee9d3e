import StackScript.Proofs.Machine.Calls
import StackScript.Proofs.Machine.Laws

/-!
# What one step can do

Whatever the code, an instruction other than a call or a return leaves the suspended
calls alone, and what it pushes is pushed within the limit of the stack (`Within`).
`stepped` adds the other two: a step suspends the running call, resumes the innermost
suspended one, ends the script, stays in the running call, or faults.  A run is a chain
of steps (`Reaches`), and `Halts` says in which ways it can come to an end.
-/

namespace StackScript

/-- Execution goes on in the same call. -/
def Flow.StaysIn (frame : Frame) : Flow → Prop
  | .finished => False
  | .running next =>
    next.routine = frame.routine ∧ next.base = frame.base ∧ next.opStart = frame.opStart

namespace Machine

/-- What an instruction may do to a machine, apart from calling and returning. -/
structure Within (m m' : Machine) : Prop where
  config : m'.config = m.config
  natives : m'.natives = m.natives
  callers : m'.callers = m.callers
  stack : m'.stack.size ≤ max m.stack.size m.config.maxStack

namespace Within

theorem refl (m : Machine) : Within m m := ⟨rfl, rfl, rfl, by omega⟩

theorem trans {m m' m'' : Machine} (h : Within m m') (h' : Within m' m'') : Within m m'' := by
  have first := h.stack
  have second := h'.stack
  rw [h.config] at second
  constructor
  · exact h'.config.trans h.config
  · exact h'.natives.trans h.natives
  · exact h'.callers.trans h.callers
  · omega

end Within

/-- The machine stayed within its limits, and the result, if any, is as described. -/
def Ends {α : Type} (m : Machine) (result : α → Prop) : EStateM.Result Fault Machine α → Prop
  | .ok a m' => result a ∧ Within m m'
  | .error _ m' => Within m m'

/-- However it ends, the computation stays within the limits; a result is as described. -/
def Keeps {α : Type} (x : Exec α) (result : α → Prop) : Prop := ∀ m, Ends m result (x m)

section Keeps

variable {α β : Type} {result : α → Prop}

theorem keeps_pure {a : α} (h : result a) : Keeps (pure a) result := fun m => ⟨h, .refl m⟩

theorem keeps_throw (fault : Fault) : Keeps (throw fault : Exec α) result := fun m => .refl m

theorem Keeps.bind {x : Exec α} {f : α → Exec β} {final : β → Prop} (first : Keeps x result)
    (then_ : ∀ a, result a → Keeps (f a) final) : Keeps (x >>= f) final := by
  intro m
  have here := first m
  simp only [Bind.bind, EStateM.bind]
  cases ran : x m with
  | error fault m' =>
      rw [ran] at here
      exact here
  | ok a m' =>
      rw [ran] at here
      have there := then_ a here.1 m'
      show Ends m final (f a m')
      cases ran' : f a m' with
      | error fault m'' =>
          rw [ran'] at there
          exact here.2.trans there
      | ok b m'' =>
          rw [ran'] at there
          exact ⟨there.1, here.2.trans there.2⟩

/-- Computations in which the result does not matter. -/
theorem Keeps.andThen {x : Exec α} {f : α → Exec β} {final : β → Prop}
    (first : Keeps x fun _ => True) (then_ : ∀ a, Keeps (f a) final) : Keeps (x >>= f) final :=
  first.bind fun a _ => then_ a

end Keeps

/-! ## The parts of instructions -/

theorem keeps_push (v : Value) : Keeps (push v) fun _ => True := by
  intro m
  unfold push
  by_cases full : m.config.maxStack ≤ m.stack.size
  · rw [if_pos full]
    exact .refl m
  · rw [if_neg full]
    refine ⟨trivial, rfl, rfl, rfl, ?_⟩
    simp only [Array.size_push]
    omega

theorem keeps_pop : Keeps pop fun _ => True := by
  intro m
  unfold pop
  cases m.stack.back? with
  | none => exact .refl m
  | some v =>
      refine ⟨trivial, rfl, rfl, rfl, ?_⟩
      simp only [Array.size_pop]
      omega

theorem keeps_peek (distance : Nat) : Keeps (peek distance) fun _ => True := by
  intro m
  unfold peek
  split
  · exact .refl m
  · split
    · exact .refl m
    · exact ⟨trivial, .refl m⟩

theorem keeps_truncate (height : Nat) : Keeps (truncate height) fun _ => True := by
  intro m
  refine ⟨trivial, rfl, rfl, rfl, ?_⟩
  simp only [Array.size_shrink]
  omega

theorem keeps_drop (count : Nat) : Keeps (drop count) fun _ => True := by
  intro m
  refine ⟨trivial, rfl, rfl, rfl, ?_⟩
  simp only [Array.size_shrink]
  omega

theorem keeps_slot (index : Nat) : Keeps (slot index) fun _ => True := by
  intro m
  unfold slot
  split
  · exact .refl m
  · exact ⟨trivial, .refl m⟩

theorem keeps_setSlot (index : Nat) (v : Value) : Keeps (setSlot index v) fun _ => True := by
  intro m
  refine ⟨trivial, rfl, rfl, rfl, ?_⟩
  simp only [Array.size_setIfInBounds]
  omega

theorem keeps_globalValue (name : Text) : Keeps (globalValue name) fun _ => True := by
  intro m
  unfold globalValue
  split
  · exact .refl m
  · exact ⟨trivial, .refl m⟩

theorem keeps_setGlobal (name : Text) (v : Value) : Keeps (setGlobal name v) fun _ => True :=
  fun _ => ⟨trivial, rfl, rfl, rfl, Nat.le_max_left _ _⟩

theorem keeps_intern (chars : String) : Keeps (intern chars) fun _ => True :=
  fun _ => ⟨trivial, rfl, rfl, rfl, Nat.le_max_left _ _⟩

theorem keeps_withSink {α : Type} (output : Output α) (fault : String → Fault) :
    Keeps (withSink output fault) fun _ => True := by
  rintro ⟨config, loader, heap, globals, natives, sink, log, stack, callers⟩
  unfold withSink
  dsimp only
  cases output sink with
  | ok a sink => exact ⟨trivial, rfl, rfl, rfl, Nat.le_max_left _ _⟩
  | error message sink => exact ⟨rfl, rfl, rfl, Nat.le_max_left _ _⟩

theorem keeps_applyNative (native : Native) (callee : Nat) :
    Keeps (applyNative native callee) fun _ => True :=
  fun m => keeps_withSink _ _ m

/-! ## Instructions -/

/-- Keeping to the limits, whatever the result. -/
def keeping : Law where
  Holds x := Keeps x fun _ => True
  returns _ := keeps_pure trivial
  fails fault _ := keeps_throw fault
  andThen := Keeps.andThen

theorem keeps_basic : keeping.Basic where
  push := keeps_push
  pop := keeps_pop
  peek := keeps_peek
  truncate := keeps_truncate
  drop := keeps_drop
  slot := keeps_slot
  setSlot := keeps_setSlot
  globalValue := keeps_globalValue

/-- Only calls and returns go from one call to another. -/
theorem keeps_executeInstruction (frame : Frame) {op : Opcode} (operand : Nat)
    (notCall : op ≠ .call) (notReturn : op ≠ .return) :
    Keeps (executeInstruction frame op operand) (Flow.StaysIn frame) :=
  keeps_basic.instruction (fun x => Keeps x (Flow.StaysIn frame)) Keeps.andThen
    (fun fault _ => keeps_throw fault) (fun _ => keeps_pure ⟨rfl, rfl, rfl⟩)
    (fun _ _ _ => (keeps_setGlobal _ _).andThen fun _ => keeps_pure ⟨rfl, rfl, rfl⟩)
    (fun _ => keeps_intern) (fun _ _ => keeps_withSink _ _) (fun isCall => absurd isCall notCall)
    (fun isReturn => absurd isReturn notReturn)

/-! ## Steps -/

/-- What the next instruction of a call does to the active calls. -/
inductive Event where
  /-- It calls a routine. -/
  | enters (r : Routine)
  /-- It ends the running call. -/
  | leaves
  | stays

/-- The event of the next instruction. -/
def event (frame : Frame) (m : Machine) : Event :=
  match frame.routine.chunk.decode frame.ip with
  | .ok ⟨.call, count, _⟩ =>
    match m.stack[m.stack.size - (count + 1)]?.map Value.datum with
    | some (.routine r) => .enters r
    | _ => .stays
  | .ok ⟨.return, _, _⟩ => .leaves
  | _ => .stays

/-- What the next step of a call leads to. -/
inductive Stepped (frame : Frame) (m : Machine) : EStateM.Result Fault Machine Flow → Prop where
  | stays {next : Frame} {m' : Machine} (event : m.event frame = .stays)
      (same : (Flow.running next).StaysIn frame.atNext) (within : Within m m') :
      Stepped frame m (.ok (.running next) m')
  | enters {r : Routine} {callee next : Nat} (event : m.event frame = .enters r)
      (room : m.callers.size + 2 ≤ m.config.maxFrames) :
      Stepped frame m (.ok (.running (.enter r callee))
        { m with callers := m.callers.push { frame.atNext with ip := next } })
  | resumes {caller : Frame} {m' : Machine} (event : m.event frame = .leaves)
      (last : m.callers.back? = some caller) (config : m'.config = m.config)
      (natives : m'.natives = m.natives) (callers : m'.callers = m.callers.pop)
      (room : m'.stack.size ≤ m.config.maxStack) :
      Stepped frame m (.ok (.running caller) m')
  | finishes (event : m.event frame = .leaves) (none : m.callers.back? = none) :
      Stepped frame m (.ok .finished { m with stack := m.stack.pop.shrink frame.base })
  | faults {fault : Fault} {m' : Machine} (within : Within m m') : Stepped frame m (.error fault m')
  /-- A result that has no room where it is returned to. -/
  | overflows {m' : Machine} (config : m'.config = m.config)
      (callers : m'.callers = m.callers.pop) (kept : m'.stack.size < m.stack.size)
      (full : m.config.maxStack ≤ m'.stack.size) :
      Stepped frame m (.error .stackOverflow m')

theorem stepped_of_keeps {frame frame' : Frame} {m : Machine} {x : Exec Flow}
    (event : m.event frame = .stays) (same : frame' = frame.atNext ∨
      ∃ ip, frame' = { frame.atNext with ip }) (h : Keeps x (Flow.StaysIn frame')) :
    Stepped frame m (x m) := by
  have ends := h m
  cases ran : x m with
  | error fault m' =>
      rw [ran] at ends
      exact .faults ends
  | ok flow m' =>
      rw [ran] at ends
      cases flow with
      | finished => exact ends.1.elim
      | running next =>
          refine .stays event ?_ ends.2
          rcases same with rfl | ⟨ip, rfl⟩ <;> exact ends.1

theorem step_ok {frame : Frame} {op : Opcode} {operand next : Nat}
    (code : frame.routine.chunk.decode frame.ip = .ok ⟨op, operand, next⟩) :
    step frame = executeInstruction { frame.atNext with ip := next } op operand := by
  simp only [step, code]

/-- A call looks for its callee below the arguments. -/
theorem call_eq {count : Nat} (m : Machine) (frame : Frame) {v : Value}
    (there : m.stack[m.stack.size - (count + 1)]? = some v) (enough : ¬ m.stack.size < count + 1) :
    call frame count m =
      calling frame (m.stack.size - (count + 1)) count v.datum m := by
  have index : calleeIndex count m = .ok (m.stack.size - (count + 1)) m := if_neg enough
  have callee : slot (m.stack.size - (count + 1)) m = .ok v m := by simp only [slot, there]
  simp only [call, bind, EStateM.bind, index, callee]
  cases v.datum <;> rfl

theorem stepped_call {frame : Frame} {count next : Nat} (m : Machine)
    (code : frame.routine.chunk.decode frame.ip = .ok ⟨.call, count, next⟩) :
    Stepped frame m (call { frame.atNext with ip := next } count m) := by
  have event : m.event frame = match m.stack[m.stack.size - (count + 1)]?.map Value.datum with
      | some (.routine r) => .enters r
      | _ => .stays := by
    simp only [Machine.event, code]
  by_cases short : m.stack.size < count + 1
  · have failed : call { frame.atNext with ip := next } count m = .error .stackUnderflow m := by
      simp only [call, bind, EStateM.bind, calleeIndex, if_pos short]
    rw [failed]
    exact .faults (.refl m)
  obtain ⟨v, there⟩ : ∃ v, m.stack[m.stack.size - (count + 1)]? = some v :=
    ⟨_, Array.getElem?_eq_getElem (by omega)⟩
  rw [call_eq m _ there short]
  rw [there, Option.map_some] at event
  cases kind : v.datum with
  | routine r =>
      rw [kind] at event
      simp only [calling, enterRoutine]
      split
      · exact .faults (.refl m)
      · split
        · exact .faults (.refl m)
        · exact .enters event (by omega)
  | native n =>
      rw [kind] at event
      exact stepped_of_keeps event (.inr ⟨next, rfl⟩) <|
        (keeps_applyNative n _).andThen fun _ => (keeps_truncate _).andThen fun _ =>
          (keeps_push _).andThen fun _ => keeps_pure ⟨rfl, rfl, rfl⟩
  | null | bool | number | string => exact .faults (.refl m)

theorem stepped_leave {frame : Frame} {operand next : Nat} (m : Machine)
    (code : frame.routine.chunk.decode frame.ip = .ok ⟨.return, operand, next⟩) :
    Stepped frame m (leave { frame.atNext with ip := next } m) := by
  have event : m.event frame = .leaves := by simp only [Machine.event, code]
  simp only [leave, bind, EStateM.bind, pop]
  cases top : m.stack.back? with
  | none => exact .faults (.refl m)
  | some v =>
      have nonempty : 0 < m.stack.size := by
        apply Nat.pos_of_ne_zero
        intro empty
        rw [Array.back?_eq_getElem?, empty] at top
        simp [Array.size_eq_zero_iff.mp empty] at top
      have lower : (m.stack.pop.shrink frame.base).size < m.stack.size := by
        simp only [Array.size_shrink, Array.size_pop]
        omega
      simp only [truncate, resumeCaller, Frame.atNext]
      cases last : m.callers.back? with
      | none => exact .finishes event last
      | some caller =>
          by_cases full : m.config.maxStack ≤ (m.stack.pop.shrink frame.base).size
          · simp only [EStateM.bind, push, if_pos full]
            exact .overflows rfl rfl lower full
          · simp only [EStateM.bind, push, if_neg full]
            refine .resumes event last rfl rfl rfl ?_
            simp only [Array.size_push]
            omega

/-- What a step can do. -/
theorem stepped (frame : Frame) (m : Machine) : Stepped frame m (step frame m) := by
  cases code : frame.routine.chunk.decode frame.ip with
  | error e =>
      have failed : step frame m = .error (.ofDecodeError e) m := by
        simp only [step, code]
        rfl
      rw [failed]
      exact .faults (.refl m)
  | ok instruction =>
      obtain ⟨op, operand, next⟩ := instruction
      rw [step_ok code]
      by_cases isCall : op = .call
      · subst isCall
        exact stepped_call m code
      by_cases isReturn : op = .return
      · subst isReturn
        exact stepped_leave m code
      refine stepped_of_keeps ?_ (.inr ⟨next, rfl⟩)
        (keeps_executeInstruction _ operand isCall isReturn)
      unfold event
      rw [code]
      cases op <;> first | rfl | contradiction

/-! ## Runs -/

/-- The machine that executes the next instruction: the log may have got longer. -/
def traced (m : Machine) (frame : Frame) : Machine :=
  if m.config.traceExecution then m.traceInstruction frame else m

section Traced

variable (m : Machine) (frame : Frame)

@[simp] theorem config_traced : (m.traced frame).config = m.config := by
  unfold traced
  split <;> rfl

@[simp] theorem stack_traced : (m.traced frame).stack = m.stack := by
  unfold traced
  split <;> rfl

@[simp] theorem callers_traced : (m.traced frame).callers = m.callers := by
  unfold traced
  split <;> rfl

@[simp] theorem event_traced (other : Frame) : (m.traced frame).event other = m.event other := by
  simp only [event, stack_traced]

end Traced

section Execute

variable {m m' : Machine} {frame next : Frame} {fault : Fault}

theorem execute_error (ran : step frame (m.traced frame) = .error fault m') (limit : Nat) :
    execute (limit + 1) frame m = (.faulted frame.atNext fault, m') := by
  simp only [traced] at ran
  simp only [execute, ran]

theorem execute_finished (ran : step frame (m.traced frame) = .ok .finished m') (limit : Nat) :
    execute (limit + 1) frame m = (.finished frame.atNext, m') := by
  simp only [traced] at ran
  simp only [execute, ran]

theorem execute_running (ran : step frame (m.traced frame) = .ok (.running next) m') (limit : Nat) :
    execute (limit + 1) frame m = execute limit next m' := by
  simp only [traced] at ran
  simp only [execute, ran]

end Execute

/-- Executing a number of instructions leads from one call and machine to another. -/
inductive Reaches (first : Frame) (start : Machine) : Nat → Frame → Machine → Prop where
  | refl : Reaches first start 0 first start
  | step {count : Nat} {frame next : Frame} {m m' : Machine} (before : Reaches first start count frame m)
      (ran : Machine.step frame (m.traced frame) = .ok (.running next) m') :
      Reaches first start (count + 1) next m'

/-- How executing instructions comes to an end. -/
inductive Halts (first : Frame) (start : Machine) (limit : Nat) : Halt × Machine → Prop where
  | finished {count : Nat} {frame : Frame} {m m' : Machine} (reached : Reaches first start count frame m)
      (below : count < limit) (ran : step frame (m.traced frame) = .ok .finished m') :
      Halts first start limit (.finished frame.atNext, m')
  | faulted {count : Nat} {frame : Frame} {m m' : Machine} {fault : Fault}
      (reached : Reaches first start count frame m) (below : count < limit)
      (ran : step frame (m.traced frame) = .error fault m') :
      Halts first start limit (.faulted frame.atNext fault, m')
  | unfinished {frame : Frame} {m : Machine} (reached : Reaches first start limit frame m) :
      Halts first start limit (.unfinished frame, m)

theorem Reaches.execute {first frame : Frame} {start m : Machine} {count : Nat}
    (reached : Reaches first start count frame m) (limit : Nat) :
    Machine.execute (count + limit) first start = Machine.execute limit frame m := by
  induction reached generalizing limit with
  | refl => rw [Nat.zero_add]
  | step before ran ih =>
      rw [Nat.add_assoc, ih, Nat.add_comm, execute_running ran]

/-- Execution halts after a chain of steps. -/
theorem halts (first : Frame) (start : Machine) (limit : Nat) :
    Halts first start limit (execute limit first start) := by
  -- The instructions executed so far are followed by those still to be executed.
  suffices onward : ∀ {rest count : Nat} {frame : Frame} {m : Machine},
      Reaches first start count frame m → count + rest = limit →
        Halts first start limit (execute rest frame m) from onward .refl (Nat.zero_add _)
  intro rest
  induction rest with
  | zero =>
      rintro count frame m reached rfl
      exact .unfinished reached
  | succ rest ih =>
      intro count frame m reached total
      cases ran : step frame (m.traced frame) with
      | error fault m' =>
          rw [execute_error ran]
          exact .faulted reached (by omega) ran
      | ok flow m' =>
          cases flow with
          | finished =>
              rw [execute_finished ran]
              exact .finished reached (by omega) ran
          | running next =>
              rw [execute_running ran]
              exact ih (.step reached ran) (by omega)

/-- Flushing changes nothing, whether or not it succeeds. -/
theorem flush_eq (m : Machine) :
    flush m = .ok () m ∨ ∃ failure, flush m = .error (.output failure) m := by
  obtain ⟨config, loader, heap, globals, natives, sink, log, stack, callers⟩ := m
  unfold flush withSink Sink.flush
  cases failing : sink.flushFailure with
  | none => exact .inl (by simp only [failing])
  | some failure => exact .inr ⟨failure, by simp only [failing]⟩

theorem flushed_eq (m : Machine) : m.flushed = m := by
  unfold flushed
  rcases flush_eq m with flushed | ⟨failure, refused⟩
  · rw [flushed]
  · rw [refused]

/-- How a run ends whose instructions have halted. -/
inductive Concludes (m : Machine) : Halt → RunOutcome × Machine → Prop where
  | finished (frame : Frame) (log : Log) : Concludes m (.finished frame) (.finished, { m with log })
  /-- The script is done, but its output cannot be flushed. -/
  | refused (frame : Frame) {failure : String} (refused : flush m = .error (.output failure) m) :
      Concludes m (.finished frame) (.failed (m.runtimeError frame (.output failure)), m.clear)
  | faulted (frame : Frame) (fault : Fault) :
      Concludes m (.faulted frame fault) (.failed (m.runtimeError frame fault), m.clear)
  | unfinished (frame : Frame) : Concludes m (.unfinished frame) (.unfinished, m)

theorem concludes (halt : Halt) (m : Machine) : Concludes m halt (m.conclude halt) := by
  cases halt with
  | unfinished frame => exact .unfinished frame
  | faulted frame fault =>
      simp only [conclude, fail, flushed_eq]
      exact .faulted frame fault
  | finished frame =>
      simp only [conclude]
      rcases flush_eq m with flushed | ⟨failure, refused⟩
      · rw [flushed]
        exact .finished frame _
      · rw [refused]
        simp only [fail, flushed_eq]
        exact .refused frame refused

/-- What is done behind a run does not matter for the next one. -/
theorem conclude_eq (halt : Halt) (m : Machine) :
    ∃ log stack callers, (m.conclude halt).2 = { m with log, stack, callers } := by
  have concluded := concludes halt m
  generalize m.conclude halt = result at concluded ⊢
  cases concluded <;> exact ⟨_, _, _, rfl⟩

/-- What a run returns is concluded from how its execution halted. -/
theorem halts_run {limit : Nat} {script : Routine} {m m' : Machine} {outcome : RunOutcome}
    (ran : m.run limit script = (outcome, m')) :
    ∃ halt after, Halts (m.begin script).1 (m.begin script).2 limit (halt, after) ∧
      Concludes after halt (outcome, m') :=
  ⟨_, _, halts _ _ limit, ran ▸ concludes _ _⟩

end Machine
end StackScript
