import StackScript.Proofs.Machine.Modules
import StackScript.Proofs.Machine.Trace

/-!
# Raising the limits

Two machines that differ in their limits and their logs alone take the same steps, until
the one with the lower limits overflows.  `Lockstep` says so of every part of an
instruction; a fault of any other kind, and everything that is written before it, does not
depend on the limits.  What has been written stays written, so the run that overflows
writes the beginning of what the other one writes.
-/

namespace StackScript

/-! ## What has been written -/

/-- What one sink has taken is the beginning of what another has taken. -/
def Sink.Precedes (s s' : Sink) : Prop := ∃ more, s'.written = s.written ++ more

namespace Sink

theorem Precedes.refl (s : Sink) : s.Precedes s := ⟨.empty, ByteArray.append_empty.symm⟩

theorem Precedes.trans {s s' s'' : Sink} (h : s.Precedes s') (h' : s'.Precedes s'') :
    s.Precedes s'' := by
  obtain ⟨more, first⟩ := h
  obtain ⟨rest, second⟩ := h'
  exact ⟨more ++ rest, by rw [second, first, ByteArray.append_assoc]⟩

end Sink

/-- The sink after some output, whether or not it failed. -/
def Output.sinkOf {α : Type} : EStateM.Result String Sink α → Sink
  | .ok _ sink => sink
  | .error _ sink => sink

/-- Output that adds to what has been written, and takes nothing back. -/
def Output.Adds {α : Type} (output : Output α) : Prop :=
  ∀ sink : Sink, sink.Precedes (Output.sinkOf (output sink))

namespace Output

variable {α β : Type}

theorem adds_pure (a : α) : Adds (pure a) := fun sink => Sink.Precedes.refl sink

theorem Adds.bind {x : Output α} {f : α → Output β} (first : x.Adds) (then_ : ∀ a, (f a).Adds) :
    (x >>= f).Adds := by
  intro sink
  have here := first sink
  simp only [Bind.bind, EStateM.bind]
  cases ran : x sink with
  | error message sink' =>
      rw [ran] at here
      exact here
  | ok a sink' =>
      rw [ran] at here
      exact here.trans (then_ a sink')

theorem adds_write (text : String) : (Sink.write text).Adds := by
  rintro ⟨written, room, flushFailure⟩
  cases room with
  | none => exact ⟨_, rfl⟩
  | some limit =>
      obtain ⟨most, failure⟩ := limit
      simp only [Sink.write]
      split
      · exact ⟨_, rfl⟩
      · exact ⟨_, rfl⟩

theorem adds_forM (values : List α) {f : α → Output PUnit} (h : ∀ a, (f a).Adds) :
    (values.forM f).Adds := by
  induction values with
  | nil => exact adds_pure _
  | cons a rest ih => exact (h a).bind fun _ => ih

end Output

/-- A host function that writes through its sink only. -/
def NativeFunction.Adds (f : NativeFunction) : Prop :=
  ∀ context arguments, Output.Adds (f context arguments)

namespace Library

open Output

/-- The functions of the standard modules write through their sinks only. -/
theorem adds_modules : ∀ found ∈ modules, ∀ symbol ∈ found.symbols, symbol.function.Adds := by
  have printing : NativeFunction.Adds println := by
    rintro context ⟨arguments⟩
    simp only [println, Array.forM_eq_forM, List.forM_toArray]
    exact (adds_forM _ fun _ => adds_write _).bind fun _ => (adds_write _).bind fun _ =>
      adds_pure _
  have listing : NativeFunction.Adds printGlobals := fun _ _ =>
    (adds_forM _ fun _ => adds_write _).bind fun _ => adds_pure _
  have dumping : NativeFunction.Adds printStack := fun _ _ =>
    (adds_forM _ fun _ => adds_write _).bind fun _ => adds_pure _
  exact forall_symbols printing listing dumping

end Library

namespace Machine

/-- The machine with other limits and another log. -/
def raised (limits : MachineConfig) (log : Log) (m : Machine) : Machine :=
  { m with config := limits, log }

/-- The result with other limits and another log. -/
def raisedResult {α : Type} (limits : MachineConfig) (log : Log) :
    EStateM.Result Fault Machine α → EStateM.Result Fault Machine α
  | .ok a m => .ok a (m.raised limits log)
  | .error fault m => .error fault (m.raised limits log)

@[simp] theorem config_raised (limits : MachineConfig) (log : Log) (m : Machine) :
    (m.raised limits log).config = limits := rfl

@[simp] theorem stack_raised (limits : MachineConfig) (log : Log) (m : Machine) :
    (m.raised limits log).stack = m.stack := rfl

@[simp] theorem callers_raised (limits : MachineConfig) (log : Log) (m : Machine) :
    (m.raised limits log).callers = m.callers := rfl

/-- Limits at least as high as those of a machine. -/
structure Allows (limits : MachineConfig) (m : Machine) : Prop where
  frames : m.config.maxFrames ≤ limits.maxFrames
  stack : m.config.maxStack ≤ limits.maxStack

/-- The host functions of a machine write through its sink only. -/
def Prints (m : Machine) : Prop := ∀ f ∈ m.natives, f.Adds

/-- What a computation never changes, and what it may add to. -/
structure Proceeding (m m' : Machine) : Prop where
  config : m'.config = m.config
  natives : m'.natives = m.natives
  sink : m.sink.Precedes m'.sink

namespace Proceeding

theorem refl (m : Machine) : Proceeding m m := ⟨rfl, rfl, .refl _⟩

theorem trans {m m' m'' : Machine} (h : Proceeding m m') (h' : Proceeding m' m'') :
    Proceeding m m'' :=
  ⟨h'.config.trans h.config, h'.natives.trans h.natives, h.sink.trans h'.sink⟩

theorem prints {m m' : Machine} (h : Proceeding m m') (prints : m.Prints) : m'.Prints := by
  unfold Prints
  rw [h.natives]
  exact prints

theorem allows {m m' : Machine} {limits : MachineConfig} (h : Proceeding m m')
    (allows : Allows limits m) : Allows limits m' := by
  constructor
  · rw [h.config]
    exact allows.frames
  · rw [h.config]
    exact allows.stack

end Proceeding

/-- With higher limits a computation ends alike, or it goes on where it overflowed before. -/
inductive Outlasts {α : Type} (limits : MachineConfig) (log : Log)
    (result : EStateM.Result Fault Machine α) : EStateM.Result Fault Machine α → Prop where
  | alike : Outlasts limits log result (raisedResult limits log result)
  | overflows {m : Machine} {result' : EStateM.Result Fault Machine α}
      (overflow : result = .error .stackOverflow m)
      (onward : m.sink.Precedes (after result').sink) : Outlasts limits log result result'

/-- A computation that proceeds in step whatever the limits, unless it overflows. -/
structure Lockstep {α : Type} (x : Exec α) : Prop where
  proceeds : ∀ {m}, m.Prints → Proceeding m (after (x m))
  outlasts : ∀ {m limits} log, m.Prints → Allows limits m →
    Outlasts limits log (x m) (x (m.raised limits log))

section Lockstep

variable {α β : Type}

/-- A computation that neither looks at the limits nor writes. -/
structure Blindly (x : Exec α) : Prop where
  config : ∀ m, (after (x m)).config = m.config
  natives : ∀ m, (after (x m)).natives = m.natives
  sink : ∀ m, (after (x m)).sink = m.sink
  commutes : ∀ limits log m, x (m.raised limits log) = raisedResult limits log (x m)

theorem Blindly.lockstep {x : Exec α} (h : Blindly x) : Lockstep x where
  proceeds _ := ⟨h.config _, h.natives _, h.sink _ ▸ .refl _⟩
  outlasts log _ _ := h.commutes _ log _ ▸ .alike

theorem lockstep_pure (a : α) : Lockstep (pure a) :=
  Blindly.lockstep ⟨fun _ => rfl, fun _ => rfl, fun _ => rfl, fun _ _ _ => rfl⟩

theorem lockstep_throw (fault : Fault) : Lockstep (throw fault : Exec α) :=
  Blindly.lockstep ⟨fun _ => rfl, fun _ => rfl, fun _ => rfl, fun _ _ _ => rfl⟩

theorem Lockstep.bind {x : Exec α} {f : α → Exec β} (first : Lockstep x)
    (then_ : ∀ a, Lockstep (f a)) : Lockstep (x >>= f) := by
  constructor
  · intro m prints
    have here := first.proceeds prints
    simp only [Bind.bind, EStateM.bind]
    cases ran : x m with
    | error fault m' =>
        rw [ran] at here
        exact here
    | ok a m' =>
        rw [ran] at here
        exact here.trans ((then_ a).proceeds (here.prints prints))
  · intro m limits log prints allows
    have here := first.proceeds prints
    have raisedHere := first.proceeds (m := m.raised limits log) prints
    have outlasts := first.outlasts log prints allows
    simp only [Bind.bind, EStateM.bind]
    generalize x (m.raised limits log) = result' at outlasts raisedHere
    cases ran : x m with
    | error fault m' =>
        rw [ran] at outlasts
        cases outlasts with
        | alike => exact .alike
        -- after the overflow nothing more is written, while the other run may still write
        | overflows overflow onward =>
            cases overflow
            refine .overflows rfl ?_
            cases result' with
            | error fault' n => exact onward
            | ok a n =>
                exact onward.trans ((then_ a).proceeds (raisedHere.prints prints)).sink
    | ok a m' =>
        rw [ran] at outlasts here
        cases outlasts with
        | alike => exact (then_ a).outlasts log (here.prints prints) (here.allows allows)
        | overflows overflow _ => cases overflow

end Lockstep

/-! ## The parts of instructions -/

theorem lockstep_push (v : Value) : Lockstep (push v) := by
  constructor
  · intro m _
    unfold push
    split
    · exact .refl m
    · exact ⟨rfl, rfl, .refl _⟩
  · intro m limits log _ allows
    have room := allows.stack
    unfold push
    by_cases full : m.config.maxStack ≤ m.stack.size
    · rw [if_pos full]
      refine .overflows rfl ?_
      split
      · exact .refl _
      · exact .refl _
    · rw [if_neg full, config_raised, stack_raised, if_neg (by omega)]
      exact .alike

theorem lockstep_pop : Lockstep pop := by
  refine Blindly.lockstep ⟨fun m => ?_, fun m => ?_, fun m => ?_, fun limits log m => ?_⟩
  all_goals
    simp only [pop, raised]
    cases m.stack.back? <;> rfl

theorem lockstep_peek (distance : Nat) : Lockstep (peek distance) := by
  refine Blindly.lockstep ⟨fun m => ?_, fun m => ?_, fun m => ?_, fun limits log m => ?_⟩
  all_goals unfold peek
  case refine_4 =>
    by_cases short : m.stack.size < distance + 1
    · rw [if_pos short, if_pos (show (m.raised limits log).stack.size < _ from short)]
      rfl
    · rw [if_neg short, if_neg (show ¬ (m.raised limits log).stack.size < _ from short),
        stack_raised]
      cases m.stack[m.stack.size - (distance + 1)]? <;> rfl
  all_goals
    split
    · rfl
    · split <;> rfl

theorem lockstep_truncate (height : Nat) : Lockstep (truncate height) :=
  Blindly.lockstep ⟨fun _ => rfl, fun _ => rfl, fun _ => rfl, fun _ _ _ => rfl⟩

theorem lockstep_drop (count : Nat) : Lockstep (drop count) :=
  Blindly.lockstep ⟨fun _ => rfl, fun _ => rfl, fun _ => rfl, fun _ _ _ => rfl⟩

theorem lockstep_slot (index : Nat) : Lockstep (slot index) := by
  refine Blindly.lockstep ⟨fun m => ?_, fun m => ?_, fun m => ?_, fun limits log m => ?_⟩
  all_goals
    simp only [slot, raised]
    cases m.stack[index]? <;> rfl

theorem lockstep_setSlot (index : Nat) (v : Value) : Lockstep (setSlot index v) :=
  Blindly.lockstep ⟨fun _ => rfl, fun _ => rfl, fun _ => rfl, fun _ _ _ => rfl⟩

theorem lockstep_globalValue (name : Text) : Lockstep (globalValue name) := by
  refine Blindly.lockstep ⟨fun m => ?_, fun m => ?_, fun m => ?_, fun limits log m => ?_⟩
  all_goals
    simp only [globalValue, raised, global?]
    cases m.globals[name.chars]?.map Global.value <;> rfl

theorem lockstep_setGlobal (name : Text) (v : Value) : Lockstep (setGlobal name v) :=
  Blindly.lockstep ⟨fun _ => rfl, fun _ => rfl, fun _ => rfl, fun _ _ _ => rfl⟩

theorem lockstep_intern (chars : String) : Lockstep (intern chars) :=
  Blindly.lockstep ⟨fun _ => rfl, fun _ => rfl, fun _ => rfl, fun _ _ _ => rfl⟩

theorem lockstep_calleeIndex (count : Nat) : Lockstep (calleeIndex count) := by
  refine Blindly.lockstep ⟨fun m => ?_, fun m => ?_, fun m => ?_, fun limits log m => ?_⟩
  all_goals unfold calleeIndex
  case refine_4 =>
    by_cases short : m.stack.size < count + 1
    · rw [if_pos short, if_pos (show (m.raised limits log).stack.size < _ from short)]
      rfl
    · rw [if_neg short, if_neg (show ¬ (m.raised limits log).stack.size < _ from short)]
      rfl
  all_goals split <;> rfl

theorem lockstep_resumeCaller : Lockstep resumeCaller := by
  refine Blindly.lockstep ⟨fun m => ?_, fun m => ?_, fun m => ?_, fun limits log m => ?_⟩
  all_goals
    simp only [resumeCaller, raised]
    cases m.callers.back? <;> rfl

/-- Output may depend on what the machine shows to the host, which is neither its limits
nor its log. -/
theorem lockstep_withSink {α : Type} {output : Machine → Output α} (fault : String → Fault)
    (same : ∀ limits log m, output (m.raised limits log) = output m)
    (adds : ∀ m, m.Prints → (output m).Adds) :
    Lockstep fun m => withSink (output m) fault m := by
  constructor
  · rintro ⟨config, loader, heap, globals, natives, sink, log, stack, callers⟩ prints
    have written := adds _ prints sink
    simp only [withSink]
    cases ran : output ⟨config, loader, heap, globals, natives, sink, log, stack, callers⟩ sink with
    | ok a sink' =>
        rw [ran] at written
        exact ⟨rfl, rfl, written⟩
    | error message sink' =>
        rw [ran] at written
        exact ⟨rfl, rfl, written⟩
  · rintro ⟨config, loader, heap, globals, natives, sink, log, stack, callers⟩ limits log' _ _
    simp only [same]
    simp only [withSink, raised]
    cases output ⟨config, loader, heap, globals, natives, sink, log, stack, callers⟩ sink with
    | ok a sink' => exact .alike
    | error message sink' => exact .alike

theorem lockstep_print (text : String) (fault : String → Fault) :
    Lockstep (withSink (Sink.writeLine text) fault) :=
  lockstep_withSink fault (fun _ _ _ => rfl) fun _ _ => Output.adds_write _

theorem lockstep_applyNative (native : Native) (callee : Nat) :
    Lockstep (applyNative native callee) := by
  refine lockstep_withSink _ (fun _ _ _ => rfl) fun m prints => ?_
  cases found : m.natives[native.id]? with
  | none => exact fun sink => .refl sink
  | some f => exact prints f (Array.mem_of_getElem? found) _ _

theorem lockstep_enterRoutine (frame : Frame) (r : Routine) (callee count : Nat) :
    Lockstep (enterRoutine frame r callee count) := by
  constructor
  · intro m _
    unfold enterRoutine
    split
    · exact .refl m
    · split
      · exact .refl m
      · exact ⟨rfl, rfl, .refl _⟩
  · intro m limits log _ allows
    have room := allows.frames
    unfold enterRoutine
    by_cases arity : count ≠ r.arity
    · rw [if_pos arity, if_pos arity]
      exact .alike
    · rw [if_neg arity, if_neg arity]
      by_cases deep : m.config.maxFrames < m.callers.size + 2
      · rw [if_pos deep]
        refine .overflows rfl ?_
        split
        · exact .refl _
        · exact .refl _
      · have shallow : ¬ (m.raised limits log).config.maxFrames <
            (m.raised limits log).callers.size + 2 := by
          rw [config_raised, callers_raised]
          omega
        rw [if_neg deep, if_neg shallow]
        exact .alike

/-! ## Instructions and steps -/

/-- Proceeding in step whatever the limits. -/
def marching : Law where
  Holds := Lockstep
  returns := lockstep_pure
  fails fault _ := lockstep_throw fault
  andThen := Lockstep.bind

theorem lockstep_basic : marching.Basic where
  push := lockstep_push
  pop := lockstep_pop
  peek := lockstep_peek
  truncate := lockstep_truncate
  drop := lockstep_drop
  slot := lockstep_slot
  setSlot := lockstep_setSlot
  globalValue := lockstep_globalValue

theorem lockstep_executeInstruction (frame : Frame) (op : Opcode) (operand : Nat) :
    Lockstep (executeInstruction frame op operand) :=
  lockstep_basic.executeInstruction (fun _ => lockstep_setGlobal) (fun _ => lockstep_intern)
    (fun _ _ => lockstep_print _ _)
    (fun _ => lockstep_basic.call lockstep_calleeIndex lockstep_enterRoutine lockstep_applyNative ..)
    (fun _ => lockstep_basic.leave lockstep_resumeCaller frame)

/-- A step depends on the limits in nothing but whether it overflows. -/
theorem lockstep_step (frame : Frame) : Lockstep (step frame) := by
  unfold step
  split
  · exact lockstep_throw _
  · exact lockstep_executeInstruction _ _ _

/-! ## Runs -/

variable {limits : MachineConfig} {m : Machine}

theorem proceeding_traced (m : Machine) (frame : Frame) : Proceeding m (m.traced frame) := by
  unfold traced
  split
  · exact ⟨rfl, rfl, .refl _⟩
  · exact .refl m

/-- Tracing changes the log alone. -/
theorem traced_raised (limits : MachineConfig) (log : Log) (m : Machine) (frame : Frame) :
    ∃ log', (m.raised limits log).traced frame = (m.traced frame).raised limits log' := by
  refine ⟨((m.raised limits log).traced frame).log, ?_⟩
  unfold traced
  split
  · split
    · rfl
    · rfl
  · split
    · rfl
    · rfl

/-- Executing instructions only adds to what has been written. -/
theorem proceeding_execute (limit : Nat) (frame : Frame) (prints : m.Prints) :
    Proceeding m (execute limit frame m).2 := by
  refine execute_keeps (fun frame m' before => ?_) limit frame (.refl m)
  have traced := before.trans (proceeding_traced m' frame)
  exact traced.trans ((lockstep_step frame).proceeds (traced.prints prints))

/-- An execution that overflows writes the beginning of what is written with higher
limits, and every other execution goes as with higher limits. -/
theorem execute_raised (limit : Nat) (frame : Frame) (log : Log) (prints : m.Prints)
    (allows : Allows limits m) :
    (∃ log', execute limit frame (m.raised limits log) =
        ((execute limit frame m).1, (execute limit frame m).2.raised limits log')) ∨
      (∃ last, (execute limit frame m).1 = .faulted last .stackOverflow) ∧
        ∀ more, limit ≤ more → (execute limit frame m).2.sink.Precedes
          (execute more frame (m.raised limits log)).2.sink := by
  induction limit generalizing frame m log with
  | zero => exact .inl ⟨log, rfl⟩
  | succ limit ih =>
      have tracing := proceeding_traced m frame
      obtain ⟨log', traced'⟩ := traced_raised limits log m frame
      have outlasts := (lockstep_step frame).outlasts log' (tracing.prints prints)
        (tracing.allows allows)
      have proceeds := (lockstep_step frame).proceeds (m := (m.traced frame).raised limits log')
        (tracing.prints prints)
      rw [← traced'] at outlasts proceeds
      cases ran : step frame (m.traced frame) with
      | error fault m' =>
          rw [ran] at outlasts
          generalize ran' : step frame ((m.raised limits log).traced frame) = result'
            at outlasts proceeds
          rw [execute_error ran]
          cases outlasts with
          | alike => exact .inl ⟨log', execute_error ran' limit⟩
          | overflows overflow onward =>
              cases overflow
              refine .inr ⟨⟨_, rfl⟩, fun more le => ?_⟩
              obtain ⟨more, rfl⟩ : ∃ k, more = k + 1 := ⟨more - 1, by omega⟩
              cases result' with
              | error fault' n =>
                  rw [execute_error ran']
                  exact onward
              | ok flow n =>
                  cases flow with
                  | finished =>
                      rw [execute_finished ran']
                      exact onward
                  | running next =>
                      rw [execute_running ran']
                      exact onward.trans (proceeding_execute more next
                        (proceeds.prints ((proceeding_traced _ frame).prints prints))).sink
      | ok flow m' =>
          have next := tracing.trans ((lockstep_step frame).proceeds (tracing.prints prints))
          rw [ran] at outlasts next
          generalize ran' : step frame ((m.raised limits log).traced frame) = result'
            at outlasts
          cases outlasts with
          | overflows overflow => cases overflow
          | alike =>
              cases flow with
              | finished =>
                  rw [execute_finished ran]
                  exact .inl ⟨log', execute_finished ran' limit⟩
              | running other =>
                  rw [execute_running ran, execute_running ran']
                  -- the first step is alike, and the rest goes as the induction says
                  rcases ih other log' (next.prints prints) (next.allows allows) with
                    alike | ⟨overflow, writes⟩
                  · exact .inl alike
                  · refine .inr ⟨overflow, fun more le => ?_⟩
                    obtain ⟨more, rfl⟩ : ∃ k, more = k + 1 := ⟨more - 1, by omega⟩
                    rw [execute_running ran']
                    exact writes more (by omega)

/-- An execution that has ended is not changed by further steps. -/
theorem execute_of_ended {limit more : Nat} {frame : Frame}
    (ended : ∀ last, (execute limit frame m).1 ≠ .unfinished last) (le : limit ≤ more) :
    execute more frame m = execute limit frame m := by
  induction limit generalizing more frame m with
  | zero => exact absurd rfl (ended frame)
  | succ limit ih =>
      obtain ⟨more, rfl⟩ : ∃ k, more = k + 1 := ⟨more - 1, by omega⟩
      cases ran : step frame (m.traced frame) with
      | error fault m' => rw [execute_error ran, execute_error ran]
      | ok flow m' =>
          cases flow with
          | finished => rw [execute_finished ran, execute_finished ran]
          | running next =>
              rw [execute_running ran] at ended
              rw [execute_running ran, execute_running ran]
              exact ih ended (by omega)

/-! ## Ends of runs -/

section Conclude

variable (halt : Halt) (m : Machine)

/-- Ending a run writes nothing. -/
theorem sink_conclude : (m.conclude halt).2.sink = m.sink := by
  obtain ⟨log, stack, callers, same⟩ := conclude_eq halt m
  rw [same]

theorem flush_raised (limits : MachineConfig) (log : Log) :
    flush (m.raised limits log) = raisedResult limits log (flush m) := by
  obtain ⟨config, loader, heap, globals, natives, sink, log, stack, callers⟩ := m
  simp only [flush, withSink, raised]
  cases Sink.flush sink <;> rfl

/-- How a run ends does not depend on limits and log. -/
theorem conclude_raised (limits : MachineConfig) (log : Log) :
    ((m.raised limits log).conclude halt).1 = (m.conclude halt).1 ∧
      ∃ log', ((m.raised limits log).conclude halt).2 =
        (m.conclude halt).2.raised limits log' := by
  cases halt with
  | unfinished frame => exact ⟨rfl, log, rfl⟩
  | faulted frame fault =>
      simp only [conclude, fail, flushed_eq]
      exact ⟨rfl, log, rfl⟩
  | finished frame =>
      simp only [conclude, flush_raised]
      rcases flush_eq m with ran | ⟨failure, ran⟩
      · rw [ran]
        exact ⟨rfl, _, rfl⟩
      · rw [ran]
        simp only [raisedResult, fail, flushed_eq]
        exact ⟨rfl, log, rfl⟩

end Conclude

/-- A run is unfinished if and only if its execution is. -/
theorem ended_of_conclude {halt : Halt} {m : Machine} (ended : (m.conclude halt).1 ≠ .unfinished)
    (last : Frame) : halt ≠ .unfinished last := by
  rintro rfl
  exact ended rfl

/-- With higher limits a run that did not overflow ends alike and has the same effects;
what a run that overflowed has written is the beginning of what it writes then. -/
theorem raised_run {limit : Nat} {script : Routine} {m : Machine} {limits : MachineConfig}
    (prints : m.Prints) (frames : m.config.maxFrames ≤ limits.maxFrames)
    (stack : m.config.maxStack ≤ limits.maxStack) :
    let low := m.run limit script
    let high (more : Nat) := ({ m with config := limits } : Machine).run more script
    (low.1 ≠ .unfinished → (∀ error, low.1 = .failed error → error.fault ≠ .stackOverflow) →
        (high limit).1 = low.1 ∧ (high limit).2.sink = low.2.sink ∧
          (high limit).2.globals = low.2.globals ∧ (high limit).2.heap = low.2.heap) ∧
      ∀ error, low.1 = .failed error → error.fault = .stackOverflow →
        ∀ more, limit ≤ more ∨ (high more).1 ≠ .unfinished →
          low.2.sink.Precedes (high more).2.sink := by
  intro low high
  let first : Frame := .enter script 0
  let start : Machine := (m.begin script).2
  have lowRun : low = (execute limit first start).2.conclude (execute limit first start).1 := rfl
  have highRun (more : Nat) : high more =
      (execute more first (start.raised limits m.log)).2.conclude
        (execute more first (start.raised limits m.log)).1 := rfl
  have allows : Allows limits start := ⟨frames, stack⟩
  have raised := execute_raised (m := start) limit first m.log prints allows
  constructor
  · intro _ other
    rcases raised with ⟨log, alike⟩ | ⟨⟨last, overflow⟩, -⟩
    · obtain ⟨outcome, log', same⟩ := conclude_raised (execute limit first start).1
        (execute limit first start).2 limits log
      rw [highRun, alike, lowRun, outcome, same]
      exact ⟨rfl, rfl, rfl, rfl⟩
    · rw [lowRun, overflow] at other
      exact absurd rfl (other _ rfl)
  · intro error failed _ more long
    have lowEnded (last : Frame) : (execute limit first start).1 ≠ .unfinished last :=
      ended_of_conclude (m := (execute limit first start).2) (by
        rw [← lowRun, failed]
        exact RunOutcome.noConfusion) last
    -- An execution that has ended earlier is the one of `limit` instructions.
    obtain ⟨later, enough, same⟩ : ∃ later, limit ≤ later ∧ high more = high later := by
      rcases Nat.le_total limit more with le | le
      · exact ⟨more, le, rfl⟩
      · rcases long with le' | ended
        · exact ⟨more, le', rfl⟩
        · rw [highRun] at ended
          refine ⟨limit, Nat.le_refl _, ?_⟩
          rw [highRun, highRun, execute_of_ended (ended_of_conclude ended) le]
    rw [same, highRun, lowRun, sink_conclude, sink_conclude]
    rcases raised with ⟨log, alike⟩ | ⟨-, writes⟩
    · have ended (last : Frame) :
          (execute limit first (start.raised limits m.log)).1 ≠ .unfinished last := by
        rw [alike]
        exact lowEnded last
      rw [execute_of_ended ended enough, alike]
      exact .refl _
    · exact writes later enough

/-- A machine whose host functions are those of the standard modules. -/
theorem prints_importing (config : MachineConfig) (names : List String) :
    ((start config Library.load).importing names).Prints :=
  (imports_importing _ names).functions_of_empty rfl (Library.forall_load Library.adds_modules)

/-- A script that prints twice overflows after the first time where only one value fits on the
stack beside the script itself. -/
theorem raised_run_sample :
    let m : Machine := (start ⟨1, 2, false⟩ Library.load).importing ["io", "dev"]
    let script : Routine :=
      ⟨0, none, 0, ⟨#[Opcode.null.toByte, Opcode.print.toByte, Opcode.null.toByte, Opcode.null.toByte,
        Opcode.print.toByte], #[], #[(0, 1)]⟩⟩
    ∃ error, (m.run 5 script).1 = .failed error ∧ error.fault = .stackOverflow ∧
      (m.run 5 script).2.sink.written = "null\n".toUTF8 ∧
      ∀ more, 5 ≤ more → (m.run 5 script).2.sink.Precedes
        (({ m with config := ⟨1, 3, false⟩ } : Machine).run more script).2.sink := by
  intro m script
  have failed : (m.run 5 script).1 =
      .failed (m.runtimeError ⟨script, 4, 3, 0⟩ .stackOverflow) := rfl
  have printed : (m.run 5 script).2.sink.written = "null\n".toUTF8 := by
    decide +kernel
  have raised := @raised_run 5 script m ⟨1, 3, false⟩
    (prints_importing ⟨1, 2, false⟩ ["io", "dev"]) (by decide) (by decide)
  exact ⟨_, failed, rfl, printed, fun more le => raised.2 _ failed rfl more (.inl le)⟩

end Machine
end StackScript
