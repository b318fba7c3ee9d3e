import Mathlib
import StackScript.Machine.Run

/-!
# Properties of instructions

Every instruction is put together from a few operations on the machine.  A property that
results and faults have and that sequencing keeps (`Law`) is therefore a property of an
instruction as soon as these operations have it: `Law.instruction` goes through the
instructions once, for all such properties.  Faults of code that holds no instruction are left
out: a step raises them before there is anything to execute.
-/

namespace StackScript

/-- The instruction binds a global. -/
def Opcode.bindsGlobal : Opcode → Bool
  | .defineGlobal | .defineGlobalLong | .setGlobal | .setGlobalLong => Bool.true
  | _ => Bool.false

/-- The fault means that code holds no instruction where one is due. -/
def Fault.isDecoding : Fault → Bool
  | .unknownOpcode _ | .malformed .endOfCode | .malformed .truncatedJump
  | .malformed .truncatedConstant => Bool.true
  | _ => Bool.false

namespace Machine

/-- A property of computations that results and faults have and that sequencing keeps. -/
structure Law where
  Holds : {α : Type} → Exec α → Prop
  returns {α : Type} (a : α) : Holds (pure a : Exec α)
  fails {α : Type} (fault : Fault) (executing : fault.isDecoding = false) :
    Holds (throw fault : Exec α)
  andThen {α β : Type} {x : Exec α} {f : α → Exec β} (first : Holds x) (then_ : ∀ a, Holds (f a)) :
    Holds (x >>= f)

namespace Law

variable {law : Law}

/-- What reads and writes the stack has the property, and what looks up a global. -/
structure Basic (law : Law) : Prop where
  push : ∀ v, law.Holds (push v)
  pop : law.Holds pop
  peek : ∀ distance, law.Holds (peek distance)
  truncate : ∀ height, law.Holds (truncate height)
  drop : ∀ count, law.Holds (drop count)
  slot : ∀ index, law.Holds (slot index)
  setSlot : ∀ index v, law.Holds (setSlot index v)
  globalValue : ∀ name, law.Holds (globalValue name)

/-! ## The parts of instructions -/

theorem discard {α : Type} {x : Exec α} (h : law.Holds x) : law.Holds (Functor.discard x) := by
  have same : Functor.discard x = x >>= fun _ => pure ⟨⟩ := by
    funext m
    simp only [Functor.discard, Functor.mapConst, Function.comp, EStateM.map, Bind.bind, EStateM.bind]
    cases x m <;> rfl
  rw [same]
  exact law.andThen h fun _ => law.returns _

theorem constant (law : Law) (chunk : Chunk) (index : Nat) : law.Holds (constant chunk index) := by
  unfold Machine.constant
  split
  · exact law.fails _ rfl
  · exact law.returns _

theorem name (law : Law) (chunk : Chunk) (index : Nat) : law.Holds (name chunk index) := by
  unfold Machine.name
  split
  · exact law.fails _ rfl
  · exact law.returns _

namespace Basic

theorem binaryNumber (basic : law.Basic) (operator : Float → Float → Datum) :
    law.Holds (binaryNumber operator) := by
  unfold Machine.binaryNumber
  refine law.andThen (basic.peek 1) fun a => law.andThen (basic.peek 0) fun b => ?_
  split
  · exact law.andThen (basic.drop 2) fun _ => basic.push _
  · exact law.fails _ rfl

/-- Only additions enter strings. -/
theorem add (basic : law.Basic) (intern : ∀ chars, law.Holds (intern chars)) : law.Holds add := by
  unfold Machine.add
  refine law.andThen (basic.peek 1) fun a => law.andThen (basic.peek 0) fun b => ?_
  split
  · exact law.fails _ rfl
  · exact law.andThen (basic.drop 2) fun _ => basic.push _
  · exact law.andThen (basic.drop 2) fun _ => law.andThen (intern _) fun _ => basic.push _

theorem call (basic : law.Basic) (index : ∀ count, law.Holds (calleeIndex count))
    (enters : ∀ frame r callee count, law.Holds (enterRoutine frame r callee count))
    (applies : ∀ n callee, law.Holds (applyNative n callee)) (frame : Frame) (count : Nat) :
    law.Holds (call frame count) := by
  unfold Machine.call
  refine law.andThen (index count) fun callee => law.andThen (basic.slot callee) fun v => ?_
  cases v.datum with
  | routine r => exact enters ..
  | native n =>
      exact law.andThen (applies n callee) fun _ => law.andThen (basic.truncate _) fun _ =>
        law.andThen (basic.push _) fun _ => law.returns _
  | null | bool | number | string => exact law.fails _ rfl

theorem leave (basic : law.Basic) (resumes : law.Holds resumeCaller) (frame : Frame) :
    law.Holds (leave frame) := by
  unfold Machine.leave
  refine law.andThen basic.pop fun v => law.andThen (basic.truncate _) fun _ =>
    law.andThen resumes fun caller => ?_
  cases caller with
  | none => exact law.returns _
  | some caller => exact law.andThen (basic.push _) fun _ => law.returns _

/-! ## Instructions -/

/-- What holds of an instruction if its operations have a property.  The `whole` may say more
than the property, about where execution goes on. -/
theorem instruction (basic : law.Basic) (whole : Exec Flow → Prop)
    (andThen : ∀ {α : Type} {x : Exec α} {f : α → Exec Flow}, law.Holds x → (∀ a, whole (f a)) → whole (x >>= f))
    (fails : ∀ fault, fault.isDecoding = false → whole (throw fault)) {frame : Frame}
    (onward : ∀ ip, whole (pure (.running { frame with ip }))) {op : Opcode} {operand : Nat}
    (binds : op.bindsGlobal = true → ∀ name v, whole (setGlobal name v >>= fun _ => pure (.running frame)))
    (interns : op = .add → ∀ chars, law.Holds (intern chars))
    (prints : op = .print → ∀ text, law.Holds (withSink (Sink.writeLine text) .output))
    (calls : op = .call → whole (Machine.call frame operand))
    (returns : op = .return → whole (Machine.leave frame)) :
    whole (Machine.executeInstruction frame op operand) := by
  have on : whole (pure (.running frame)) := onward frame.ip
  have pushes (v : Value) : whole (Machine.push v >>= fun _ => pure (.running frame)) :=
    andThen (basic.push v) fun _ => on
  have number (operator : Float → Float → Datum) :
      whole (Machine.binaryNumber operator >>= fun _ => pure (.running frame)) :=
    andThen (basic.binaryNumber operator) fun _ => on
  cases op with
  | constant | constantLong => exact andThen (law.constant _ _) fun _ => pushes _
  | null | true | false => exact pushes _
  | pop => exact andThen (discard basic.pop) fun _ => on
  | defineGlobal | defineGlobalLong =>
      exact andThen (law.name _ _) fun _ => andThen basic.pop fun _ => binds rfl _ _
  | getGlobal | getGlobalLong =>
      exact andThen (law.name _ _) fun _ => andThen (basic.globalValue _) fun _ => pushes _
  | setGlobal | setGlobalLong =>
      refine andThen (law.name _ _) fun _ => andThen (basic.peek 0) fun _ =>
        andThen (basic.globalValue _) fun old => ?_
      dsimp only
      split
      · exact andThen (law.fails _ rfl) fun _ => binds rfl _ _
      · exact binds rfl _ _
  | getLocal => exact andThen (basic.slot _) fun _ => pushes _
  | setLocal =>
      refine andThen (basic.peek 0) fun _ => andThen (basic.slot _) fun old => ?_
      dsimp only
      split
      · exact andThen (law.fails _ rfl) fun _ => andThen (basic.setSlot _ _) fun _ => on
      · exact andThen (basic.setSlot _ _) fun _ => on
  | makeConst | not => exact andThen basic.pop fun _ => pushes _
  | negate =>
      refine andThen (basic.peek 0) fun v => ?_
      cases v.asNumber? with
      | none => exact fails _ rfl
      | some x => exact andThen (basic.drop 1) fun _ => pushes _
  | equal => exact andThen basic.pop fun _ => andThen basic.pop fun _ => pushes _
  | greater | less | subtract | multiply | divide => exact number _
  | add => exact andThen (basic.add (interns rfl)) fun _ => on
  | jump => exact onward _
  | jumpIfFalse =>
      refine andThen (basic.peek 0) fun v => ?_
      split
      · exact onward _
      · exact on
  | loop =>
      simp only [Machine.executeInstruction]
      split
      · exact andThen (law.fails _ rfl) fun _ => onward _
      · exact onward _
  | call => exact calls rfl
  | print => exact andThen basic.pop fun _ => andThen (prints rfl _) fun _ => on
  | «return» => exact returns rfl

/-- An instruction has the property if its operations have it. -/
theorem executeInstruction (basic : law.Basic) {frame : Frame} {op : Opcode} {operand : Nat}
    (binds : op.bindsGlobal = true → ∀ name v, law.Holds (setGlobal name v))
    (interns : op = .add → ∀ chars, law.Holds (intern chars))
    (prints : op = .print → ∀ text, law.Holds (withSink (Sink.writeLine text) .output))
    (calls : op = .call → law.Holds (Machine.call frame operand))
    (returns : op = .return → law.Holds (Machine.leave frame)) :
    law.Holds (Machine.executeInstruction frame op operand) :=
  basic.instruction law.Holds law.andThen law.fails (fun _ => law.returns _)
    (fun bound name v => law.andThen (binds bound name v) fun _ => law.returns _) interns prints calls
    returns

end Basic

end Law

end Machine
end StackScript
