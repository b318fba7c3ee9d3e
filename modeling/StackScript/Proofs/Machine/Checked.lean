import StackScript.Proofs.Code.Access
import StackScript.Proofs.Code.Lines
import StackScript.Proofs.Code.Listed
import StackScript.Proofs.Machine.Limits

/-!
# Accesses that cannot go wrong

Some instructions look into arrays and subtract numbers without asking first whether they
may.  Here these accesses are made to ask: a machine in which every one of them that has
no result is a trap (`strictRun`).  Arbitrary code never runs into one, and the machine
does what it does without asking (`run_within_limits`).
-/

namespace StackScript

/-! ## Reading code -/

namespace Chunk

/-- Source line of the byte at an offset. -/
def strictLineAt (chunk : Chunk) (offset : Nat) : Except Trap Nat := do
  let startsBy (index : Nat) : Bool :=
    match chunk.lines[index]? with
    | some (start, _) => start ≤ offset
    | none => false
  let count := boundary startsBy 0 chunk.lines.size
  if count = 0 then return 0
  let index ← strictSub count 1
  let entry ← strictGet chunk.lines index
  return entry.2

/-- A word whose bytes must be there, least significant first. -/
def strictBytes (code : Array UInt8) (offset : Nat) : (width : Nat) → Except Trap Nat
  | 0 => .ok 0
  | width + 1 => do
    let low ← strictGet code offset
    let high ← strictBytes code (offset + 1) width
    return low.toNat + 256 * high

/-- A word, if all its bytes are there. -/
def strictWord (code : Array UInt8) (offset width : Nat) : Except Trap (Option Nat) := do
  if code.size < offset + width then return none
  let word ← strictBytes code offset width
  return some word

/-- The instruction at an offset. -/
def strictDecode (chunk : Chunk) (offset : Nat) :
    Except Trap (Except DecodeError Instruction) := do
  match chunk.code[offset]? with
  | none => return .error .missingOpcode
  | some byte =>
    match Opcode.ofByte? byte with
    | none => return .error (.unknownOpcode byte)
    | some op =>
      match ← strictWord chunk.code (offset + 1) op.operandWidth with
      | none => return .error (.missingOperand op)
      | some operand => return .ok ⟨op, operand, offset + 1 + op.operandWidth⟩

/-- Whether the line at an offset is that of the byte before. -/
def strictSameLine (chunk : Chunk) (offset line : Nat) : Except Trap Bool := do
  if offset = 0 then return false
  let before ← strictSub offset 1
  let last ← chunk.strictLineAt before
  return line == last

/-- The listed line for an offset, and the offset of the line to list next. -/
def strictListAt (chunk : Chunk) (offset : Nat) : Except Trap (String × Nat) := do
  let line ← chunk.strictLineAt offset
  let same ← chunk.strictSameLine offset line
  let lineColumn := if same then "   | " else padLeft 4 ' ' (toString line) ++ " "
  let margin := padLeft 4 '0' (toString offset) ++ ": " ++ lineColumn
  match ← chunk.strictDecode offset with
  | .ok instruction =>
    return (margin ++ chunk.listInstruction offset instruction, instruction.next)
  | .error .missingOpcode => return (margin ++ "<truncated>", offset + 1)
  | .error (.unknownOpcode byte) =>
    return (margin ++ "Unknown opcode: " ++ toString byte.toNat, offset + 1)
  | .error (.missingOperand op) =>
    return (margin ++ listMnemonic op ++ "<truncated>", offset + 1 + op.operandWidth)

theorem strictLineAt_eq (chunk : Chunk) (offset : Nat) :
    chunk.strictLineAt offset = .ok (chunk.lineAt offset) := by
  unfold strictLineAt lineAt
  dsimp only
  generalize found : boundary _ 0 chunk.lines.size = count
  have le : count ≤ chunk.lines.size := found ▸ boundary_le _ _ _ (Nat.zero_le _)
  cases count with
  | zero => rfl
  | succ index =>
      have there : chunk.lines[index]? = some chunk.lines[index] := Array.getElem?_eq_getElem le
      rw [if_neg (Nat.succ_ne_zero index), strictSub_eq (by omega)]
      simp only [bind, Except.bind, Nat.add_sub_cancel, strictGet_eq there]
      rw [there]
      rfl

theorem strictBytes_eq {code : Array UInt8} (offset : Nat) {width : Nat}
    (le : offset + width ≤ code.size) :
    ∃ word, readWord code offset width = some word ∧ strictBytes code offset width = .ok word := by
  induction width generalizing offset with
  | zero => exact ⟨0, rfl, rfl⟩
  | succ width ih =>
      obtain ⟨high, read, strict⟩ := ih (offset + 1) (by omega)
      have there : code[offset]? = some code[offset] := Array.getElem?_eq_getElem (by omega)
      refine ⟨code[offset].toNat + 256 * high, ?_, ?_⟩
      · rw [readWord, there, read]
      · simp only [strictBytes, strictGet_eq there, bind, Except.bind, strict]
        rfl

theorem readWord_eq_none {code : Array UInt8} {offset width : Nat}
    (lt : code.size < offset + width) (pos : 0 < width) : readWord code offset width = none := by
  induction width generalizing offset with
  | zero => omega
  | succ width ih =>
      rw [readWord]
      by_cases last : width = 0
      · subst last
        rw [Array.getElem?_eq_none (by omega)]
      · rw [ih (by omega) (by omega)]
        cases code[offset]? <;> rfl

theorem strictWord_eq {code : Array UInt8} {offset width : Nat} (start : offset ≤ code.size) :
    strictWord code offset width = .ok (readWord code offset width) := by
  unfold strictWord
  by_cases short : code.size < offset + width
  · rw [if_pos short, readWord_eq_none short (by omega)]
    rfl
  · obtain ⟨word, read, strict⟩ := strictBytes_eq offset (Nat.le_of_not_lt short)
    rw [if_neg short, strict, read]
    rfl

theorem strictDecode_eq (chunk : Chunk) (offset : Nat) :
    chunk.strictDecode offset = .ok (chunk.decode offset) := by
  unfold strictDecode decode
  cases there : chunk.code[offset]? with
  | none => rfl
  | some byte =>
      have start : offset + 1 ≤ chunk.code.size := (Array.getElem?_eq_some_iff.mp there).1
      dsimp only
      cases Opcode.ofByte? byte with
      | none => rfl
      | some op =>
          simp only [strictWord_eq start, bind, Except.bind]
          cases readWord chunk.code (offset + 1) op.operandWidth <;> rfl

theorem strictSameLine_eq (chunk : Chunk) (offset line : Nat) :
    chunk.strictSameLine offset line =
      .ok (0 < offset && line == chunk.lineAt (offset - 1)) := by
  unfold strictSameLine
  by_cases first : offset = 0
  · subst first
    rfl
  · have positive : 0 < offset := Nat.pos_of_ne_zero first
    simp only [if_neg first, bind, Except.bind, strictSub_eq (show 1 ≤ offset from positive),
      strictLineAt_eq, positive, decide_true, Bool.true_and]
    rfl

theorem strictListAt_eq (chunk : Chunk) (offset : Nat) :
    chunk.strictListAt offset = .ok (chunk.listAt offset) := by
  simp only [strictListAt, strictLineAt_eq, strictSameLine_eq, strictDecode_eq, bind, Except.bind]
  rw [listAt_eq]
  unfold listMargin
  cases chunk.decode offset with
  | ok instruction => rfl
  | error e => cases e <;> rfl

end Chunk

/-! ## Instructions -/

namespace Machine

/-- Computations of the machine in which every access asks first. -/
abbrev Strict := ExceptT Trap Exec

/-- An access, and the trap that it may be. -/
def access {α : Type} (x : Machine → Except Trap α) : Strict α := fun m => .ok (x m) m

/-- The height of the stack. -/
def strictHeight : Strict Nat := access fun m => .ok m.stack.size

/-- Applies an operator to the two numbers on top of the stack. -/
def strictBinaryNumber (operator : Float → Float → Datum) : Strict Unit := do
  let a ← peek 1
  let b ← peek 0
  match a.asNumber?, b.asNumber? with
  | some x, some y =>
    let height ← strictHeight
    truncate (← access fun _ => strictSub height 2)
    push (.of (operator x y))
  | _, _ => (throw .operandsMustBeNumbers : Exec Unit)

/-- Replaces the two values on top of the stack by their sum. -/
def strictAdd : Strict Unit := do
  let height ← strictHeight
  if height < 2 then (throw .stackUnderflow : Exec Unit)
  else
    let first ← access fun _ => strictSub height 2
    let second ← access fun _ => strictSub height 1
    let a ← access fun m => strictGet m.stack first
    let b ← access fun m => strictGet m.stack second
    match sum a.datum b.datum with
    | none => (throw .operandsMustBeNumbers : Exec Unit)
    | some (.inl x) =>
      truncate (← access fun _ => strictSub height 2)
      push (.number x)
    | some (.inr chars) =>
      truncate (← access fun _ => strictSub height 2)
      push (.string (← intern chars))

/-- Result of a host function for the arguments above `callee`. -/
def strictApplyNative (native : Native) (callee : Nat) : Strict Value := do
  let arguments ← access fun m => strictFrom m.stack (callee + 1)
  let apply : Exec Value := fun m =>
    let function := (m.natives[native.id]?).getD fun _ _ => throw "unknown host function"
    withSink (function ⟨m.globals, m.stack⟩ arguments) (.native native.name.chars) m
  apply

/-- Calls the value below the given number of arguments. -/
def strictCall (frame : Frame) (count : Nat) : Strict Flow := do
  let height ← strictHeight
  if height < count + 1 then (throw .stackUnderflow : Exec Flow)
  else
    let callee ← access fun _ => strictSub height (count + 1)
    let value ← access fun m => strictGet m.stack callee
    match value.datum with
    | .routine routine => (enterRoutine frame routine callee count : Exec Flow)
    | .native native =>
      let result ← strictApplyNative native callee
      truncate callee
      push result
      return .running frame
    | _ => (throw .notCallable : Exec Flow)

/-- Executes an instruction; those not listed ask first as they are. -/
def strictInstruction (frame : Frame) (op : Opcode) (operand : Nat) : Strict Flow := do
  match op with
  | .negate =>
    match (← peek 0).asNumber? with
    | none => (throw .operandMustBeNumber : Exec Flow)
    | some x =>
      let _ ← pop
      push (.number (-x))
      return .running frame
  | .greater =>
    strictBinaryNumber fun x y => .bool (x > y)
    return .running frame
  | .less =>
    strictBinaryNumber fun x y => .bool (x < y)
    return .running frame
  | .add =>
    strictAdd
    return .running frame
  | .subtract =>
    strictBinaryNumber fun x y => .number (x - y)
    return .running frame
  | .multiply =>
    strictBinaryNumber fun x y => .number (x * y)
    return .running frame
  | .divide =>
    strictBinaryNumber fun x y => .number (x / y)
    return .running frame
  | .loop =>
    if frame.ip < operand then (throw (.malformed .loopBeforeStart) : Exec Flow)
    else return .running { frame with ip := ← access fun _ => strictSub frame.ip operand }
  | .call => strictCall frame operand
  | _ => executeInstruction frame op operand

/-- Executes the next instruction of a call. -/
def strictStep (frame : Frame) : Strict Flow := do
  match ← access fun _ => frame.routine.chunk.strictDecode frame.ip with
  | .error e => (throw (.ofDecodeError e) : Exec Flow)
  | .ok instruction =>
    strictInstruction { frame.atNext with ip := instruction.next } instruction.opcode
      instruction.operand

/-- Logs the stack and the next instruction of a call, if that is wanted. -/
def strictTraced (m : Machine) (frame : Frame) : Except Trap Machine := do
  if !m.config.traceExecution then return m
  let m := m.record .trace fun _ =>
    m.stack.foldl (fun text value => text ++ "[ " ++ value.display ++ " ]") "          "
  let line ← frame.routine.chunk.strictListAt frame.ip
  return m.record .trace fun _ => line.1

/-- Executes up to `limit` instructions. -/
def strictExecute : (limit : Nat) → Frame → Machine → Except Trap (Halt × Machine)
  | 0, frame, m => return (.unfinished frame, m)
  | limit + 1, frame, m => do
    let m ← strictTraced m frame
    match strictStep frame m with
    | .ok (.error trap) _ => throw trap
    | .ok (.ok .finished) m => return (.finished frame.atNext, m)
    | .ok (.ok (.running next)) m => strictExecute limit next m
    | .error fault m => return (.faulted frame.atNext fault, m)

/-- The entry of a call in a trace. -/
def strictEntry (frame : Frame) : Except Trap TraceEntry := do
  let line ← frame.routine.chunk.strictLineAt frame.opStart
  return ⟨line, frame.routine.name.map Text.chars⟩

/-- The runtime error for a fault in the given call. -/
def strictError (m : Machine) (frame : Frame) (fault : Fault) : Except Trap RuntimeError := do
  let trace ← (frame :: m.callers.toList.reverse).mapM strictEntry
  let line ← frame.routine.chunk.strictLineAt frame.opStart
  return ⟨line, fault, trace⟩

/-- Ends a run with a runtime error. -/
def strictFail (m : Machine) (frame : Frame) (fault : Fault) :
    Except Trap (RunOutcome × Machine) := do
  let error ← strictError m frame fault
  return (.failed error, m.flushed.clear)

/-- Ends a run whose instructions have halted. -/
def strictConclude (halt : Halt) (m : Machine) : Except Trap (RunOutcome × Machine) :=
  match halt with
  | .unfinished _ => .ok (.unfinished, m)
  | .faulted frame fault => strictFail m frame fault
  | .finished frame =>
    match flush m with
    | .error fault m => strictFail m frame fault
    | .ok _ m =>
      .ok (.finished, m.record .debug fun _ =>
        "script finished, " ++ toString m.globals.size ++ " globals")

/-- Runs a script for at most `limit` instructions. -/
def strictRun (limit : Nat) (script : Routine) (m : Machine) :
    Except Trap (RunOutcome × Machine) := do
  let (frame, m) := m.begin script
  let (halt, m) ← strictExecute limit frame m
  strictConclude halt m

/-! ## No trap is ever met -/

/-- The result of a computation that meets no trap. -/
def trapless {α : Type} : EStateM.Result Fault Machine α →
    EStateM.Result Fault Machine (Except Trap α)
  | .ok a m => .ok (.ok a) m
  | .error fault m => .error fault m

section Bind

variable {α β : Type} (m : Machine)

theorem strict_lift (x : Exec α) : (x : Strict α) m = trapless (x m) := by
  show EStateM.bind x (fun a => EStateM.pure (Except.ok a)) m = _
  unfold EStateM.bind
  cases x m <;> rfl

theorem strict_bind_lift (x : Exec α) (f : α → Strict β) :
    ((x : Strict α) >>= f) m =
      match x m with
      | .ok a m' => f a m'
      | .error fault m' => .error fault m' := by
  show EStateM.bind (x : Strict α) _ m = _
  simp only [EStateM.bind, strict_lift]
  cases x m <;> rfl

theorem strict_bind_access {a : α} {g : Machine → Except Trap α} (f : α → Strict β)
    (h : g m = .ok a) : (access g >>= f) m = f a m := by
  have made : access g m = .ok (.ok a) m := by
    unfold access
    rw [h]
  generalize access g = x at made ⊢
  show EStateM.bind x _ m = _
  unfold EStateM.bind
  rw [made]
  rfl

theorem strict_bind_height (f : Nat → Strict β) :
    (strictHeight >>= f) m = f m.stack.size m := strict_bind_access m f rfl

theorem exec_bind (x : Exec α) (f : α → Exec β) :
    (x >>= f) m =
      match x m with
      | .ok a m' => f a m'
      | .error fault m' => .error fault m' := by
  show EStateM.bind x f m = _
  unfold EStateM.bind
  cases x m <;> rfl

/-- A computation without traps, followed by one that is equal to one without. -/
theorem strict_andThen {x : Strict α} {y : Exec α} {f : α → Strict β} {g : α → Exec β}
    (first : x m = trapless (y m)) (then_ : ∀ a m', y m = .ok a m' → f a m' = trapless (g a m')) :
    (x >>= f) m = trapless ((y >>= g) m) := by
  show EStateM.bind x _ m = _
  rw [exec_bind]
  unfold EStateM.bind
  rw [first]
  cases ran : y m with
  | error fault m' => rfl
  | ok a m' => exact then_ a m' ran

end Bind

/-- What was seen deep in the stack shows how high it is. -/
theorem height_of_peek {distance : Nat} {m m' : Machine} {v : Value}
    (h : peek distance m = .ok v m') :
    m' = m ∧ distance < m.stack.size ∧
      m.stack[m.stack.size - (distance + 1)]? = some v := by
  unfold peek at h
  split at h
  · cases h
  · split at h
    · cases h
    · rename_i enough _ there
      cases h
      exact ⟨rfl, by omega, there⟩

theorem strictBinaryNumber_eq (operator : Float → Float → Datum) (m : Machine) :
    strictBinaryNumber operator m = trapless (binaryNumber operator m) := by
  refine strict_andThen m (strict_lift m _) fun a m' deep => ?_
  obtain ⟨rfl, height, -⟩ := height_of_peek deep
  refine strict_andThen m' (strict_lift m' _) fun b m'' top => ?_
  obtain ⟨rfl, -, -⟩ := height_of_peek top
  cases a.asNumber? with
  | none => exact strict_lift _ _
  | some x =>
      cases b.asNumber? with
      | none => exact strict_lift _ _
      | some y =>
          dsimp only
          rw [strict_bind_height, strict_bind_access _ _ (strictSub_eq height)]
          exact strict_andThen _ (strict_lift _ _) fun _ m _ => strict_lift m _

theorem strictAdd_eq (m : Machine) : strictAdd m = trapless (add m) := by
  unfold strictAdd
  rw [strict_bind_height]
  by_cases short : m.stack.size < 2
  · have failed : add m = .error .stackUnderflow m := by
      unfold add
      rw [exec_bind, peek, if_pos short]
    rw [if_pos short, failed]
    rfl
  have first : m.stack[m.stack.size - 2]? = some m.stack[m.stack.size - 2] :=
    Array.getElem?_eq_getElem (by omega)
  have second : m.stack[m.stack.size - 1]? = some m.stack[m.stack.size - 1] :=
    Array.getElem?_eq_getElem (by omega)
  rw [if_neg short, strict_bind_access _ _ (strictSub_eq (by omega)),
    strict_bind_access _ _ (strictSub_eq (by omega)), strict_bind_access _ _ (strictGet_eq first),
    strict_bind_access _ _ (strictGet_eq second)]
  generalize m.stack[m.stack.size - 2] = a at first
  generalize m.stack[m.stack.size - 1] = b at second
  have deep : peek 1 m = .ok a m := by
    rw [peek, if_neg short, first]
  have top : peek 0 m = .ok b m := by
    rw [peek, if_neg (by omega), second]
  unfold add
  rw [exec_bind, deep]
  dsimp only
  rw [exec_bind, top]
  dsimp only
  cases sum a.datum b.datum with
  | none => exact strict_lift _ _
  | some joined =>
      -- Both kinds of sum replace the two operands.
      cases joined with
      | inl x =>
          dsimp only
          rw [strict_bind_access _ _ (strictSub_eq (by omega))]
          exact strict_andThen _ (strict_lift _ _) fun _ m _ => strict_lift m _
      | inr chars =>
          dsimp only
          rw [strict_bind_access _ _ (strictSub_eq (by omega))]
          exact strict_andThen _ (strict_lift _ _) fun _ m _ =>
            strict_andThen _ (strict_lift m _) fun _ m _ => strict_lift m _

theorem strictApplyNative_eq (native : Native) {callee : Nat} {m : Machine}
    (below : callee < m.stack.size) :
    strictApplyNative native callee m = trapless (applyNative native callee m) := by
  unfold strictApplyNative
  rw [strict_bind_access _ _ (strictFrom_eq below)]
  exact strict_lift _ _

theorem strictCall_eq (frame : Frame) (count : Nat) (m : Machine) :
    strictCall frame count m = trapless (call frame count m) := by
  unfold strictCall
  rw [strict_bind_height]
  by_cases short : m.stack.size < count + 1
  · have failed : call frame count m = .error .stackUnderflow m := by
      unfold call
      rw [exec_bind, calleeIndex, if_pos short]
    rw [if_pos short, failed]
    rfl
  have there : m.stack[m.stack.size - (count + 1)]? = some m.stack[m.stack.size - (count + 1)] :=
    Array.getElem?_eq_getElem (by omega)
  rw [if_neg short, strict_bind_access _ _ (strictSub_eq (by omega)),
    strict_bind_access _ _ (strictGet_eq there), call_eq m frame there short]
  generalize m.stack[m.stack.size - (count + 1)] = callee
  cases callee.datum with
  | routine r => exact strict_lift _ _
  | native n =>
      refine strict_andThen _ (strictApplyNative_eq n (by omega)) fun _ m _ => ?_
      refine strict_andThen _ (strict_lift m _) fun _ m _ => ?_
      exact strict_andThen _ (strict_lift m _) fun _ m _ => rfl
  | null | bool | number | string => exact strict_lift _ _

theorem shrink_size_sub_one {α : Type} (items : Array α) :
    items.shrink (items.size - 1) = items.pop := by
  apply Array.ext
  · simp
  · intro i below _
    simp [Array.shrink_eq_take]

theorem strictInstruction_eq (frame : Frame) (op : Opcode) (operand : Nat) (m : Machine) :
    strictInstruction frame op operand m = trapless (executeInstruction frame op operand m) := by
  have operation (operator : Float → Float → Datum) :
      (do strictBinaryNumber operator; return Flow.running frame : Strict Flow) m =
        trapless ((do binaryNumber operator; return Flow.running frame : Exec Flow) m) :=
    strict_andThen m (strictBinaryNumber_eq operator m) fun _ _ _ => rfl
  cases op with
  | negate =>
      refine strict_andThen m (strict_lift m _) fun v m' seen => ?_
      obtain ⟨rfl, height, there⟩ := height_of_peek seen
      cases v.asNumber? with
      | none => exact strict_lift _ _
      | some x =>
          -- The value that has been looked at can be popped.
          have popped : pop m' = .ok v { m' with stack := m'.stack.pop } := by
            unfold pop
            rw [Array.back?_eq_getElem?, there]
          have dropped : drop 1 m' = .ok () { m' with stack := m'.stack.pop } := by
            unfold drop
            rw [shrink_size_sub_one]
          dsimp only
          rw [strict_bind_lift, popped, exec_bind, dropped]
          exact strict_andThen _ (strict_lift _ _) fun _ m _ => rfl
  | greater | less | subtract | multiply | divide => exact operation _
  | add => exact strict_andThen m (strictAdd_eq m) fun _ _ _ => rfl
  | loop =>
      simp only [strictInstruction, executeInstruction]
      by_cases early : frame.ip < operand
      · rw [if_pos early, if_pos early]
        rfl
      · rw [if_neg early, if_neg early, strict_bind_access _ _ (strictSub_eq (by omega))]
        rfl
  | call => exact strictCall_eq frame operand m
  | _ => exact strict_lift m _

theorem strictStep_eq (frame : Frame) (m : Machine) :
    strictStep frame m = trapless (step frame m) := by
  unfold strictStep step
  rw [strict_bind_access _ _ (Chunk.strictDecode_eq _ _)]
  cases frame.routine.chunk.decode frame.ip with
  | error e => exact strict_lift _ _
  | ok instruction => exact strictInstruction_eq _ _ _ m

theorem strictTraced_eq (m : Machine) (frame : Frame) :
    strictTraced m frame = .ok (m.traced frame) := by
  unfold strictTraced traced
  cases m.config.traceExecution with
  | false => rfl
  | true =>
      simp only [Chunk.strictListAt_eq]
      rfl

theorem strictExecute_eq (limit : Nat) (frame : Frame) (m : Machine) :
    strictExecute limit frame m = .ok (execute limit frame m) := by
  induction limit generalizing frame m with
  | zero => rfl
  | succ limit ih =>
      unfold strictExecute execute
      dsimp only
      rw [strictTraced_eq, show (if m.config.traceExecution then m.traceInstruction frame else m) =
        m.traced frame from rfl]
      simp only [bind, Except.bind, strictStep_eq]
      cases step frame (m.traced frame) with
      | error fault m' => rfl
      | ok flow m' =>
          cases flow with
          | finished => rfl
          | running next => exact ih next m'

theorem strictEntry_eq (frame : Frame) : strictEntry frame = .ok frame.traceEntry := by
  simp only [strictEntry, Chunk.strictLineAt_eq]
  rfl

theorem strictError_eq (m : Machine) (frame : Frame) (fault : Fault) :
    strictError m frame fault = .ok (m.runtimeError frame fault) := by
  have entries (frames : List Frame) :
      frames.mapM strictEntry = .ok (frames.map Frame.traceEntry) := by
    induction frames with
    | nil => rfl
    | cons first rest ih =>
        rw [List.mapM_cons, strictEntry_eq, ih]
        rfl
  simp only [strictError, entries, Chunk.strictLineAt_eq]
  rfl

theorem strictConclude_eq (halt : Halt) (m : Machine) :
    strictConclude halt m = .ok (m.conclude halt) := by
  have failing (m : Machine) (frame : Frame) (fault : Fault) :
      strictFail m frame fault = .ok (m.fail frame fault) := by
    simp only [strictFail, strictError_eq]
    rfl
  cases halt with
  | unfinished frame => rfl
  | faulted frame fault => exact failing m frame fault
  | finished frame =>
      simp only [strictConclude, conclude]
      cases flush m with
      | error fault m' => exact failing m' frame fault
      | ok _ m' => rfl

/-- Arbitrary code meets no access without result, and keeps to the limits of the
machine after any number of instructions. -/
theorem run_within_limits (limit : Nat) (script : Routine) (m : Machine) :
    strictRun limit script m = .ok (m.run limit script) ∧
      (let reached := (execute limit (m.begin script).1 (m.begin script).2).2
       reached.stack.size ≤ max 1 m.config.maxStack ∧
        reached.callers.size + 1 ≤ max 1 m.config.maxFrames) := by
  constructor
  · simp only [strictRun, strictExecute_eq, bind, Except.bind, strictConclude_eq]
    rfl
  · have bounded := (bounded_begin script m).execute limit (m.begin script).1
    exact ⟨bounded.stack, bounded.calls⟩

end Machine
end StackScript
