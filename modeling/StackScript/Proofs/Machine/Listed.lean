import StackScript.Library.Standard
import StackScript.Proofs.Code.Listed
import StackScript.Proofs.Code.Parallel
import StackScript.Proofs.Machine.Laws

/-!
# Listings show what the machine does

The line that a listing shows for an instruction tells what the machine does there: which
operation it executes, with which operand, and where it goes on (`listed_step`).  Where the
listing breaks off or shows an unknown operation, the machine faults, and nowhere else for
these reasons: what an instruction itself raises is never such a fault.
-/

namespace StackScript

/-! ## How lines end -/

/-- A text ends, and not as a line that breaks off. -/
def Complete (text : String) : Prop := ∃ c, text.toList.getLast? = some c ∧ c ≠ '>'

theorem Complete.append {back : String} (complete : Complete back) (front : String) :
    Complete (front ++ back) := by
  obtain ⟨c, last, other⟩ := complete
  refine ⟨c, ?_, other⟩
  rw [String.toList_append, List.getLast?_append, last]
  rfl

theorem Complete.ne_truncated {text : String} (complete : Complete text) (front : String) :
    text ≠ front ++ "<truncated>" := by
  rintro rfl
  obtain ⟨c, last, other⟩ := complete
  rw [String.toList_append, List.getLast?_append] at last
  cases last
  exact other rfl

/-- Numbers end in a digit. -/
theorem complete_nat (n : Nat) : Complete (toString n) := by
  obtain ⟨c, last⟩ := Option.ne_none_iff_exists'.mp
    (mt List.getLast?_eq_none_iff.mp (@Nat.toDigits_ne_nil n 10))
  have digit := Nat.isDigit_of_mem_toDigits (by decide) (by decide) (List.mem_of_getLast? last)
  refine ⟨c, ?_, ?_⟩
  · rw [Nat.toString_eq_ofList_toDigits, String.toList_ofList, last]
  · rintro rfl
    cases digit

theorem complete_int (n : Int) : Complete (toString n) := by
  cases n with
  | ofNat n => exact complete_nat n
  | negSucc n => exact (complete_nat (n + 1)).append "-"

namespace Chunk

/-- An instruction is shown to its end. -/
theorem complete_listInstruction (chunk : Chunk) (offset : Nat) (i : Instruction) :
    Complete (chunk.listInstruction offset i) := by
  obtain ⟨op, operand, next⟩ := i
  have quote : Complete "'" := ⟨'\'', by decide, by decide⟩
  cases op with
  | constant | constantLong | defineGlobal | defineGlobalLong | getGlobal | getGlobalLong
  | setGlobal | setGlobalLong => exact quote.append _
  | getLocal | setLocal | call => exact ((complete_nat operand).append _).append _
  | jump | jumpIfFalse => exact (complete_nat _).append _
  | loop => exact (complete_int _).append _
  | _ => exact ⟨_, by simp only [listInstruction, Opcode.mnemonic]; rfl, by decide⟩

/-! ## How lines begin -/

theorem listMnemonic_eq (op : Opcode) : ∃ rest, listMnemonic op = op.mnemonic ++ rest := by
  unfold listMnemonic padRight
  rw [String.append_assoc]
  exact ⟨_, rfl⟩

/-- The name of its operation comes first in an instruction. -/
theorem listInstruction_eq (chunk : Chunk) (offset : Nat) (i : Instruction) :
    ∃ rest, chunk.listInstruction offset i = i.opcode.mnemonic ++ rest := by
  obtain ⟨op, operand, next⟩ := i
  obtain ⟨blanks, name⟩ := listMnemonic_eq op
  unfold listInstruction
  dsimp only
  split
  all_goals first
    | exact ⟨"", String.append_empty.symm⟩
    | rw [name]; simp only [String.append_assoc]; exact ⟨_, rfl⟩

/-- No operation has a name that begins as the line for an unknown one. -/
theorem mnemonic_ne_unknown (op : Opcode) (rest rest' : String) :
    op.mnemonic ++ rest ≠ "Unknown opcode: " ++ rest' := by
  intro same
  have first := congrArg (fun s : String => s.toList.head?) same
  cases op <;> simp [Opcode.mnemonic] at first

/-! ## Lines without an instruction -/

section

variable {chunk : Chunk} {offset : Nat}

/-- A line breaks off where code ends. -/
theorem listAt_truncated : (∃ front, (chunk.listAt offset).1 = front ++ "<truncated>") ↔
    chunk.decode offset = .error .missingOpcode ∨
      ∃ op, chunk.decode offset = .error (.missingOperand op) := by
  rw [listAt_eq]
  constructor
  · rintro ⟨front, same⟩
    cases code : chunk.decode offset with
    | ok i =>
        rw [code] at same
        exact absurd same (((chunk.complete_listInstruction offset i).append _).ne_truncated front)
    | error e =>
        rw [code] at same
        cases e with
        | missingOpcode => exact .inl rfl
        | unknownOpcode byte => exact absurd same (((complete_nat _).append _).ne_truncated front)
        | missingOperand op => exact .inr ⟨op, rfl⟩
  · rintro (code | ⟨op, code⟩)
    · rw [code]
      exact ⟨_, rfl⟩
    · rw [code]
      exact ⟨_, rfl⟩

/-- A line for an unknown operation shows its byte. -/
theorem listAt_unknown {byte : UInt8} : (chunk.listAt offset).1 =
      chunk.listMargin offset ++ "Unknown opcode: " ++ toString byte.toNat ↔
    chunk.decode offset = .error (.unknownOpcode byte) := by
  rw [listAt_eq]
  constructor
  · intro same
    rw [String.append_assoc] at same
    cases code : chunk.decode offset with
    | ok i =>
        -- the line goes on with a name where the other goes on with "Unknown"
        obtain ⟨rest, name⟩ := chunk.listInstruction_eq offset i
        rw [code] at same
        dsimp only at same
        rw [name] at same
        exact absurd ((String.append_right_inj _).mp same) (mnemonic_ne_unknown _ _ _)
    | error e =>
        rw [code] at same
        cases e with
        | missingOpcode =>
            have tails := (String.append_right_inj _).mp same
            have first := congrArg (fun s : String => s.toList.head?) tails
            simp at first
        | unknownOpcode other =>
            dsimp only at same
            rw [String.append_assoc] at same
            have digits := (String.append_right_inj _).mp ((String.append_right_inj _).mp same)
            rw [UInt8.toNat_inj.mp (Nat.repr_inj.mp digits)]
        | missingOperand op =>
            obtain ⟨rest, name⟩ := listMnemonic_eq op
            dsimp only at same
            rw [name, String.append_assoc, String.append_assoc] at same
            exact absurd ((String.append_right_inj _).mp same) (mnemonic_ne_unknown _ _ _)
  · intro code
    rw [code]

end

/-! ## What is decoded -/

theorem toByte_of_ofByte? {byte : UInt8} {op : Opcode} (known : Opcode.ofByte? byte = some op) :
    byte = op.toByte := by
  have places : ∀ n : Fin 30, Opcode.all[n].toByte.toNat = n := by decide
  obtain ⟨lt, same⟩ := Array.getElem?_eq_some_iff.mp known
  have place := places ⟨byte.toNat, lt⟩
  rw [← UInt8.toNat_inj, ← same]
  exact place.symm

/-- A decoded instruction stands in the code as its operation and its operand. -/
theorem of_decode {chunk : Chunk} {offset : Nat} {i : Instruction}
    (code : chunk.decode offset = .ok i) :
    chunk.code[offset]? = some i.opcode.toByte ∧
      readWord chunk.code (offset + 1) i.opcode.operandWidth = some i.operand ∧
      i.next = offset + 1 + i.opcode.operandWidth := by
  unfold decode at code
  split at code
  · cases code
  rename_i byte there
  split at code
  · cases code
  rename_i op known
  split at code
  · cases code
  rename_i operand word
  cases code
  refine ⟨?_, word, rfl⟩
  rw [there, toByte_of_ofByte? known]

/-- An instruction is decoded from its own bytes alone. -/
theorem decode_congr {chunk other : Chunk} {pc : Nat} {i : Instruction}
    (code : chunk.decode pc = .ok i)
    (same : ∀ j, pc ≤ j → j < i.next → other.code[j]? = chunk.code[j]?) :
    other.decode pc = .ok i := by
  obtain ⟨there, word, next⟩ := of_decode code
  rw [next] at same
  have opcode : other.code[pc]? = some i.opcode.toByte := by
    rw [same pc (Nat.le_refl _) (by omega), there]
  have operand : readWord other.code (pc + 1) i.opcode.operandWidth = some i.operand := by
    rw [readWord_congr fun j first last => same j (by omega) last, word]
  simp only [decode, opcode, Opcode.ofByte?_toByte, operand, ← next]

end Chunk

/-! ## What instructions raise -/

namespace Machine

/-- A computation that raises no fault of decoding. -/
def Executes {α : Type} (x : Exec α) : Prop :=
  ∀ ⦃m fault m'⦄, x m = .error fault m' → fault.isDecoding = false

/-- Raising no fault of decoding. -/
def executing : Law where
  Holds := Executes
  returns a m fault m' ran := by cases ran
  fails fault executing m fault' m' ran := by
    cases ran
    exact executing
  andThen {α β x f} first then_ := by
    intro m fault m' ran
    simp only [Bind.bind, EStateM.bind] at ran
    split at ran
    · exact then_ _ ran
    · rename_i before
      cases ran
      exact first before

theorem executes_push (v : Value) : Executes (push v) := by
  intro m fault m' ran
  unfold push at ran
  split at ran <;> cases ran
  rfl

theorem executes_pop : Executes pop := by
  intro m fault m' ran
  unfold pop at ran
  split at ran <;> cases ran
  rfl

theorem executes_peek (distance : Nat) : Executes (peek distance) := by
  intro m fault m' ran
  unfold peek at ran
  split at ran
  · cases ran
    rfl
  split at ran <;> cases ran
  rfl

theorem executes_slot (index : Nat) : Executes (slot index) := by
  intro m fault m' ran
  unfold slot at ran
  split at ran <;> cases ran
  rfl

theorem executes_globalValue (name : Text) : Executes (globalValue name) := by
  intro m fault m' ran
  unfold globalValue at ran
  split at ran <;> cases ran
  rfl

theorem executes_calleeIndex (count : Nat) : Executes (calleeIndex count) := by
  intro m fault m' ran
  unfold calleeIndex at ran
  split at ran <;> cases ran
  rfl

theorem executes_enterRoutine (frame : Frame) (r : Routine) (callee count : Nat) :
    Executes (enterRoutine frame r callee count) := by
  intro m fault m' ran
  unfold enterRoutine at ran
  split at ran
  · cases ran
    rfl
  split at ran <;> cases ran
  rfl

/-- The sink has faults of its own. -/
theorem executes_withSink {α : Type} (output : Output α) {fault : String → Fault}
    (other : ∀ message, (fault message).isDecoding = false) : Executes (withSink output fault) := by
  intro m fault' m' ran
  unfold withSink at ran
  split at ran
  split at ran <;> cases ran
  exact other _

theorem executes_resumeCaller : Executes resumeCaller := by
  intro m fault m' ran
  unfold resumeCaller at ran
  split at ran <;> cases ran

theorem executing_basic : executing.Basic where
  push := executes_push
  pop := executes_pop
  peek := executes_peek
  truncate _ _ _ _ ran := by cases ran
  drop _ _ _ _ ran := by cases ran
  slot := executes_slot
  setSlot _ _ _ _ _ ran := by cases ran
  globalValue := executes_globalValue

/-- No instruction raises a fault of decoding. -/
theorem executes_executeInstruction (frame : Frame) (op : Opcode) (operand : Nat) :
    Executes (executeInstruction frame op operand) :=
  executing_basic.executeInstruction (fun _ _ _ _ _ _ ran => by cases ran)
    (fun _ _ _ _ _ ran => by cases ran) (fun _ _ => executes_withSink _ fun _ => rfl)
    (fun _ => executing_basic.call executes_calleeIndex executes_enterRoutine
      (fun _ _ m _ _ ran => executes_withSink _ (fun _ => rfl) ran) frame operand)
    (fun _ => executing_basic.leave executes_resumeCaller frame)

/-! ## Steps -/

/-- The next step of a call ends in a fault. -/
def StepFaults (frame : Frame) (m : Machine) (fault : Fault) : Prop :=
  ∃ m', step frame m = .error fault m'

section

variable {frame : Frame} {m : Machine}

theorem step_of_decode {i : Chunk.Instruction} (code : frame.routine.chunk.decode frame.ip = .ok i) :
    step frame m = executeInstruction { frame.atNext with ip := i.next } i.opcode i.operand m := by
  simp only [step, code]

/-- Faults of decoding come from code that does not decode. -/
theorem faults_decoding {fault : Fault} (decoding : fault.isDecoding = true) :
    StepFaults frame m fault ↔
      ∃ e, frame.routine.chunk.decode frame.ip = .error e ∧ Fault.ofDecodeError e = fault := by
  constructor
  · rintro ⟨m', ran⟩
    cases code : frame.routine.chunk.decode frame.ip with
    | error e =>
        simp only [step, code] at ran
        cases ran
        exact ⟨e, rfl, rfl⟩
    | ok i =>
        -- an instruction that is there raises other faults only
        rw [step_of_decode code] at ran
        rw [executes_executeInstruction _ _ _ ran] at decoding
        cases decoding
  · rintro ⟨e, code, rfl⟩
    refine ⟨m, ?_⟩
    simp only [step, code]
    rfl

/-- An index behind the constant pool is a fault of every operation on a constant. -/
theorem executeInstruction_invalid {op : Opcode} {operand : Nat} (takes : op.takesConstant = true)
    (beyond : frame.routine.chunk.constants[operand]? = none) :
    executeInstruction frame op operand m = .error (.invalidConstant operand) m := by
  cases op with
  | constant | constantLong | defineGlobal | defineGlobalLong | getGlobal | getGlobalLong
  | setGlobal | setGlobalLong =>
      simp only [executeInstruction, constant, name, beyond, Option.bind_none]
      rfl
  | _ => cases takes

/-- A jump on a condition is taken where the value on top of the stack is falsey, any other
jump always. -/
def Taken (op : Opcode) (m : Machine) : Prop :=
  op = .jumpIfFalse → ∃ v, m.stack.back? = some v ∧ v.isFalsey = true

/-- Where a jump leads that is listed with a target. -/
structure LeadsTo (frame : Frame) (m : Machine) (op : Opcode) (target : Int) : Prop where
  /-- A jump that is taken goes on at its target. -/
  taken : Taken op m → 0 ≤ target →
    step frame m = .ok (.running { frame.atNext with ip := target.toNat }) m
  /-- Only a loop has a target before the code, and going there is a fault. -/
  before : target < 0 ↔ StepFaults frame m (.malformed .loopBeforeStart)
  forward : op ≠ .loop → 0 ≤ target

/-- What is listed for an index into the constant pool.  The same text stands for a constant that
is not there and for one that is displayed in this way, as the string `<invalid>` is; the machine
faults for the first only. -/
structure ShowsConstant (frame : Frame) (m : Machine) (operand : Nat) (text : String) : Prop where
  entry : ∀ v, frame.routine.chunk.constants[operand]? = some v → text = v.display
  invalid : text = "<invalid>" ↔ frame.routine.chunk.constants[operand]? = none ∨
    ∃ v, frame.routine.chunk.constants[operand]? = some v ∧ v.display = "<invalid>"
  beyond : frame.routine.chunk.constants[operand]? = none → StepFaults frame m (.invalidConstant operand)

/-- What is listed for an operation and its operand is what the machine does with them. -/
structure Shows (frame : Frame) (m : Machine) (op : Opcode) (operand : Nat) (shown : String) :
    Prop where
  plain : op.operandWidth = 0 → shown = op.mnemonic
  number : op.operandWidth = 1 → op.takesConstant = false →
    shown = Chunk.listMnemonic op ++ padLeft 4 ' ' (toString operand)
  /-- An index is listed with the constant that is there. -/
  constant : op.takesConstant = true → ∃ text,
    shown = Chunk.listMnemonic op ++ padLeft 4 ' ' (toString operand) ++ " '" ++ text ++ "'" ∧
      ShowsConstant frame m operand text
  jump : op.jumps = true → ∃ target : Int,
    shown = Chunk.listMnemonic op ++ padLeft 4 ' ' (toString frame.ip) ++ " -> " ++ toString target ∧
      LeadsTo frame m op target

/-- The line that is listed for the next instruction of a call is what the machine does. -/
structure Listed (frame : Frame) (m : Machine) : Prop where
  /-- The line breaks off where the machine misses an operation or an operand. -/
  truncated : (∃ front, (frame.routine.chunk.listAt frame.ip).1 = front ++ "<truncated>") ↔
    ∃ defect, defect ≠ .loopBeforeStart ∧ StepFaults frame m (.malformed defect)
  /-- The line shows an unknown operation where the machine does not know it. -/
  unknown : ∀ byte, (frame.routine.chunk.listAt frame.ip).1 =
      frame.routine.chunk.listMargin frame.ip ++ "Unknown opcode: " ++ toString byte.toNat ↔
    StepFaults frame m (.unknownOpcode byte)
  /-- In all other places the machine executes what the line shows, and has read the code up
  to where the next line begins. -/
  known : (∀ defect, StepFaults frame m (.malformed defect) → defect = .loopBeforeStart) →
    (∀ byte, ¬ StepFaults frame m (.unknownOpcode byte)) → ∃ op operand shown,
      frame.routine.chunk.code[frame.ip]? = some op.toByte ∧
        Chunk.readWord frame.routine.chunk.code (frame.ip + 1) op.operandWidth = some operand ∧
        step frame m = executeInstruction
          { frame.atNext with ip := (frame.routine.chunk.listAt frame.ip).2 } op operand m ∧
        (frame.routine.chunk.listAt frame.ip).1 =
          frame.routine.chunk.listMargin frame.ip ++ shown ∧
        Shows frame m op operand shown

/-! ## Where jumps lead -/

theorem peek_of_back? {v : Value} (top : m.stack.back? = some v) : peek 0 m = .ok v m := by
  rw [Array.back?] at top
  have some : 0 < m.stack.size := by
    have := (Array.getElem?_eq_some_iff.mp top).1
    omega
  unfold peek
  rw [if_neg (by omega), Nat.zero_add, top]

theorem peek_of_empty (top : m.stack.back? = none) : peek 0 m = .error .stackUnderflow m := by
  rw [Array.back?, Array.getElem?_eq_none_iff] at top
  unfold peek
  rw [if_pos (by omega)]

/-- A jump forward raises no fault of its own. -/
theorem LeadsTo.of_forward {op : Opcode} {target : Nat}
    (taken : Taken op m → step frame m = .ok (.running { frame.atNext with ip := target }) m)
    (fine : ¬ StepFaults frame m (.malformed .loopBeforeStart)) : LeadsTo frame m op target where
  taken on _ := taken on
  before := ⟨fun negative => absurd negative (by omega), fun fault => absurd fault fine⟩
  forward _ := by omega

theorem leadsTo_jump {operand next : Nat}
    (code : frame.routine.chunk.decode frame.ip = .ok ⟨.jump, operand, next⟩) :
    LeadsTo frame m .jump (next + operand : Nat) := by
  have jumps : step frame m = .ok (.running { frame.atNext with ip := next + operand }) m := by
    rw [step_of_decode code]
    rfl
  refine .of_forward (fun _ => jumps) ?_
  rintro ⟨m', ran⟩
  rw [jumps] at ran
  cases ran

theorem leadsTo_jumpIfFalse {operand next : Nat}
    (code : frame.routine.chunk.decode frame.ip = .ok ⟨.jumpIfFalse, operand, next⟩) :
    LeadsTo frame m .jumpIfFalse (next + operand : Nat) := by
  have step := @step_of_decode frame m _ code
  simp only [executeInstruction, bind, EStateM.bind] at step
  refine .of_forward (fun taken => ?_) ?_
  · obtain ⟨v, top, falsey⟩ := taken rfl
    rw [step, peek_of_back? top]
    simp only [falsey, if_true]
    rfl
  · rintro ⟨m', ran⟩
    rw [step] at ran
    cases top : m.stack.back? with
    | none =>
        rw [peek_of_empty top] at ran
        cases ran
    | some v =>
        rw [peek_of_back? top] at ran
        dsimp only at ran
        split at ran <;> cases ran

theorem leadsTo_loop {operand next : Nat}
    (code : frame.routine.chunk.decode frame.ip = .ok ⟨.loop, operand, next⟩) :
    LeadsTo frame m .loop ((next : Int) - operand) := by
  have step := @step_of_decode frame m _ code
  simp only [executeInstruction] at step
  constructor
  · intro _ inside
    have back : ((next : Int) - operand).toNat = next - operand := by omega
    rw [step, if_neg (by omega), back]
    rfl
  · constructor
    · intro negative
      refine ⟨m, ?_⟩
      rw [step, if_pos (by omega)]
      rfl
    · rintro ⟨m', ran⟩
      by_contra inside
      rw [step, if_neg (by omega)] at ran
      cases ran
  · intro notLoop
    exact absurd rfl notLoop

/-! ## Listed lines -/

theorem toString_natCast (n : Nat) : toString (n : Int) = toString n := rfl

theorem showsConstant_listConstant {op : Opcode} {operand next : Nat}
    (code : frame.routine.chunk.decode frame.ip = .ok ⟨op, operand, next⟩)
    (takes : op.takesConstant = true) :
    ShowsConstant frame m operand (frame.routine.chunk.listConstant operand) where
  entry v there := by rw [Chunk.listConstant, there]
  invalid := by
    rw [Chunk.listConstant]
    cases frame.routine.chunk.constants[operand]? with
    | none => simp
    | some v => simp
  beyond missing := ⟨m, by rw [step_of_decode code]; exact executeInstruction_invalid takes missing⟩

theorem shows_listInstruction {i : Chunk.Instruction}
    (code : frame.routine.chunk.decode frame.ip = .ok i) :
    Shows frame m i.opcode i.operand (frame.routine.chunk.listInstruction frame.ip i) := by
  obtain ⟨op, operand, next⟩ := i
  constructor
  · intro plain
    cases op with
    | constant | constantLong | defineGlobal | defineGlobalLong | getGlobal | getGlobalLong
    | setGlobal | setGlobalLong | getLocal | setLocal | jump | jumpIfFalse | loop | call =>
        cases plain
    | _ => rfl
  · intro narrow other
    cases op with
    | getLocal | setLocal | call => rfl
    | constant | defineGlobal | getGlobal | setGlobal => cases other
    | _ => cases narrow
  · intro takes
    refine ⟨frame.routine.chunk.listConstant operand, ?_, showsConstant_listConstant code takes⟩
    cases op with
    | constant | constantLong | defineGlobal | defineGlobalLong | getGlobal | getGlobalLong
    | setGlobal | setGlobalLong => rfl
    | _ => cases takes
  · intro jumps
    cases op with
    | jump =>
        refine ⟨(next + operand : Nat), ?_, leadsTo_jump code⟩
        rw [toString_natCast]
        rfl
    | jumpIfFalse =>
        refine ⟨(next + operand : Nat), ?_, leadsTo_jumpIfFalse code⟩
        rw [toString_natCast]
        rfl
    | loop =>
        refine ⟨(next : Int) - operand, ?_, leadsTo_loop code⟩
        rfl
    | _ => cases jumps

theorem isDecoding_malformed {defect : CodeDefect} (other : defect ≠ .loopBeforeStart) :
    (Fault.malformed defect).isDecoding = true := by
  cases defect with
  | loopBeforeStart => exact absurd rfl other
  | _ => rfl

theorem ofDecodeError_missingOperand (op : Opcode) : ∃ defect, defect ≠ .loopBeforeStart ∧
    Fault.ofDecodeError (.missingOperand op) = .malformed defect := by
  unfold Fault.ofDecodeError
  dsimp only
  split
  all_goals exact ⟨_, by decide, rfl⟩

/-- The machine misses an operation or an operand where code ends. -/
theorem faults_malformed :
    (∃ defect, defect ≠ .loopBeforeStart ∧ StepFaults frame m (.malformed defect)) ↔
    frame.routine.chunk.decode frame.ip = .error .missingOpcode ∨
      ∃ op, frame.routine.chunk.decode frame.ip = .error (.missingOperand op) := by
  constructor
  · rintro ⟨defect, other, fault⟩
    obtain ⟨e, code, same⟩ := (faults_decoding (isDecoding_malformed other)).mp fault
    cases e with
    | missingOpcode => exact .inl code
    | unknownOpcode => cases same
    | missingOperand op => exact .inr ⟨op, code⟩
  · rintro (code | ⟨op, code⟩)
    · exact ⟨.endOfCode, by decide, (faults_decoding rfl).mpr ⟨_, code, rfl⟩⟩
    · obtain ⟨defect, other, same⟩ := ofDecodeError_missingOperand op
      exact ⟨defect, other, (faults_decoding (isDecoding_malformed other)).mpr ⟨_, code, same⟩⟩

theorem faults_unknown {byte : UInt8} : StepFaults frame m (.unknownOpcode byte) ↔
    frame.routine.chunk.decode frame.ip = .error (.unknownOpcode byte) := by
  rw [faults_decoding rfl]
  constructor
  · rintro ⟨e, code, same⟩
    cases e with
    | missingOpcode => cases same
    | unknownOpcode other =>
        cases same
        exact code
    | missingOperand op =>
        obtain ⟨defect, -, malformed⟩ := ofDecodeError_missingOperand op
        cases malformed.symm.trans same
  · intro code
    exact ⟨_, code, rfl⟩

/-- What is listed at the pointer of a call is what the machine does there. -/
theorem listed_step (frame : Frame) (m : Machine) : Listed frame m where
  truncated := Chunk.listAt_truncated.trans faults_malformed.symm
  unknown byte := Chunk.listAt_unknown.trans faults_unknown.symm
  known := by
    intro complete known
    cases code : frame.routine.chunk.decode frame.ip with
    | error e =>
        -- code that does not decode faults for one of the two reasons
        exfalso
        have missing (there : frame.routine.chunk.decode frame.ip = .error .missingOpcode ∨
            ∃ op, frame.routine.chunk.decode frame.ip = .error (.missingOperand op)) : False := by
          obtain ⟨defect, other, fault⟩ := (@faults_malformed frame m).mpr there
          exact other (complete defect fault)
        cases e with
        | missingOpcode => exact missing (.inl code)
        | unknownOpcode byte => exact known byte (faults_unknown.mpr code)
        | missingOperand op => exact missing (.inr ⟨op, code⟩)
    | ok i =>
        obtain ⟨there, word, next⟩ := Chunk.of_decode code
        have line : frame.routine.chunk.listAt frame.ip =
            (frame.routine.chunk.listMargin frame.ip ++
              frame.routine.chunk.listInstruction frame.ip i, i.next) := by
          rw [Chunk.listAt_eq, code]
        refine ⟨i.opcode, i.operand, frame.routine.chunk.listInstruction frame.ip i, there, word,
          ?_, ?_, shows_listInstruction code⟩
        · rw [line]
          exact step_of_decode code
        · rw [line]

/-- Code that prints the string `<invalid>` is listed as code with an index behind its constants,
though the index is inside the pool and the step does not fault. -/
theorem listed_invalid_inside :
    let script : Routine := ⟨0, none, 0, ⟨#[Opcode.constant.toByte, 0, Opcode.print.toByte,
      Opcode.null.toByte, Opcode.return.toByte], #[.string ⟨0, "<invalid>"⟩], #[(0, 1)]⟩⟩
    let m : Machine := start .standard Library.load
    (script.chunk.listAt 0).1 = "0000:    1 OP_CONSTANT         0 '<invalid>'" ∧
      0 < script.chunk.constants.size ∧
      ∀ fault, ¬ StepFaults (m.begin script).1 (m.begin script).2 fault := by
  refine ⟨by decide +kernel, by decide, ?_⟩
  rintro fault ⟨m', ran⟩
  cases ran

end

end Machine
end StackScript
