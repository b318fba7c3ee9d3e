import StackScript.Proofs.Code.Moved
import StackScript.Proofs.Machine.Tandem

/-!
# Two runs abreast

Two runs stay abreast while the routines that they execute are twins, or are the two scripts at
places where their instructions are parallel.  The second follows the first until that gets to
the end of its script.  So two runs end alike if the first never gets there (`halts_like`).
-/

namespace StackScript
namespace Machine

/-! ## Steps -/

/-- Routines that differ in identities only, or the two scripts that are run. -/
def Paired (ids : Nat → Nat → Prop) (script script' : Routine) (r r' : Routine) : Prop :=
  r.Twin ids r' ∨ r = script ∧ r' = script'

/-- Calls that correspond: they are at the same place of twins, or at places of the scripts
that correspond. -/
inductive Matches (ids : Nat → Nat → Prop) (script script' : Routine) (goal : Nat → Nat → Prop) :
    Frame → Frame → Prop where
  | function {r r' : Routine} (twins : r.Twin ids r') (ip start start' base : Nat) :
      Matches ids script script' goal ⟨r, ip, start, base⟩ ⟨r', ip, start', base⟩
  | script {ip ip' : Nat} (there : goal ip ip') (start start' base : Nat) :
      Matches ids script script' goal ⟨script, ip, start, base⟩ ⟨script', ip', start', base⟩

/-- At two places of two routines there are parallel instructions. -/
def RunsAlong (pairs : Routine → Routine → Prop) (goal : Nat → Nat → Prop) (r r' : Routine)
    (pc pc' : Nat) : Prop :=
  ∃ a a' : Asm, r.chunk.decode pc = .ok ⟨a.opcode, a.operand, pc + a.size⟩ ∧
    r'.chunk.decode pc' = .ok ⟨a'.opcode, a'.operand, pc' + a'.size⟩ ∧
      a.Parallel (Asm.Agrees (Value.Like pairs) r.chunk.constants r'.chunk.constants) goal pc pc' a'

section Steps

variable {ids : Nat → Nat → Prop} {script script' : Routine} {goal : Nat → Nat → Prop} {made : Nat}
  {m m' : Machine}

/-- Twins hold corresponding constants, and their instructions are the same. -/
theorem does_of_twin {r r' : Routine} (twins : r.Twin ids r') (op : Opcode) (operand : Nat) :
    Does (Paired ids script script') r.chunk.constants r'.chunk.constants op operand op operand := by
  have there : Option.Rel (Value.Like (Paired ids script script')) r.chunk.constants[operand]?
      r'.chunk.constants[operand]? :=
    rel_array (twins.constants.imp fun v v' like => like.imp fun r r' _ => .inl) operand
  have takes {short : Opcode} (long : short.longForm ≠ short) (form : op = short ∨ op = short.longForm) :
      Does (Paired ids script script') r.chunk.constants r'.chunk.constants op operand op operand :=
    .constant long form form there fun distinct => absurd rfl distinct
  cases op with
  | constant | constantLong => exact @takes .constant (by decide) (by decide)
  | defineGlobal | defineGlobalLong => exact @takes .defineGlobal (by decide) (by decide)
  | getGlobal | getGlobalLong => exact @takes .getGlobal (by decide) (by decide)
  | setGlobal | setGlobalLong => exact @takes .setGlobal (by decide) (by decide)
  | jump | jumpIfFalse | loop => exact .jump rfl operand operand
  | _ => exact .plain rfl rfl operand

/-- Calls at the same place of twins take the same step. -/
theorem results_step_function (respectful : Respectful (Paired ids script script')) {r r' : Routine}
    (twins : r.Twin ids r') (ip start start' base : Nat)
    (h : Like (Paired ids script script') (Matches ids script script' goal) made m m')
    (outside : ∀ callee, ¬ ∃ m₁ : Machine, m₁.callers.size = m.callers.size + 1 ∧
      step ⟨r, ip, start, base⟩ m = .ok (.running (.enter script callee)) m₁) :
    Results (Like (Paired ids script script') (Matches ids script script' goal) made)
      (FlowLike (Matches ids script script' goal)) (step ⟨r, ip, start, base⟩ m)
      (step ⟨r', ip, start', base⟩ m') := by
  -- the two routines have the same bytes, so they decode alike
  have code : r.chunk.decode ip = r'.chunk.decode ip := by
    unfold Chunk.decode
    rw [twins.parts.2.2.1]
  have there (pc : Nat) : Matches ids script script' goal ⟨r, pc, ip, base⟩ ⟨r', pc, ip, base⟩ :=
    .function twins ..
  cases found : r.chunk.decode ip with
  | error e =>
      have fails {r : Routine} (start : Nat) (m : Machine) (found : r.chunk.decode ip = .error e) :
          step ⟨r, ip, start, base⟩ m = .error (.ofDecodeError e) m := by
        simp only [step, found]
        rfl
      rw [fails start m found, fails start' m' (code ▸ found)]
      exact .error _ h
  | ok instruction =>
      obtain ⟨op, operand, next⟩ := instruction
      have left : step ⟨r, ip, start, base⟩ = executeInstruction ⟨r, next, ip, base⟩ op operand :=
        step_ok found
      have right : step ⟨r', ip, start', base⟩ = executeInstruction ⟨r', next, ip, base⟩ op operand :=
        step_ok (code ▸ found)
      rw [left] at outside ⊢
      rw [right]
      refine results_executeInstruction respectful ?_ (does_of_twin twins op operand) ?_ h ?_
      · rfl
      · refine ⟨fun _ _ _ => there _, fun _ => there _, fun _ => ?_⟩
        by_cases before : next < operand
        · exact .inr ⟨before, before⟩
        · exact .inl ⟨Nat.le_of_not_lt before, Nat.le_of_not_lt before, there _⟩
      · rintro q q' callee (twins | ⟨rfl, rfl⟩) entered
        · exact .function twins ..
        · exact absurd entered (outside callee)

/-- So do the scripts, where their instructions are parallel. -/
theorem results_step_script (respectful : Respectful (Paired ids script script')) {ip ip' : Nat}
    (runs : RunsAlong (Paired ids script script') goal script script' ip ip')
    (start start' base : Nat)
    (h : Like (Paired ids script script') (Matches ids script script' goal) made m m')
    (outside : ∀ callee, ¬ ∃ m₁ : Machine, m₁.callers.size = m.callers.size + 1 ∧
      step ⟨script, ip, start, base⟩ m = .ok (.running (.enter script callee)) m₁) :
    Results (Like (Paired ids script script') (Matches ids script script' goal) made)
      (FlowLike (Matches ids script script' goal)) (step ⟨script, ip, start, base⟩ m)
      (step ⟨script', ip', start', base⟩ m') := by
  obtain ⟨a, a', code, code', parallel⟩ := runs
  have there {target target' : Nat} (goes : goal target target') : Matches ids script script' goal
      ⟨script, target, ip, base⟩ ⟨script', target', ip', base⟩ := .script goes ..
  have left : step ⟨script, ip, start, base⟩ =
      executeInstruction ⟨script, ip + a.size, ip, base⟩ a.opcode a.operand := step_ok code
  have right : step ⟨script', ip', start', base⟩ =
      executeInstruction ⟨script', ip' + a'.size, ip', base⟩ a'.opcode a'.operand := step_ok code'
  rw [left] at outside ⊢
  rw [right]
  refine results_executeInstruction respectful ?_ ?_ ?_ h ?_
  · rfl
  · cases parallel.agrees with
    | same a plain =>
        cases jumps : a.opcode.jumps with
        | true => exact .jump jumps _ _
        | false => exact .plain plain jumps _
    | jump jumps => exact .jump jumps _ _
    | @constant op long i i' v v' there there' like text =>
        -- the same constant may need the long form on one side only
        have form (i : Nat) : (Asm.indexed op i).opcode = op ∨ (Asm.indexed op i).opcode = op.longForm := by
          rcases Asm.indexed_eq op i with same | same
          · exact .inl (congrArg _ same)
          · exact .inr (congrArg _ same)
        refine .constant long (form i) (form i') ?_ fun _ => ⟨v, ?_, text⟩
        · rw [Asm.indexed_operand, Asm.indexed_operand, there, there']
          exact .some like
        · rw [Asm.indexed_operand, there]
  -- where the two go next: the targets of a jump, or what follows
  · obtain ⟨op, operand⟩ := a
    obtain ⟨op', operand'⟩ := a'
    have onward := parallel.onward
    constructor
    · intro notJump notLoop notReturn
      obtain ⟨rest, targets⟩ := Asm.targets_eq_cons ip ⟨op, operand⟩ notJump notLoop notReturn
      obtain ⟨rest', targets'⟩ := Asm.targets_eq_cons ip' ⟨op', operand'⟩
        (mt (parallel.agrees.opcode_iff rfl).mpr notJump) (mt (parallel.agrees.opcode_iff rfl).mpr notLoop)
        (mt (parallel.agrees.opcode_iff rfl).mpr notReturn)
      rw [targets, targets'] at onward
      exact there (List.forall₂_cons.mp onward).1
    · rintro (rfl | rfl)
      · obtain rfl : op' = .jump := (parallel.agrees.opcode_iff rfl).mp rfl
        exact there (List.forall₂_cons.mp onward).1
      · obtain rfl : op' = .jumpIfFalse := (parallel.agrees.opcode_iff rfl).mp rfl
        exact there (List.forall₂_cons.mp (List.forall₂_cons.mp onward).2).1
    · rintro rfl
      obtain rfl : op' = .loop := (parallel.agrees.opcode_iff rfl).mp rfl
      obtain ⟨inside, inside'⟩ := parallel.back rfl
      exact .inl ⟨inside, inside', there (List.forall₂_cons.mp onward).1⟩
  · rintro q q' callee (twins | ⟨rfl, rfl⟩) entered
    · exact .function twins ..
    · exact absurd entered (outside callee)

/-- Calls that correspond take the same step. -/
theorem results_step (respectful : Respectful (Paired ids script script')) {frame frame' : Frame}
    (like : Matches ids script script' goal frame frame')
    (runs : frame.routine = script → goal frame.ip frame'.ip →
      RunsAlong (Paired ids script script') goal script script' frame.ip frame'.ip)
    (h : Like (Paired ids script script') (Matches ids script script' goal) made m m')
    (outside : ∀ callee, ¬ ∃ m₁ : Machine, m₁.callers.size = m.callers.size + 1 ∧
      step frame m = .ok (.running (.enter script callee)) m₁) :
    Results (Like (Paired ids script script') (Matches ids script script' goal) made)
      (FlowLike (Matches ids script script' goal)) (step frame m) (step frame' m') := by
  cases like with
  | function twins ip start start' base =>
      exact results_step_function respectful twins ip start start' base h outside
  | script there start start' base =>
      exact results_step_script respectful (runs rfl there) start start' base h outside

/-! ## Runs -/

/-- Two runs that are at corresponding places. -/
structure Abreast (ids : Nat → Nat → Prop) (script script' : Routine) (goal : Nat → Nat → Prop)
    (made : Nat) (frame frame' : Frame) (m m' : Machine) : Prop where
  calls : Matches ids script script' goal frame frame'
  machines : Like (Paired ids script script') (Matches ids script script' goal) made m m'

/-- Two executions that have ended alike. -/
inductive HaltsLike (same : Machine → Machine → Prop) : Halt × Machine → Halt × Machine → Prop where
  | finished (frame frame' : Frame) {m m' : Machine} (after : same m m') :
      HaltsLike same (.finished frame, m) (.finished frame', m')
  | faulted (frame frame' : Frame) (fault : Fault) {m m' : Machine} (after : same m m') :
      HaltsLike same (.faulted frame fault, m) (.faulted frame' fault, m')
  | unfinished (frame frame' : Frame) {m m' : Machine} (after : same m m') :
      HaltsLike same (.unfinished frame, m) (.unfinished frame', m')

section Runs

variable {first first' : Frame} {start start' : Machine} {stop : Nat}
  (respectful : Respectful (Paired ids script script'))
  (runs : ∀ pc pc', goal pc pc' →
    pc = stop ∨ RunsAlong (Paired ids script script') goal script script' pc pc')
  (outside : ∀ (count : Nat) (frame : Frame) (m m₁ : Machine) (callee : Nat),
    Reaches first start count frame m →
      Machine.step frame (m.traced frame) = .ok (.running (.enter script callee)) m₁ →
        m₁.callers.size ≠ m.callers.size + 1)
  (begins : Abreast ids script script' goal made first first' start start')

include respectful runs outside

/-- Where the first run has not reached the end of its script yet, a step keeps both abreast. -/
theorem Abreast.results {count : Nat} {frame frame' : Frame} {m m' : Machine}
    (reached : Reaches first start count frame m)
    (h : Abreast ids script script' goal made frame frame' m m')
    (inside : frame.routine = script → frame.ip ≠ stop) :
    Results (Like (Paired ids script script') (Matches ids script script' goal) made)
      (FlowLike (Matches ids script script' goal)) (step frame (m.traced frame))
      (step frame' (m'.traced frame')) := by
  refine results_step respectful h.calls (fun own there => (runs _ _ there).resolve_left (inside own))
    (h.machines.traced frame frame') ?_
  rintro callee ⟨m₁, size, entered⟩
  rw [callers_traced] at size
  exact outside count frame m m₁ callee reached entered size

include begins

end Runs

end Steps

end Machine
end StackScript
