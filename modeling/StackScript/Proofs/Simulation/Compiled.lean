import StackScript.Proofs.Code.Live
import StackScript.Proofs.Machine.Calls
import StackScript.Proofs.Parsing.Ready
import StackScript.Proofs.Semantics.Room
import StackScript.Proofs.Simulation.Expression

/-!
# Compiled expressions

The code that the compiler writes for an expression, wherever it comes to lie,
evaluates the expression.  The variables of the reference are the locals that the
compiler counts on being on the stack.
-/

namespace StackScript

open Machine

/-- A setting in which calls are those that are over in one instruction. -/
theorem realizes_directCall {s : Setting} {host : Host} (calls : s.call = directCall host)
    (a : Activation) : Realizes s host a := by
  intro pc next callee arguments stack world code
  rw [calls]
  split
  · trivial
  · rename_i failed
    exact stops_directCall code failed
  · rename_i returned
    exact ⟨1, goes_directCall code returned⟩

namespace Compiler

/-- However an expression is written, and in whatever state it is compiled: if
nothing is reported, the code written for it does what the reference says.  The
code may lie anywhere in any routine that has the constants it refers to, and the
activation may be any whose variables are the locals that the compiler knows.  As
long as the stack has room, execution ends in the same fault, or behind the code
with the value on top of the stack, where nothing else has changed but variables
that the expression assigns to. -/
theorem expression_runs_as_evaluated {tokens : List Token} {heap : Heap} (valid : heap.Valid)
    {c c' : Compiler} (reached : Steps true (start tokens heap) c) {p : Precedence}
    {e : Expression} {ts : List Token} (written : Written p e ts) {depth : Nat} {f : Token}
    {rest : List Token} (fuel : ts.length ≤ depth) (stream : c.stream = ts ++ f :: rest)
    (noInfix : f.kind.continuation? = none) (noAssign : f.kind ≠ .equal)
    (compiled : phrase depth (.expression .assignment) c = c') (quiet : Quiet c c')
    (s : Setting) {host : Host} {a : Activation} {pc : Nat} (waiting : List Value) (store : Store)
    (carried : a.routine.chunk.Carries pc (c'.body.chunk.code.toList.drop c.here))
    (constants : ∀ (i : Nat) (v : Value),
      c'.body.chunk.constants[i]? = some v → a.routine.chunk.constants[i]? = some v)
    (text : s.text = c'.heap.text) (base : s.below.length = a.base) (unlimited : s.limit = none)
    (calls : Realizes s host a) (names : store.names = c.body.live.map LocalVariable.name)
    (room : (store.stack waiting s.below).length + e.room ≤ host.config.maxStack) :
    (e.evaluate s waiting store).Describes
      (fun v store' =>
        Moves host a pc (store.stack waiting s.below) store.world (pc + (c'.here - c.here))
          (v :: store'.stack waiting s.below) store'.world ∧
        store.Keeps e.assigned store')
      (fun fault world => Stops host a pc (store.stack waiting s.below) store.world fault world)
      False := by
  have ready : c.Ready := reached.ready (ready_start tokens valid)
  have parsed := parsed_of_written written fuel stream noInfix noAssign
  rw [compiled] at parsed
  obtain ⟨emits, settled⟩ := parsed.translates quiet
  have ready' : c'.Ready := parsed.acts.steps.ready ready
  -- the code as it lies in the routine that is executed
  let code := e.code c.body.live c.pool
  have same : code = e.code c.body.locals c.pool := e.code_live settled c.pool
  have spelled : c'.body.chunk.code.toList.drop c.here = assemble code.1 := by
    rw [emits.written, same]
    exact List.drop_left' rfl
  have fits : ∀ x ∈ code.1, x.Fits := by
    rw [same]
    exact emits.fits ready.body.locals
  rw [spelled] at carried
  have holds := Chunk.holds_of_carries fits carried
  have length : c'.here - c.here = codeSize code.1 := by
    rw [emits.here, same]
    omega
  have pooled : code.2.Le (a.pool c'.heap) := by
    rw [same, ← emits.pooled]
    exact ⟨Heap.Le.refl _, constants⟩
  -- the reference that knows the limit of the machine, and the one that does not
  let bounded : Setting := { s with limit := some host.config.maxStack }
  have linked : Linked bounded host a c'.heap := ⟨ready'.heap, text, rfl, base, calls⟩
  have without : bounded.unlimited = s := by
    cases s
    cases unlimited
    rfl
  have ends := e.ends_evaluate linked names.symm written.genuine c.pool pc waiting store ready.sound
    pooled holds rfl
  have enough : e.evaluate bounded waiting store = e.evaluate s waiting store := by
    rw [← without]
    exact e.evaluate_of_room rfl waiting store room
  rw [enough] at ends
  rw [length]
  cases outcome : e.evaluate s waiting store with
  | value v store' =>
      rw [outcome] at ends
      exact ⟨ends.1, e.keeps_evaluate outcome⟩
  | fault | unfinished | unknown =>
      rw [outcome] at ends
      exact ends

section Example

/-- The token of a variable. -/
def variableToken : Token := ⟨.identifier, "a", 1, .unknown⟩

/-- The tokens of `a = false or !a` and the semicolon behind them. -/
def assignmentTokens : List Token :=
  [variableToken, ⟨.equal, "=", 1, .unknown⟩, ⟨.false, "false", 1, .unknown⟩,
    ⟨.or, "or", 1, .unknown⟩, ⟨.bang, "!", 1, .unknown⟩, variableToken,
    ⟨.semicolon, ";", 1, .unknown⟩]

theorem assignmentTokens_written :
    Written .assignment (.assign "a" (.or (.boolean false) (.unary .not (.variable "a"))))
      (assignmentTokens.take 6) :=
  .assign (t := variableToken) rfl rfl (.or (.false rfl) (by decide) rfl
    (.unary rfl (.variable (t := variableToken) rfl) (by decide)) (by decide))

/-- A state in which `a` is a local. -/
def insideScope : Compiler :=
  ((start assignmentTokens .empty).advance.beginScope.addLocal "a").markInitialized

theorem insideScope_reached : Steps true (start assignmentTokens .empty) insideScope :=
  have reached : Acts true (start assignmentTokens .empty) insideScope :=
    (((acts_advance _).trans (acts_beginScope _)).trans (acts_addLocal _ "a")).trans
      (acts_markInitialized _)
  reached.steps

/-- The routine that holds the code of the assignment. -/
def assignmentRoutine : Routine :=
  ⟨0, none, 0, (phrase 6 (.expression .assignment) insideScope).body.chunk⟩

/-- The host and the world of the sample. -/
def sampleHost : Host := ⟨.standard, fun _ => none, #[], #[]⟩

def sampleWorld : World := ⟨.empty, ∅, .empty⟩

theorem assignmentRoutine_carries : assignmentRoutine.chunk.Carries 0
    (assignmentRoutine.chunk.code.toList.drop insideScope.here) := by
  intro i _
  rw [Nat.zero_add]
  exact Array.getElem?_toList.symm

theorem expression_runs_as_evaluated_sample :
    Moves sampleHost ⟨assignmentRoutine, 0⟩ 0 [.bool true, .null] sampleWorld 13
      [.bool false, .bool false, .null] sampleWorld := by
  have ran := expression_runs_as_evaluated (p := .assignment) Heap.valid_empty insideScope_reached
    assignmentTokens_written (show (assignmentTokens.take 6).length ≤ 6 by decide)
    (f := ⟨.semicolon, ";", 1, .unknown⟩) rfl rfl (by decide) rfl ⟨rfl, rfl⟩
    ⟨_, none, [], directCall sampleHost⟩ (a := ⟨assignmentRoutine, 0⟩) []
    ⟨[("a", .bool true), ("", .null)], sampleWorld⟩ assignmentRoutine_carries (fun _ _ => id) rfl rfl rfl (realizes_directCall rfl _) rfl
    (show 2 + 1 ≤ sampleHost.config.maxStack by decide)
  exact ran.1

end Example

end Compiler
end StackScript
