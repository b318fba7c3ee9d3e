import StackScript.Proofs.Parsing.Function
import StackScript.Proofs.Simulation.Compiled
import StackScript.Proofs.Simulation.Loop

/-!
# Compiled statements

The code that the compiler writes for a statement, in any routine and any scope, does
what the structured reference says, once the routine is complete.  Then the jumps of
`break` and `continue` that lead out of the statement have been resolved; everything
else in the code has stayed as it was written.
-/

namespace StackScript

open Machine

/-- The phrase that is compiled where a statement of the category may stand. -/
def Category.phrase : Category → Phrase
  | .statement => .statement
  | .declaration | .sequence => .declaration

/-- The names of the variables that `break` and `continue` leave. -/
def Place.outsideLoop (place : Place) : List String :=
  (place.locals.drop (deeper place.locals (place.loop.getD 0)).length).map LocalVariable.name

namespace Compiler

/-- However a statement is written, and wherever it is compiled: if nothing is reported,
its code does what the reference says.  The activation may be any of a routine that the
code became part of, at a moment when its variables are the locals that the compiler
knows.  Left normally, execution is behind the code, and left by `break` or `continue`
where these lead; the stack holds the variables that are known there and what was below
them.  The reference knows how much room the stack has, so it also says when that is not
enough. -/
theorem statement_runs_as_executed {tokens : List Token} {heap : Heap} (valid : heap.Valid)
    {c c' : Compiler} (reached : Acts true (start tokens heap) c) (placed : c.place.Scoped)
    {k : Category} {ends : Bool} {t : Statement} {ts : List Token}
    (written : StatementWritten k ends t ts) (one : k ≠ .sequence)
    (stands : k = .statement ∨ c.place.Open) {depth : Nat} {f : Token} {rest : List Token}
    (fuel : ts.length + 1 ≤ depth) (stream : c.stream = ts ++ f :: rest)
    (apart : ends → f.kind ≠ .else) (compiled : phrase depth k.phrase c = c') (quiet : Quiet c c')
    (s : Setting) {host : Host} {a : Activation} {leave again : Nat}
    (completed : CompletedIn c c' a.routine.chunk leave again)
    (constants : ∀ (i : Nat) (v : Value),
      c'.body.chunk.constants[i]? = some v → a.routine.chunk.constants[i]? = some v)
    (text : s.text = c'.heap.text) (base : s.below.length = a.base)
    (limit : s.limit = some host.config.maxStack) (calls : Realizes s host a) (time : Nat)
    (store : Store) (names : store.names = c.body.locals.map LocalVariable.name) :
    (t.execute s time c.body.depth store).Describes
      (fun completion store' =>
        match completion with
        | .normal =>
            Moves host a c.here (store.stack [] s.below) store.world c'.here
                (store'.stack [] s.below) store'.world ∧
              store'.names = c'.body.locals.map LocalVariable.name
        | .leave =>
            Moves host a c.here (store.stack [] s.below) store.world leave
                ((store'.keep c.place.floor).stack [] s.below) store'.world ∧
              (store'.keep c.place.floor).names = c.place.outsideLoop
        | .again =>
            Moves host a c.here (store.stack [] s.below) store.world again
                ((store'.keep c.place.floor).stack [] s.below) store'.world ∧
              (store'.keep c.place.floor).names = c.place.outsideLoop)
      (fun fault world => Stops host a c.here (store.stack [] s.below) store.world fault world)
      (Lasts host a c.here (store.stack [] s.below) store.world time) := by
  have ready : c.Ready := reached.steps.ready (ready_start tokens valid)
  have parsed : Stage c c' (f :: rest) (Codes t c c') := by
    subst compiled
    have compiles := compiles_of_written written
    cases k with
    | statement => exact compiles (by omega) stream apart
    | declaration => exact compiles fuel stream apart
    | sequence => exact absurd rfl one
  have ready' : c'.Ready := parsed.acts.steps.ready ready
  have grounded : c.Grounded := reached.grounded ⟨Body.grounded_start none, nofun⟩
  have numbered : c'.Numbered := parsed.acts.numbered (reached.numbered (numbered_start tokens heap))
  have yields := (parsed.holds quiet).2 ⟨placed, grounded⟩ numbered.agrees
  obtain ⟨coding, closed, -, -⟩ := yields
  have proper := written.proper
  have lies := coding.lies ready.body.locals completed fun outside =>
    t.closed_code c'.lineTables (closed outside) c.place c.pool
  have pooled : (t.code c'.lineTables c.place c.pool).pool.Le (a.pool c'.heap) := by
    rw [← coding.pooled]
    exact ⟨Heap.Le.refl _, constants⟩
  have left : Leaves s host a ⟨leave, again, c.place.floor⟩ time _ _ _ _ _ _ := t.leaves_execute
    ⟨ready'.heap, text, limit, base, calls⟩ proper.1 placed (stands.imp_left proper.2) ready.sound
    pooled rfl lies names.symm time
  rw [← coding.here, ← coding.locals] at left
  -- the variables from before the statement are still there when it is left early
  have outside {completion : Completion} {store' : Store}
      (ran : t.execute s time c.body.depth store = .value completion store') :
      (store'.keep c.place.floor).names = c.place.outsideLoop := by
    obtain ⟨newer, same⟩ := (t.names_execute proper.1 ran).1
    obtain ⟨floor, less⟩ := length_floor
      (show c.place.locals.map LocalVariable.name = store.names from names.symm)
    rw [Store.names_keep, ← same, Place.outsideLoop, List.length_append, Store.length_names, floor,
      show newer.length + store.bindings.length - (store.bindings.length -
        (deeper c.place.locals (c.place.loop.getD 0)).length) =
        newer.length + (deeper c.place.locals (c.place.loop.getD 0)).length by omega,
      List.drop_append, names, List.map_drop, List.drop_eq_nil_of_le (Nat.le_add_right _ _),
      Nat.add_sub_cancel_left]
    rfl
  change (t.execute s time c.place.depth store).Describes _ _ _
  cases outcome : t.execute s time c.place.depth store with
  | fault | unfinished | unknown =>
      rw [outcome] at left
      exact left
  | value completion store' =>
      rw [outcome] at left
      cases completion with
      | normal => exact left
      | leave => exact ⟨left, outside outcome⟩
      | again => exact ⟨left.moves, outside outcome⟩

section Example

/-- The tokens of `while (a) { a = !a; continue; }` and one behind them. -/
def turnTokens : List Token :=
  [⟨.while, "while", 1, .unknown⟩, ⟨.leftParen, "(", 1, .unknown⟩, variableToken,
    ⟨.rightParen, ")", 1, .unknown⟩, ⟨.leftBrace, "\x7b", 1, .unknown⟩, variableToken,
    ⟨.equal, "=", 1, .unknown⟩, ⟨.bang, "!", 1, .unknown⟩, variableToken,
    ⟨.semicolon, ";", 1, .unknown⟩, ⟨.continue, "continue", 1, .unknown⟩,
    ⟨.semicolon, ";", 1, .unknown⟩, ⟨.rightBrace, "\x7d", 1, .unknown⟩, ⟨.eof, "", 1, .unknown⟩]

/-- The statement that they write. -/
def turnStatement : Statement :=
  .whileLoop (.variable "a") (.block
    (.next (.expression (.assign "a" (.unary .not (.variable "a")))) (.next .again .done)))

theorem turnTokens_written : StatementWritten .statement false turnStatement (turnTokens.take 13) :=
  .whileLoop rfl rfl (.variable (t := variableToken) rfl) rfl (.block rfl
    (.next (.statement (.expression (.assign (t := variableToken) rfl rfl
      (.unary rfl (.variable (t := variableToken) rfl) (by decide))) rfl))
      (.next (.statement (.again rfl rfl)) .done)) rfl)

/-- A state in which `a` is a local, before the statement. -/
def beforeTurn : Compiler :=
  ((start turnTokens .empty).advance.beginScope.addLocal "a").markInitialized

theorem beforeTurn_reached : Acts true (start turnTokens .empty) beforeTurn :=
  (((acts_advance _).trans (acts_beginScope _)).trans (acts_addLocal _ "a")).trans
    (acts_markInitialized _)

/-- The routine that holds the code of the statement. -/
def turnRoutine : Routine := ⟨0, none, 0, (phrase 14 .statement beforeTurn).body.chunk⟩

/-- Nothing in the loop leads out of it. -/
theorem turnRoutine_completed :
    CompletedIn beforeTurn (phrase 14 .statement beforeTurn) turnRoutine.chunk 0 0 where
  bytes _ _ _ _ := rfl
  leaves site mem := nomatch (show site ∈ ([] : List Nat) from mem)
  agains site mem := nomatch (show site ∈ ([] : List Nat) from mem)

theorem statement_runs_as_executed_sample :
    Moves sampleHost ⟨turnRoutine, 0⟩ 0 [.bool true, .null] sampleWorld 19
      [.bool false, .null] sampleWorld := by
  have ran := statement_runs_as_executed Heap.valid_empty beforeTurn_reached
    ⟨by decide, by decide⟩ turnTokens_written nofun (.inl rfl)
    (show (turnTokens.take 13).length + 1 ≤ 14 by decide) (f := ⟨.eof, "", 1, .unknown⟩) rfl
    nofun rfl ⟨rfl, rfl⟩ ⟨_, some sampleHost.config.maxStack, [], directCall sampleHost⟩
    (a := ⟨turnRoutine, 0⟩) turnRoutine_completed (fun _ _ => id) rfl rfl rfl
    (realizes_directCall rfl _) 3 ⟨[("a", .bool true), ("", .null)], sampleWorld⟩ rfl
  exact ran.1

end Example

end Compiler
end StackScript
