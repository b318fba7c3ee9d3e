import StackScript.Proofs.Code.Live
import StackScript.Proofs.Code.Scopes

/-!
# What is checked beyond syntax

A program whose syntax is right may still use names and jumps in a way that the
compiler refuses.  `Statement.Allowed` says that a statement does not: every name it
mentions is bound where it is mentioned, no variable is mentioned in its own
initializer, and no `break` or `continue` leads out of a function.  `Statement.Narrow`
says that no function in it is too large.
-/

namespace StackScript

open Compiler

/-- The statement may stand in a scope of the given depth where the given locals are
known, in a routine inside others with the given locals. -/
def Statement.Allowed (outer : List (List LocalVariable)) (locals : List LocalVariable)
    (depth : Nat) : Statement → Prop
  | .done | .leave | .again => True
  | .next a b => a.Allowed outer locals depth ∧ b.Allowed outer (a.declared depth ++ locals) depth
  | .print e | .expression e => Known outer locals e.names
  | .declare _ name init =>
      ∀ e ∈ init, Known outer locals e.names ∧ (depth ≠ 0 → name ∉ e.names)
  | .block s => s.Allowed outer locals (depth + 1)
  | .choose c s t =>
      Known outer locals c.names ∧ s.Allowed outer locals depth ∧ t.Allowed outer locals depth
  | .loop test step s =>
      (∀ e ∈ test, Known outer locals e.names) ∧ (∀ e ∈ step, Known outer locals e.names) ∧
        s.Allowed outer locals depth
  | .giveBack value => ∀ e ∈ value, Known outer locals e.names
  | .define name parameters s =>
      s.Closed ∧ s.Allowed ((declaredName depth name ++ locals) :: outer)
        (Place.function parameters).locals 1

/-- The operands of all functions in the statement have room in the bytes meant for them. -/
def Statement.Narrow (layout : Layout) : Statement → Place → Pool → Prop
  | .next a b, place, pool =>
      a.Narrow layout place pool ∧ b.Narrow layout
        (place.knowing (a.code layout place pool).locals) (a.code layout place pool).pool
  | .block s, place, pool => s.Narrow layout place.inner pool
  | .choose c s t, place, pool =>
      let test := c.code place.locals pool
      let yes := s.code layout place test.2
      s.Narrow layout place test.2 ∧ t.Narrow layout (place.knowing yes.locals) yes.pool
  | .loop test step s, place, pool =>
      s.Narrow layout place.looped
        (clauseCode place.locals step (clauseCode place.locals test pool).2).2
  | .define name parameters s, place, pool =>
      let inside := (pool.declare place.depth name).2.function name
      (∀ a ∈ draft (s.code layout (.function parameters) inside).cells, a.Fits) ∧
        s.Narrow layout (.function parameters) inside
  | _, _, _ => True

namespace Compiler

variable {outer : List (List LocalVariable)} {locals : List LocalVariable} {names : List String}

/-- What is known is known without the locals that have no slot yet. -/
theorem Known.live (h : Known outer locals names) :
    Known outer (locals.dropWhile (·.depth.isNone)) names := by
  intro name mem
  have same := findLocal_dropWhile (h name mem).settled
  refine ⟨fun slot var found => (h name mem).settled slot var (same ▸ found), fun missing => ?_⟩
  exact (h name mem).free (same ▸ missing)

/-- A variable is not mentioned before it has a slot. -/
theorem Known.fresh {name : String} (h : Known outer (⟨name, none⟩ :: locals) names) :
    name ∉ names := by
  intro mem
  have settled := (h name mem).settled locals.length ⟨name, none⟩ (by simp [Body.findLocal])
  cases settled

end Compiler
end StackScript
