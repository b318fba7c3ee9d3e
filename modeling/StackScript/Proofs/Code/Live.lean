import StackScript.Proofs.Parsing.Expression

/-!
# Locals that are not on the stack yet

While the initializer of a local is being compiled, the local is known but has no
slot.  An expression may not mention it, so its code is the same as without it.
-/

namespace StackScript

/-- The locals on the stack: all but the newest one while its initializer is being
compiled. -/
def Body.live (body : Body) : List LocalVariable := body.locals.dropWhile (·.depth.isNone)

section Live

open Compiler

variable {outer : List (List LocalVariable)} {locals : List LocalVariable}

/-- A name that has settled means the same without the locals that have not. -/
theorem findLocal_dropWhile {name : String}
    (settled : ∀ slot var, Body.findLocal name locals = some (slot, var) → var.depth.isSome) :
    Body.findLocal name (locals.dropWhile (·.depth.isNone)) = Body.findLocal name locals := by
  induction locals with
  | nil => rfl
  | cons newest older ih =>
      rw [List.dropWhile_cons]
      split
      · rename_i pending
        have other : newest.name ≠ name := by
          intro same
          have := settled older.length newest (by simp [Body.findLocal, same])
          simp [Option.isSome_iff_ne_none] at this pending
          exact this pending
        rw [ih]
        · simp [Body.findLocal, other]
        · intro slot var found
          exact settled slot var (by simp [Body.findLocal, other, found])
      · rfl

theorem resolve_dropWhile {names : List String} (known : Known outer locals names)
    {name : String} (mem : name ∈ names) (pool : Pool) :
    pool.resolve (locals.dropWhile (·.depth.isNone)) name = pool.resolve locals name := by
  rw [Pool.resolve, Pool.resolve, findLocal_dropWhile (known name mem).settled]

theorem Compiler.Known.left {names more : List String} (h : Known outer locals (names ++ more)) :
    Known outer locals names := fun name mem => h name (List.mem_append_left _ mem)

theorem Compiler.Known.right {names more : List String} (h : Known outer locals (names ++ more)) :
    Known outer locals more := fun name mem => h name (List.mem_append_right _ mem)

mutual

/-- The code of an expression whose names have settled is the same without the
locals that have not. -/
theorem Expression.code_live : (e : Expression) → Known outer locals e.names → (pool : Pool) →
    e.code (locals.dropWhile (·.depth.isNone)) pool = e.code locals pool
  | .null, _, _ | .boolean _, _, _ | .number _, _, _ | .string _, _, _ => rfl
  | .variable name, known, pool => by
      simp only [Expression.code, resolve_dropWhile known (List.mem_singleton_self name)]
  | .grouping e, known, pool => e.code_live known pool
  | .unary _ e, known, pool => by
      simp only [Expression.code, e.code_live known]
  | .binary _ a b, known, pool | .and a b, known, pool | .or a b, known, pool => by
      simp only [Expression.code, a.code_live known.left, b.code_live known.right]
  | .assign name e, known, pool => by
      have value : Known outer locals e.names := fun name mem =>
        known name (List.mem_cons_of_mem _ mem)
      simp only [Expression.code, resolve_dropWhile known (List.mem_cons_self ..),
        e.code_live value]
  | .call f es, known, pool => by
      simp only [Expression.code, f.code_live known.left,
        Expression.listCode_live es known.right]

theorem Expression.listCode_live : (es : List Expression) →
    Known outer locals (Expression.listNames es) → (pool : Pool) →
    Expression.listCode (locals.dropWhile (·.depth.isNone)) es pool =
      Expression.listCode locals es pool
  | [], _, _ => rfl
  | e :: es, known, pool => by
      simp only [Expression.listCode, e.code_live known.left,
        Expression.listCode_live es known.right]

end

end Live

end StackScript
