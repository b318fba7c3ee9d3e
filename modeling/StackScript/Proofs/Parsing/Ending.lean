import StackScript.Proofs.Parsing.Ready
import StackScript.Proofs.Parsing.Stages

/-!
# How the code of a statement ends

A routine is completed by a return of null unless its code ends with a return and no
jump leads behind that.  The compiler decides this by the operation it wrote last and
by where the forward jump it patched last leads.  `Finishes` says that it decides as
the tree does, which `Statement.ending` describes.
-/

namespace StackScript

/-! ## Expressions -/

theorem Asm.indexed_ne_return {op : Opcode} (h : op ≠ .return) (h' : op.longForm ≠ .return) (index : Nat) :
    (Asm.indexed op index).opcode ≠ .return := by
  unfold Asm.indexed
  split
  · exact h
  · exact h'

theorem Compiler.Target.read_ne_return (target : Compiler.Target) : target.read.opcode ≠ .return := by
  cases target with
  | slot => nofun
  | global index =>
      show (Asm.indexed .getGlobal index).opcode ≠ .return
      exact Asm.indexed_ne_return (by decide) (by decide) index

theorem Compiler.Target.write_ne_return (target : Compiler.Target) : target.write.opcode ≠ .return := by
  cases target with
  | slot => nofun
  | global index =>
      show (Asm.indexed .setGlobal index).opcode ≠ .return
      exact Asm.indexed_ne_return (by decide) (by decide) index

mutual

/-- No expression returns. -/
theorem Expression.code_ne_return (locals : List LocalVariable) : (e : Expression) →
    (pool : Pool) → ∀ a ∈ (e.code locals pool).1, a.opcode ≠ .return
  | .null, _ => by simp [Expression.code, Asm.plain]
  | .boolean b, _ => by cases b <;> simp [Expression.code, Asm.plain]
  | .number _, _ | .string _, _ => by
      simp only [Expression.code, List.mem_singleton, forall_eq]
      exact Asm.indexed_ne_return (by decide) (by decide) _
  | .variable name, pool => by
      simp only [Expression.code, List.mem_singleton, forall_eq]
      exact Compiler.Target.read_ne_return _
  | .grouping e, pool => e.code_ne_return locals pool
  | .unary op e, pool => by
      simp only [Expression.code, List.forall_mem_append, List.forall_mem_singleton]
      exact ⟨e.code_ne_return locals pool, by cases op <;> nofun⟩
  | .binary op a b, pool => by
      simp only [Expression.code, List.forall_mem_append]
      exact ⟨⟨a.code_ne_return locals pool, b.code_ne_return locals _⟩, by cases op <;> decide⟩
  | .and a b, pool | .or a b, pool => by
      have left := a.code_ne_return locals pool
      have right := b.code_ne_return locals (a.code locals pool).2
      simp only [Expression.code, List.forall_mem_append, List.forall_mem_cons]
      simpa [Asm.plain] using And.intro left right
  | .assign name e, pool => by
      simp only [Expression.code, List.forall_mem_append, List.forall_mem_singleton]
      exact ⟨e.code_ne_return locals _, Compiler.Target.write_ne_return _⟩
  | .call f es, pool => by
      simp only [Expression.code, List.forall_mem_append, List.forall_mem_singleton]
      exact ⟨⟨f.code_ne_return locals pool, Expression.listCode_ne_return locals es _⟩, nofun⟩

theorem Expression.listCode_ne_return (locals : List LocalVariable) : (es : List Expression) →
    (pool : Pool) → ∀ a ∈ (Expression.listCode locals es pool).1, a.opcode ≠ .return
  | [], _ => by simp [Expression.listCode]
  | e :: es, pool => by
      simp only [Expression.listCode, List.forall_mem_append]
      exact ⟨e.code_ne_return locals pool, Expression.listCode_ne_return locals es _⟩

end

/-- Every expression has code. -/
theorem Expression.code_ne_nil (locals : List LocalVariable) : (e : Expression) →
    (pool : Pool) → (e.code locals pool).1 ≠ []
  | .grouping e, pool => e.code_ne_nil locals pool
  | .null, _ | .boolean _, _ | .number _, _ | .string _, _ | .variable _, _ | .unary .., _
  | .and .., _ | .or .., _ | .assign .., _ | .call .., _ => by
      simp [Expression.code]
  | .binary op _ _, _ => by cases op <;> simp [Expression.code, BinaryOperator.code]
/-! ## Statements -/

namespace Compiler

/-- Between two states some code was written that ends in the given way. -/
def Finishes : Ending → Compiler → Compiler → Prop
  | .untouched, c, c' => c'.body.lastOpcode = c.body.lastOpcode ∧
      c'.body.landing = c.body.landing ∧ c'.here = c.here
  | .sealed, _, c' => c'.body.endsWithReturn = true
  | .unsealed, _, c' => c'.body.endsWithReturn = false

variable {a b c c' : Compiler} {e e' : Ending}

/-- Code that ends like other code decides alike. -/
theorem endsWithReturn_congr (last : c'.body.lastOpcode = c.body.lastOpcode)
    (landing : c'.body.landing = c.body.landing) (here : c'.here = c.here) :
    c'.body.endsWithReturn = c.body.endsWithReturn := by
  have size : c'.body.chunk.size = c.body.chunk.size := here
  rw [Body.endsWithReturn, Body.endsWithReturn, last, landing, size]

theorem Finishes.refl (c : Compiler) : Finishes .untouched c c := ⟨rfl, rfl, rfl⟩

theorem Finishes.after (first : Finishes e a b) (second : Finishes e' b c) :
    Finishes (e.after e') a c := by
  cases e' with
  | sealed | unsealed => exact second
  | untouched =>
      obtain ⟨last, landing, here⟩ := second
      have same := endsWithReturn_congr last landing here
      cases e with
      | untouched =>
          obtain ⟨last', landing', here'⟩ := first
          exact ⟨last.trans last', landing.trans landing', here.trans here'⟩
      | sealed | unsealed => exact same.trans first

/-- Steps that do not touch the routine do not matter before some code. -/
theorem Finishes.of_body (body : b.body = a.body) (h : Finishes e b c) : Finishes e a c := by
  have here : b.here = a.here := by rw [Compiler.here, body]; rfl
  cases e with
  | untouched => exact ⟨body ▸ h.1, body ▸ h.2.1, h.2.2.trans here⟩
  | sealed | unsealed => exact h

/-- Nor do they matter behind it. -/
theorem Finishes.to_body (h : Finishes e a b) (body : c.body = b.body) : Finishes e a c := by
  have here : c.here = b.here := by rw [Compiler.here, body]; rfl
  cases e with
  | untouched => exact ⟨body ▸ h.1, body ▸ h.2.1, here.trans h.2.2⟩
  | sealed | unsealed =>
      show c.body.endsWithReturn = _
      rw [body]
      exact h

/-- Code that ends with another operation than a return may be left at its end. -/
theorem finishes_of_last {op : Opcode} (last : c'.body.lastOpcode = some op)
    (other : op ≠ .return) : Finishes .unsealed c c' := by
  have apart : (op == Opcode.return) = false := beq_eq_false_iff_ne.mpr other
  show (_ == some Opcode.return && _) = false
  rw [last, Option.some_beq_some, apart]
  rfl

/-- So may code to whose end a jump leads. -/
theorem finishes_of_landing (landing : c'.body.landing = some c'.here) :
    Finishes .unsealed c c' := by
  have here : (c'.body.landing != some c'.body.chunk.size) = false := by
    rw [landing]
    exact bne_self_eq_false' _
  show (_ && _) = false
  rw [here, Bool.and_false]

/-- No jump leads behind a return that has just been written. -/
theorem finishes_return (grounded : c'.Grounded) : Finishes .sealed c (c'.emit .return) := by
  have size : (c'.emit .return).here = c'.here + 1 :=
    (emits_emit c' .return rfl).here
  have apart : ((c'.emit .return).body.landing != some (c'.emit .return).body.chunk.size) = true := by
    rw [bne_iff_ne]
    intro landing
    have inside := grounded.body _ landing
    change (c'.emit .return).here ≤ c'.here at inside
    omega
  show (_ == some Opcode.return && _) = true
  rw [apart]
  rfl

/-- Instructions none of which is a return. -/
theorem Emits.unsealed {code : List Asm} {p : Pool} (h : Emits c c' code p)
    (some : code ≠ []) (none : ∀ a ∈ code, a.opcode ≠ .return) : Finishes .unsealed c c' := by
  obtain ⟨front, a, rfl⟩ := List.eq_nil_or_concat code |>.resolve_left some
  refine finishes_of_last ?_ (none a (by simp))
  rw [h.last, List.concat_eq_append, lastOpcode_cons_append]
  rfl

theorem Parsed.unsealed {e : Expression} {after : List Token} (h : Parsed e c c' after) :
    Stage c c' after (Finishes .unsealed c c') :=
  ⟨h.acts, h.static, fun quiet => ⟨h.stream, (h.translates quiet).emits.unsealed
    (e.code_ne_nil _ _) (e.code_ne_return _ _)⟩⟩

theorem finishes_markInitialized (c : Compiler) : Finishes .untouched c c.markInitialized := by
  unfold markInitialized
  split
  · exact .refl c
  · refine ⟨?_, landing_settleNewest _, congrArg Chunk.size (chunk_settleNewest _)⟩
    show c.body.settleNewest.lastOpcode = _
    unfold Body.settleNewest
    split <;> rfl

theorem landing_patchJump (c : Compiler) (site : Nat) :
    (c.patchJump site).body.landing = some (c.patchJump site).here := by
  obtain ⟨chunk, _, _, size, -, same⟩ := patchJump_eq c site
  rw [same]
  exact congrArg some size.symm

end Compiler
end StackScript
