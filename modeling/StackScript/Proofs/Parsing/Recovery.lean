import StackScript.Proofs.Parsing.Errors
import StackScript.Proofs.Recognition.Program

/-!
# Recovery

After an error in a declaration the compiler reads on to a place where a statement may
begin.  It ends the panic before it reads, and an error token on the way begins a new one.
So a recovery leaves the compiler calm if and only if it read no error token.  If it read
one, then the first of these is reported, and what is wrong with the next declaration is
not.
-/

namespace StackScript
namespace Compiler

/-- The error that an error token is reported as. -/
def lexicalError (t : Token) : CompileError := ⟨t.line, locationOf t, .lexical t.lexeme, t.span⟩

/-- The compiler has read some tokens; it reported the first error token among them and
panicked at it, unless it was in panic before. -/
structure Skips (c c' : Compiler) (read : List Token) : Prop where
  unread : c.unread = read ++ c'.unread
  panicking : c'.panicking = (c.panicking || read.any (·.kind == .error))
  errors : c'.errors.toList = c.errors.toList ++
    if c.panicking then [] else ((read.find? (·.kind == .error)).map lexicalError).toList

namespace Skips

variable {c c' c'' : Compiler} {read more : List Token}

theorem refl (c : Compiler) : Skips c c [] where
  unread := rfl
  panicking := by simp
  errors := by simp

theorem trans (h : Skips c c' read) (h' : Skips c' c'' more) : Skips c c'' (read ++ more) where
  unread := by rw [h.unread, h'.unread, List.append_assoc]
  panicking := by rw [h'.panicking, h.panicking, List.any_append, Bool.or_assoc]
  errors := by
    rw [h'.errors, h.errors, h.panicking, List.append_assoc, List.find?_append]
    cases c.panicking with
    | true => simp
    | false =>
        -- The tokens read first decide, if there is an error token among them.
        cases found : read.find? (·.kind == .error) with
        | none =>
            have none : read.any (·.kind == .error) = false := by
              rw [List.any_eq_false]
              exact fun t mem => List.find?_eq_none.mp found t mem
            simp [none]
        | some t =>
            have bad := List.find?_some found
            have some : read.any (·.kind == .error) = true :=
              List.any_eq_true.mpr ⟨t, List.mem_of_find?_eq_some found, bad⟩
            simp [some]

end Skips

theorem skips_fetch (tokens : List Token) (c : Compiler) :
    ∃ read, Skips { c with unread := tokens } (c.fetch tokens) read := by
  induction tokens generalizing c with
  | nil => exact ⟨[], .refl _⟩
  | cons token rest ih =>
      unfold fetch
      dsimp only
      split
      · rename_i bad
        obtain ⟨read, next⟩ :=
          ih (reportAt { c with current := token, unread := rest } token (.lexical token.lexeme))
        have first : Skips { c with unread := token :: rest }
            { reportAt { c with current := token, unread := rest } token (.lexical token.lexeme)
              with unread := rest } [token] := by
          cases c.panicking with
          | true => exact ⟨rfl, by simp [reportAt], by simp [reportAt]⟩
          | false =>
              exact ⟨rfl, by simp [reportAt, bad],
                by simp [reportAt, bad, lexicalError]⟩
        exact ⟨_, first.trans next⟩
      · rename_i proper
        exact ⟨[token], rfl, by simp [proper], by simp [proper]⟩

theorem skips_advance (c : Compiler) : ∃ read, Skips c c.advance read := by
  obtain ⟨read, h⟩ := skips_fetch c.unread { c with previous := c.current }
  exact ⟨read, h.unread, h.panicking, h.errors⟩

theorem skips_skipToStatement (c : Compiler) : ∃ read, Skips c c.skipToStatement read := by
  fun_induction skipToStatement c with
  | case1 c => exact ⟨[], .refl c⟩
  | case2 c => exact ⟨[], .refl c⟩
  | case3 c _ _ ih =>
      obtain ⟨read, first⟩ := skips_advance c
      obtain ⟨more, next⟩ := ih
      exact ⟨_, first.trans next⟩

/-- A recovery ends in panic if and only if it read an error token; the first of these is the
only error that it reports. -/
theorem synchronize_skips (c : Compiler) : ∃ read, c.unread = read ++ c.synchronize.unread ∧
    c.synchronize.panicking = read.any (·.kind == .error) ∧
    c.synchronize.errors.toList =
      c.errors.toList ++ ((read.find? (·.kind == .error)).map lexicalError).toList := by
  obtain ⟨read, h⟩ := skips_skipToStatement { c with panicking := false }
  exact ⟨read, h.unread, h.panicking, h.errors⟩

/-- Where no error token is left, a recovery leaves the compiler calm and reports nothing. -/
theorem calm_synchronize {c : Compiler} (clean : c.Clean) :
    c.synchronize.panicking = false ∧ c.synchronize.errors = c.errors := by
  obtain ⟨read, unread, panicking, errors⟩ := synchronize_skips c
  have proper : ∀ t ∈ read, ¬ (t.kind == TokenKind.error) = true := by
    intro t mem
    have fine := clean t (by rw [unread]; exact List.mem_append_left _ mem)
    simpa using fine
  refine ⟨panicking.trans (List.any_eq_false.mpr proper), ?_⟩
  rw [List.find?_eq_none.mpr proper] at errors
  simpa using errors

/-- In panic nothing is reported, not even by the declaration behind a recovery. -/
example : (closing "1 2 @ 3; print ;" .empty).errors.map (·.problem) =
    #[.expectedMark ";" "after expression", .lexical "unexpected character '@'"] := by
  decide +kernel

end Compiler
end StackScript
