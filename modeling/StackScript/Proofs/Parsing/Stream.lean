import Mathlib
import StackScript.Compile.Program

/-!
# What the compiler still has to read

`stream` lists the tokens that the grammar has yet to see.  Error tokens are not
among them: `advance` reports and drops an error token as soon as it meets it.
-/

namespace StackScript
namespace Compiler

/-- The tokens that the grammar has yet to see, the current one first. -/
def stream (c : Compiler) : List Token :=
  c.current :: c.unread.filter (·.kind != .error)

/-! ## Reports touch nothing but errors -/

section Report

variable (c : Compiler) (token : Token) (problem : Problem)

@[simp] theorem reportAt_current : (c.reportAt token problem).current = c.current := by
  unfold reportAt; split <;> rfl

@[simp] theorem reportAt_previous : (c.reportAt token problem).previous = c.previous := by
  unfold reportAt; split <;> rfl

@[simp] theorem reportAt_unread : (c.reportAt token problem).unread = c.unread := by
  unfold reportAt; split <;> rfl

@[simp] theorem reportAt_heap : (c.reportAt token problem).heap = c.heap := by
  unfold reportAt; split <;> rfl

@[simp] theorem reportAt_body : (c.reportAt token problem).body = c.body := by
  unfold reportAt; split <;> rfl

@[simp] theorem reportAt_enclosing : (c.reportAt token problem).enclosing = c.enclosing := by
  unfold reportAt; split <;> rfl

@[simp] theorem reportAt_completed : (c.reportAt token problem).completed = c.completed := by
  unfold reportAt; split <;> rfl

@[simp] theorem reportAt_stream : (c.reportAt token problem).stream = c.stream := by
  simp [stream]

end Report

@[simp] theorem report_stream (c : Compiler) (problem : Problem) :
    (c.report problem).stream = c.stream := reportAt_stream _ _ _

@[simp] theorem report_body (c : Compiler) (problem : Problem) :
    (c.report problem).body = c.body := reportAt_body _ _ _

@[simp] theorem report_heap (c : Compiler) (problem : Problem) :
    (c.report problem).heap = c.heap := reportAt_heap _ _ _

@[simp] theorem report_enclosing (c : Compiler) (problem : Problem) :
    (c.report problem).enclosing = c.enclosing := reportAt_enclosing _ _ _

/-- A report adds errors and panics, and does nothing else. -/
theorem report_eq (c : Compiler) (problem : Problem) :
    c.report problem = { c with
      errors := (c.report problem).errors, panicking := (c.report problem).panicking } := by
  unfold report reportAt
  split
  · rfl
  · rfl

theorem report_mapBody (c : Compiler) (f : Body → Body) (problem : Problem) :
    (c.mapBody f).report problem = (c.report problem).mapBody f := by
  cases panicking : c.panicking with
  | true => simp [report, reportAt, mapBody, panicking]
  | false => simp [report, reportAt, mapBody, panicking]

/-! ## Reading a token -/

/-- Fetching stops at the first token that is no error token. -/
theorem stream_fetch {tokens rest : List Token} {u : Token} (c : Compiler)
    (h : tokens.filter (·.kind != .error) = u :: rest) :
    (c.fetch tokens).stream = u :: rest := by
  induction tokens generalizing c with
  | nil => simp at h
  | cons token tokens ih =>
      unfold fetch
      by_cases bad : token.kind = .error
      · simp only [bad, if_true]
        exact ih _ (by simpa [bad] using h)
      · rw [List.filter_cons_of_pos (by simpa using bad)] at h
        simpa [bad, stream] using h

theorem fetch_frame (tokens : List Token) (c : Compiler) :
    (c.fetch tokens).previous = c.previous ∧ (c.fetch tokens).heap = c.heap ∧
      (c.fetch tokens).body = c.body ∧ (c.fetch tokens).enclosing = c.enclosing ∧
      (c.fetch tokens).completed = c.completed := by
  induction tokens generalizing c with
  | nil => exact ⟨rfl, rfl, rfl, rfl, rfl⟩
  | cons token tokens ih =>
      unfold fetch
      split
      · obtain ⟨previous, heap, body, enclosing, completed⟩ := ih
          (reportAt { c with current := token, unread := tokens } token (.lexical token.lexeme))
        rw [reportAt_previous] at previous
        rw [reportAt_heap] at heap
        rw [reportAt_body] at body
        rw [reportAt_enclosing] at enclosing
        rw [reportAt_completed] at completed
        exact ⟨previous, heap, body, enclosing, completed⟩
      · exact ⟨rfl, rfl, rfl, rfl, rfl⟩

@[simp] theorem advance_previous (c : Compiler) : c.advance.previous = c.current :=
  (fetch_frame _ _).1

@[simp] theorem advance_heap (c : Compiler) : c.advance.heap = c.heap :=
  (fetch_frame _ _).2.1

@[simp] theorem advance_body (c : Compiler) : c.advance.body = c.body :=
  (fetch_frame _ _).2.2.1

@[simp] theorem advance_enclosing (c : Compiler) : c.advance.enclosing = c.enclosing :=
  (fetch_frame _ _).2.2.2.1

@[simp] theorem advance_completed (c : Compiler) : c.advance.completed = c.completed :=
  (fetch_frame _ _).2.2.2.2

/-- Reading takes the first token off the stream, unless it is the last. -/
theorem stream_advance {c : Compiler} {t u : Token} {rest : List Token}
    (h : c.stream = t :: u :: rest) : c.advance.stream = u :: rest := by
  obtain ⟨-, h⟩ := List.cons.inj h
  exact stream_fetch _ h

theorem current_of_stream {c : Compiler} {t : Token} {rest : List Token}
    (h : c.stream = t :: rest) : c.current = t := (List.cons.inj h).1

theorem check_of_stream {c : Compiler} {t : Token} {rest : List Token}
    (h : c.stream = t :: rest) (kind : TokenKind) : c.check kind = (t.kind == kind) := by
  rw [check, current_of_stream h]

/-- A token that is there is read. -/
theorem consume_of_check {c : Compiler} {kind : TokenKind} (h : c.check kind = true)
    (problem : Problem) : c.consume kind problem = c.advance := by
  simp [consume, h]

theorem stream_consume {c : Compiler} {t u : Token} {rest : List Token} {kind : TokenKind}
    (h : c.stream = t :: u :: rest) (hkind : t.kind = kind) (problem : Problem) :
    (c.consume kind problem).stream = u :: rest := by
  have there : c.check kind = true := by simp [check_of_stream h, hkind]
  rw [consume_of_check there]
  exact stream_advance h

@[simp] theorem consume_heap (c : Compiler) (kind : TokenKind) (problem : Problem) :
    (c.consume kind problem).heap = c.heap := by
  unfold consume reportCurrent; split <;> simp

@[simp] theorem consume_body (c : Compiler) (kind : TokenKind) (problem : Problem) :
    (c.consume kind problem).body = c.body := by
  unfold consume reportCurrent; split <;> simp

@[simp] theorem consume_enclosing (c : Compiler) (kind : TokenKind) (problem : Problem) :
    (c.consume kind problem).enclosing = c.enclosing := by
  unfold consume reportCurrent; split <;> simp

end Compiler
end StackScript
