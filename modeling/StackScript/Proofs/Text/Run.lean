import Mathlib

/-!
# Runs of characters

A run is a longest piece at the front of a text whose characters all have a property.  It is
known by what it consists of and by what follows it.
-/

namespace StackScript

section

variable {p : Char → Bool} {body rest : List Char}

/-- A run ends where its property first fails. -/
theorem takeWhile_run (inside : ∀ c ∈ body, p c = true) (stops : ∀ c ∈ rest.head?, p c = false) :
    (body ++ rest).takeWhile p = body := by
  rw [List.takeWhile_append_of_pos inside]
  cases rest with
  | nil => exact List.append_nil body
  | cons c rest => simp [stops c rfl]

theorem dropWhile_run (inside : ∀ c ∈ body, p c = true) (stops : ∀ c ∈ rest.head?, p c = false) :
    (body ++ rest).dropWhile p = rest := by
  rw [List.dropWhile_append_of_pos inside]
  cases rest with
  | nil => rfl
  | cons c rest => simp [stops c rfl]

end

/-- Every text begins with a run, which may be empty. -/
theorem exists_run (p : Char → Bool) (text : List Char) : ∃ body rest, text = body ++ rest ∧
    (∀ c ∈ body, p c = true) ∧ ∀ c ∈ rest.head?, p c = false := by
  refine ⟨text.takeWhile p, text.dropWhile p, List.takeWhile_append_dropWhile.symm, ?_, ?_⟩
  · intro c mem
    exact List.mem_takeWhile_imp mem
  · intro c mem
    have stops := List.head?_dropWhile_not p text
    rw [Option.mem_def.mp mem] at stops
    simpa using stops

end StackScript
