import StackScript.Proofs.Parsing.Upkeep

/-!
# The tokens at hand

The tokens at hand always end with the end marker, and the current one is no error token:
whatever the compiler does, they stay so.  Together with a bound on their number this is kept
up along the grammar (`pacing`).
-/

namespace StackScript
namespace Compiler

/-- The tokens at hand end with the end marker, and the current one is no error token. -/
structure Supplied (c : Compiler) : Prop where
  ended : Ended (c.current :: c.unread)
  proper : c.current.kind ≠ .error

/-- A state with at most `n` tokens behind the current one, in which no bound has been met. -/
structure Paced (n : Nat) (c : Compiler) : Prop extends Supplied c where
  size : c.unread.length ≤ n
  bounded : c.exhausted = false

@[simp] theorem reportAt_exhausted (c : Compiler) (token : Token) (problem : Problem) :
    (c.reportAt token problem).exhausted = c.exhausted := by
  unfold reportAt; split <;> rfl

theorem fetch_exhausted (tokens : List Token) (c : Compiler) :
    (c.fetch tokens).exhausted = c.exhausted := by
  induction tokens generalizing c with
  | nil => rfl
  | cons token rest ih =>
      unfold fetch
      split
      · exact (ih _).trans (reportAt_exhausted ..)
      · rfl

/-! ## Reading -/

section

variable {c c' : Compiler}

/-- Fetching stops at a proper token, since the end marker is one. -/
theorem supplied_fetch {tokens : List Token} (c : Compiler) (ended : Ended tokens) :
    Supplied (c.fetch tokens) := by
  induction tokens generalizing c with
  | nil => exact absurd rfl ended.ne_nil
  | cons token rest ih =>
      unfold fetch
      split
      · rename_i bad
        exact ih _ (ended.tail (by rw [bad]; decide))
      · rename_i proper
        exact ⟨ended, proper⟩

namespace Supplied

variable (h : Supplied c)
include h

theorem unread_eq_nil : c.unread = [] ↔ c.current.kind = .eof := h.ended.tail_eq_nil

/-- At the end marker nothing is read. -/
theorem advance_eof (last : c.current.kind = .eof) : c.advance = { c with previous := c.current } := by
  simp [Compiler.advance, fetch, h.unread_eq_nil.mpr last]

theorem advance : Supplied c.advance := by
  by_cases last : c.current.kind = .eof
  · rw [h.advance_eof last]
    exact ⟨h.ended, h.proper⟩
  · exact supplied_fetch _ (h.ended.tail last)

/-- Any token but the end marker leaves fewer behind it. -/
theorem shorter (more : c.current.kind ≠ .eof) :
    c.advance.unread.length < c.unread.length := by
  have some := List.length_pos_iff.mpr fun none => more (h.unread_eq_nil.mp none)
  have fewer := length_unread_advance c
  omega

end Supplied

theorem Act.supplied {reading : Bool} (act : Act reading c c') (h : Supplied c) :
    Supplied c' := by
  cases act with
  | read => exact h.advance
  | complain | report => exact ⟨by simpa using h.ended, by simpa using h.proper⟩
  | giveUp | recover | intern | constant | work | beginRoutine => exact ⟨h.ended, h.proper⟩
  | endRoutine =>
      obtain ⟨current, -, unread, -⟩ := endRoutine_frame c
      exact ⟨by rw [current, unread]; exact h.ended, by rw [current]; exact h.proper⟩

/-- The tokens at hand stay as they are meant to be, whatever the compiler does. -/
theorem Acts.supplied {reading : Bool} (acts : Acts reading c c') :
    Supplied c → Supplied c' := acts.preserve Act.supplied

theorem Act.unread_le {reading : Bool} (act : Act reading c c') :
    c'.unread.length ≤ c.unread.length := by
  cases act with
  | read => exact Nat.le_trans (length_unread_advance c) (Nat.sub_le ..)
  | complain | report => rw [reportAt_unread]
  | giveUp | recover | intern | constant | work | beginRoutine => exact Nat.le_refl _
  | endRoutine => rw [(endRoutine_frame c).2.2.1]

/-- No token is given back. -/
theorem Acts.unread_le {reading : Bool} (acts : Acts reading c c') :
    c'.unread.length ≤ c.unread.length :=
  acts.lift (R := fun c c' => c'.unread.length ≤ c.unread.length) (fun _ => Nat.le_refl _)
    (fun hab hbc => Nat.le_trans hbc hab) Act.unread_le

end

section

variable {n m : Nat} {c c' : Compiler}

namespace Paced

theorem mono (h : Paced n c) (le : n ≤ m) : Paced m c :=
  { h with size := Nat.le_trans h.size le }

theorem eof_of_zero (h : Paced 0 c) : c.current.kind = .eof :=
  h.unread_eq_nil.mp (List.length_eq_zero_iff.mp (Nat.le_zero.mp h.size))

theorem advance (h : Paced n c) : Paced (n - 1) c.advance where
  toSupplied := h.toSupplied.advance
  size := Nat.le_trans (length_unread_advance c) (Nat.sub_le_sub_right h.size 1)
  bounded := (fetch_exhausted ..).trans h.bounded

theorem reportAt (h : Paced n c) (token : Token) (problem : Problem) :
    Paced n (c.reportAt token problem) where
  toSupplied := (Act.complain c token problem).supplied h.toSupplied
  size := by simpa using h.size
  bounded := by simpa using h.bounded

end Paced

theorem Act.paced (act : Act false c c') (h : Paced n c) : Paced n c' := by
  refine ⟨act.supplied h.toSupplied, Nat.le_trans act.unread_le h.size, ?_⟩
  cases act with
  | report => exact (reportAt_exhausted ..).trans h.bounded
  | intern | constant | work | beginRoutine => exact h.bounded
  | endRoutine => exact (endRoutine_frame c).2.2.2.2.2.trans h.bounded

end

/-- Keeping to the tokens at hand. -/
def pacing : Upkeep where
  Loose := Paced
  Firm := Paced
  loose := id
  loose_mono := Paced.mono
  firm_mono := Paced.mono
  ended := Paced.eof_of_zero
  advance := Paced.advance
  reportCurrent h := h.reportAt _
  report h := h.reportAt _
  recover h := ⟨⟨h.ended, h.proper⟩, h.size, h.bounded⟩
  act := Act.paced

end Compiler
end StackScript
