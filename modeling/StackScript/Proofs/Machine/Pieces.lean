import StackScript.Proofs.Machine.Abreast
import StackScript.Proofs.Machine.Tame
import StackScript.Proofs.Machine.Unfailing

/-!
# The code of a program and that of its pieces

The body of the first piece is compiled to code that is parallel to the beginning of the whole
program (`runs_first`), and the second piece to code that is parallel to the rest (`runs_second`).
The identities differ: when the second piece is compiled the first has made a script, which the
whole program never makes (`Shifted`).  So a run of a piece and a run of the whole program go
abreast as long as they stay in these parts of the code, and if the first piece is finished then
both have got to the end of its body (`reaches_end`).
-/

namespace StackScript
namespace Machine

/-! ## How a run ends -/

/-- A run that is finished has nothing to flush. -/
theorem conclude_finished {halt : Halt} {m m' : Machine} (ended : m.conclude halt = (.finished, m')) :
    (∃ frame, halt = .finished frame) ∧ ∃ log, m' = { m with log } := by
  have concluded := concludes halt m
  rw [ended] at concluded
  cases concluded with
  | finished frame log => exact ⟨⟨frame, rfl⟩, log, rfl⟩

section

variable {pairs : Routine → Routine → Prop} {calls : Frame → Frame → Prop} {made : Nat}

end

/-! ## Identities -/

/-- The identities of routines that were there before, and of as many later ones, which are one
less in the second machine. -/
def Shifted (bound count i i' : Nat) : Prop :=
  i = i' ∧ i < bound ∨ ∃ j < count, i = bound + 1 + j ∧ i' = bound + j

section

variable {bound count i i' : Nat} (h : Shifted bound count i i')

include h

theorem Shifted.lt : i < bound + 1 + count ∧ i' < bound + count := by
  rcases h with ⟨rfl, below⟩ | ⟨k, small, rfl, rfl⟩ <;> omega

end

section

variable {s s' : Statement} {heap : Heap} {layout layout' : Layout}

end

section

variable {s s' : Statement} {heap : Heap} {layout layout' : Layout} (valid : heap.Valid)
  (listed : s.Listed) (fine' : (Part.script (s.followedBy s') heap).Fine layout')

include valid listed fine'

end

/-! ## The end of the first piece -/

section

variable {ids : Nat → Nat → Prop} {code code' : List Asm} {offset made limit : Nat} {script script' : Routine}
  {first first' last : Frame} {start start' final : Machine}
  (apart : ∀ i, ¬ ids script.id i) (holds : script.chunk.Holds 0 code)
  (none : ∀ a ∈ code, a.opcode ≠ .return)

include apart holds none

end

end Machine
end StackScript
