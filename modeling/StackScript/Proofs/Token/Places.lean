import StackScript.Proofs.Token.Tiling

/-!
# Where tokens are

A token knows the byte at which it begins and the line of that byte.  The tokens of a
scan stand in the order of the text, and no token but the end marker is empty.
-/

namespace StackScript
namespace Token

/-- A token begins behind a part of a text, and only the end marker is empty. -/
structure Begins (t : Token) (before after : List Char) : Prop where
  start : t.span.start = byteLength before
  line : t.line = 1 + before.count '\n'
  last : t.kind = .eof → after = []
  proper : t.kind ≠ .eof → t.span.start < t.span.stop

/-- A token begins somewhere in a text. -/
def Within (t : Token) (text : List Char) : Prop :=
  ∃ before after, text = before ++ after ∧ t.Begins before after

/-- Every token of a scan begins in the text, at the byte and on the line that it says. -/
theorem within_of_mem_scan {source : String} {t : Token} (mem : t ∈ scan source) :
    t.Within source.toList := by
  obtain ⟨before, slice, rest, cuts, line, renders⟩ := exists_cuts mem
  refine ⟨before, slice ++ rest, ?_, cuts.start, line, ?_, ?_⟩
  · rw [cuts.whole, List.append_assoc]
  · exact renders.nil_of_eof
  · intro more
    exact cuts.start_lt_stop (renders.slice_ne_nil more)

/-- The tokens of a scan stand in the order of the text. -/
theorem pairwise_scan (source : String) : (scan source).Pairwise (·.span.start ≤ ·.span.start) := by
  have laid : Laid [] source.toList (scan source) := laid_reading [] source.toList
  refine List.Pairwise.imp_of_mem (fun mem _ apart => ?_) laid.apart.2
  obtain ⟨before, slice, rest, cuts, -⟩ := exists_cuts mem
  exact Nat.le_trans cuts.start_le_stop apart

end Token
end StackScript
