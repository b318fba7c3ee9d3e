import StackScript.Proofs.Code.Parts

/-!
# No two constants of a routine are equal

A value is added to a pool only if no constant is equal to it, and so no constant equals one before
it.  Among the constants that the compiler makes equality is symmetric, so no two of them are equal
(`Part.Fine.distinct`).
-/

namespace StackScript

/-- No constant is equal to one before it. -/
def Distinct (constants : Array Value) : Prop := constants.toList.Pairwise fun v w => (v == w) = false

/-- A value is added only if no constant is equal to it. -/
theorem keeps_distinct : Pool.Keeps (fun _ => True) Distinct := by
  intro heap constants v _ h
  unfold Pool.add
  split
  · exact h
  · rename_i missing
    have other := Array.findIdx?_eq_none_iff.mp missing
    show (constants.push v).toList.Pairwise _
    rw [Array.toList_push, List.pairwise_append]
    refine ⟨h, List.pairwise_singleton .., fun w mem u last => ?_⟩
    rw [List.mem_singleton.mp last]
    exact other w (Array.mem_toList_iff.mp mem)

/-- Equality of constants is symmetric. -/
theorem Heap.Made.beq_comm {heap : Heap} (valid : heap.Valid) {v w : Value} (hv : heap.Made v)
    (hw : heap.Made w) (same : (v == w) = true) : (w == v) = true := by
  cases hw with
  | number literal =>
      have equal := hv.eq_of_beq valid (.number literal) rfl same
      rwa [equal] at same ⊢
  | string entry =>
      have equal := hv.eq_of_beq valid (.string entry) rfl same
      rwa [equal] at same ⊢
  | routine r =>
      cases hv with
      | number | string => cases same
      | routine q =>
          have same : (q.id == r.id) = true := same
          exact show (r.id == q.id) = true from beq_iff_eq.mpr (beq_iff_eq.mp same).symm

namespace Part.Fine

variable {layout : Layout} {p : Part}

/-- No two constants of a routine are equal. -/
theorem distinct (h : p.Fine layout) (sound : p.pool.Sound) {i j : Nat} {v w : Value}
    (first : (p.routine layout).chunk.constants[i]? = some v)
    (second : (p.routine layout).chunk.constants[j]? = some w) (same : (v == w) = true) : i = j := by
  have all : Distinct (p.routine layout).chunk.constants := by
    refine p.body.kept_code keeps_distinct (fun _ _ => trivial) (fun q (_ : q ∈ p.inner layout) => trivial) ?_
    rw [h.fresh]
    exact .nil
  have made : ∀ v ∈ (p.routine layout).chunk.constants, (p.coded layout).pool.heap.Made v :=
    (h.sound_coded sound).constants
  have apart {i j : Nat} {v w : Value} (first : (p.routine layout).chunk.constants[i]? = some v)
      (second : (p.routine layout).chunk.constants[j]? = some w) (less : i < j) : (v == w) = false := by
    rw [← Array.getElem?_toList] at first second
    obtain ⟨bound, rfl⟩ := List.getElem?_eq_some_iff.mp first
    obtain ⟨bound', rfl⟩ := List.getElem?_eq_some_iff.mp second
    exact List.pairwise_iff_getElem.mp all i j bound bound' less
  have back := Heap.Made.beq_comm (h.sound_coded sound).heap (made v (Array.mem_of_getElem? first))
    (made w (Array.mem_of_getElem? second)) same
  rcases Nat.lt_trichotomy i j with less | equal | more
  · rw [apart first second less] at same
    cases same
  · exact equal
  · rw [apart second first more] at back
    cases back

end Part.Fine

end StackScript
