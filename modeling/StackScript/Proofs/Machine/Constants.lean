import StackScript.Proofs.Code.Distinct
import StackScript.Proofs.Code.Needs
import StackScript.Proofs.Machine.Boundaries

/-!
# Constants and the code that takes them

The constants of a compiled routine are just what its code needs: no two of them are equal, each is
the operand of an instruction, and the instructions that take constants load one after the other
what the literals, global names and functions of the source stand for
(`Compiler.provides_of_ok`).  An index that fits into a byte is written as one.
-/

namespace StackScript

namespace Chunk

/-- An instruction without its place. -/
def Instruction.asm (i : Instruction) : Asm := ⟨i.opcode, i.operand⟩

/-- The constants are what the listed code needs them for. -/
structure Provides (chunk : Chunk) (listing : List (Nat × Instruction)) (needs : List Need) : Prop where
  /-- No two constants are equal. -/
  distinct : ∀ (i j : Nat) (v w : Value), chunk.constants[i]? = some v → chunk.constants[j]? = some w →
    (v == w) = true → i = j
  /-- Every constant is the operand of an instruction that takes one. -/
  used : ∀ k < chunk.constants.size,
    ∃ pc i, (pc, i) ∈ listing ∧ i.opcode.takesConstant = true ∧ i.operand = k
  /-- One after the other, these instructions load what is needed. -/
  loads : List.Forall₂ (Need.LoadedBy chunk.constants) needs
    (takers (listing.map fun entry => entry.2.asm))
  /-- The short form is for the indices that it has room for. -/
  short : ∀ pc i, (pc, i) ∈ listing → i.opcode.takesConstant = true →
    (i.opcode.operandWidth = 1 ↔ i.operand ≤ 255)

end Chunk

theorem asm_listed (pc : Nat) (code : List Asm) :
    (listed pc code).map (fun entry => entry.2.asm) = code := by
  induction code generalizing pc with
  | nil => rfl
  | cons a code ih => rw [listed, List.map_cons, ih]; rfl

/-- The instruction for an index is short if and only if the index fits into a byte. -/
theorem Need.short_iff (need : Need) (index : Nat) :
    (Asm.indexed need.opcode index).opcode.operandWidth = 1 ↔ index ≤ 255 := by
  unfold Asm.indexed
  split
  · rename_i small
    exact iff_of_true need.operandWidth_opcode (Nat.le_of_lt_succ small)
  · rename_i large
    refine iff_of_false ?_ fun small => large (Nat.lt_succ_of_le small)
    simp [need.operandWidth_longForm]

/-- Whatever loads one of the needs is an instruction with an index. -/
theorem Need.indexed_of_loads {constants : Array Value} {needs : List Need} {code : List Asm}
    (loads : List.Forall₂ (LoadedBy constants) needs code) :
    ∀ a ∈ code, ∃ (need : Need) (index : Nat), a = .indexed need.opcode index := by
  induction loads with
  | nil => exact fun a mem => absurd mem List.not_mem_nil
  | @cons need a needs code first _ ih =>
      obtain ⟨index, v, same, -⟩ := first
      exact List.forall_mem_cons.mpr ⟨⟨need, index, same⟩, ih⟩

namespace Part

/-- What the code of the routine needs constants for. -/
def needs (p : Part) : List Need := p.body.needs p.place.locals p.place.depth

namespace Fine

variable {layout : Layout} {p : Part}

/-- What the code of a routine does with its constants. -/
theorem uses (h : p.Fine layout) (sound : p.pool.Sound) :
    Uses (p.routine layout).chunk.constants p.needs (p.code layout) 0
      (p.routine layout).chunk.constants.size := by
  have body := p.body.uses layout h.proper h.placed sound (Pool.dated_of_fresh h.fresh)
    fun i v found => found
  rw [h.fresh] at body
  refine body.before (takers_eq_nil fun a mem => ?_)
  exact (p.ending.plain_closing a mem).1

/-- The constants of a routine are what its code needs. -/
theorem provides (h : p.Fine layout) (sound : p.pool.Sound) :
    (p.routine layout).chunk.Provides (listed 0 (p.code layout)) p.needs := by
  have uses := h.uses sound
  have loads : List.Forall₂ (Need.LoadedBy (p.routine layout).chunk.constants) p.needs
      (takers ((listed 0 (p.code layout)).map fun entry => entry.2.asm)) := by
    rw [asm_listed]
    exact uses.loads
  constructor
  · exact fun i j v w first second same => h.distinct sound first second same
  · intro k small
    obtain ⟨a, mem, operand⟩ := uses.covers k (Nat.zero_le k) small
    rw [← asm_listed 0 (p.code layout)] at mem
    obtain ⟨inside, taker⟩ := List.mem_filter.mp mem
    obtain ⟨⟨pc, i⟩, listed, rfl⟩ := List.mem_map.mp inside
    exact ⟨pc, i, listed, taker, operand⟩
  · exact loads
  · intro pc i mem taker
    have taken : i.asm ∈ takers ((listed 0 (p.code layout)).map fun entry => entry.2.asm) :=
      List.mem_filter.mpr ⟨List.mem_map_of_mem mem, taker⟩
    obtain ⟨need, index, same⟩ := Need.indexed_of_loads loads _ taken
    have width : i.opcode.operandWidth = (Asm.indexed need.opcode index).opcode.operandWidth :=
      congrArg (fun a => a.opcode.operandWidth) same
    have operand : i.operand = index := (congrArg Asm.operand same).trans (Asm.indexed_operand _ _)
    rw [width, operand]
    exact need.short_iff index

end Fine
end Part

/-- In an accepted source the constants of every function are what its literals, its global names and
the functions declared in it need, and nothing else. -/
theorem Compiler.provides_of_ok {source : String} {heap : Heap} (valid : heap.Valid) {script : Routine}
    (ok : (compile source heap).result = .ok script) :
    ∃ (layout : Layout) (tree : Statement), tree.Writes source ∧
      script = (Part.script tree heap).routine layout ∧
      ∀ r, script.Within r → ∃ (p : Part) (listing : List (Nat × Chunk.Instruction)),
        (Part.script tree heap).Within layout p ∧ r = p.routine layout ∧
          r.chunk.Splits 0 listing ∧ r.chunk.Provides listing p.needs := by
  obtain ⟨layout, ts, e, ends, tree, tokens, last, written, fine, rfl⟩ := script_of_ok ok
  refine ⟨layout, tree, ⟨ts, e, ends, tokens, last, written⟩, rfl, fun r within => ?_⟩
  obtain ⟨other, p, ⟨rfl, inside⟩, rfl⟩ :=
    (Library.program fine).within ⟨layout, _, ⟨rfl, .self⟩, rfl⟩ within
  have part := fine.within inside
  exact ⟨p, _, inside, rfl, part.wellFormed.splits,
    part.provides (fine.sound_within (Pool.sound_empty valid) inside)⟩

/-- A text that is a literal and a global name at once is one constant. -/
theorem Compiler.provides_of_ok_sample :
    Heap.empty.Valid ∧ ∃ script layout tree,
      (compile "var a = \"a\"; a = a;" .empty).result = .ok script ∧
      tree.Writes "var a = \"a\"; a = a;" ∧ script = (Part.script tree .empty).routine layout ∧
      ∃ p listing, (Part.script tree .empty).Within layout p ∧ script = p.routine layout ∧
        script.chunk.Splits 0 listing ∧ script.chunk.Provides listing p.needs := by
  have computed : (compile "var a = \"a\"; a = a;" .empty).result.toOption.isSome = true := by
    decide +kernel
  cases ok : (compile "var a = \"a\"; a = a;" .empty).result with
  | error errors =>
      rw [ok] at computed
      cases computed
  | ok script =>
      obtain ⟨layout, tree, writes, same, all⟩ := provides_of_ok Heap.valid_empty ok
      exact ⟨Heap.valid_empty, script, layout, tree, rfl, writes, same, all script .self⟩

end StackScript
