import StackScript.Proofs.Code.Targets
import StackScript.Proofs.Machine.Instructions
import StackScript.Proofs.Machine.Listed
import StackScript.Proofs.Recognition.Program

/-!
# Operands are read as they were written

An index is written in one byte or in four, a distance always in two.  The machine executes
what is written for an index with that index, and goes on from a jump, once that has been
written or patched, at the offset it is to lead to.  A distance above 65535 has no operand.
It is reported instead, and where a panic keeps the report back an error has been reported
before, so the compile fails in any case.
-/

namespace StackScript

/-! ## What the machine reads -/

/-- A call comes to the bytes that a chunk has from `pc` up to `next`.  The other code of
its routine may be different. -/
structure Frame.ComesTo (frame : Frame) (chunk : Chunk) (pc next : Nat) : Prop where
  ip : frame.ip = pc
  bytes : ∀ i, pc ≤ i → i < next → frame.routine.chunk.code[i]? = chunk.code[i]?

/-- Whenever the machine comes to the jump that a chunk has at `pc`, it goes on at `target`.
A jump on a condition leads there if the value on top is falsey, and else to what is behind it. -/
structure Chunk.JumpsTo (chunk : Chunk) (op : Opcode) (pc target : Nat) : Prop where
  always : op ≠ .jumpIfFalse → ∀ (frame : Frame) (m : Machine), frame.ComesTo chunk pc (pc + 3) →
    Machine.step frame m = .ok (.running { frame.atNext with ip := target }) m
  falsey : op = .jumpIfFalse → ∀ (frame : Frame) (m : Machine) (top : Value),
    frame.ComesTo chunk pc (pc + 3) → m.stack.back? = some top →
    Machine.step frame m =
      .ok (.running { frame.atNext with ip := if top.isFalsey then target else pc + 3 }) m

/-- Two chunks have the same code but for the two bytes of an operand. -/
structure Chunk.SameBut (chunk chunk' : Chunk) (site : Nat) : Prop where
  size : chunk'.size = chunk.size
  bytes : ∀ i, i ≠ site → i ≠ site + 1 → chunk'.code[i]? = chunk.code[i]?

section

variable {chunk : Chunk} {frame : Frame} {m : Machine} {op : Opcode}
  {pc distance target : Nat} {i : Chunk.Instruction}

theorem Frame.ComesTo.step (comes : frame.ComesTo chunk pc i.next) (code : chunk.decode pc = .ok i) :
    Machine.step frame m =
      Machine.executeInstruction { frame.atNext with ip := i.next } i.opcode i.operand m := by
  obtain ⟨rfl, bytes⟩ := comes
  exact Machine.step_of_decode (Chunk.decode_congr code bytes)

theorem Chunk.jumpsTo_forward (forward : op = .jump ∨ op = .jumpIfFalse)
    (code : chunk.decode pc = .ok ⟨op, distance, pc + 3⟩) (leads : pc + 3 + distance = target) :
    chunk.JumpsTo op pc target := by
  subst leads
  constructor
  · intro other frame m comes
    obtain rfl : op = .jump := forward.resolve_right other
    rw [comes.step code]
    rfl
  · rintro rfl frame m top comes there
    rw [comes.step code]
    simp only [Machine.executeInstruction, bind, EStateM.bind, Machine.peek_of_back? there]
    split <;> rfl

theorem Chunk.jumpsTo_back (code : chunk.decode pc = .ok ⟨.loop, distance, pc + 3⟩)
    (leads : target + distance = pc + 3) : chunk.JumpsTo .loop pc target := by
  have inside : ¬ pc + 3 < distance := by omega
  have back : pc + 3 - distance = target := by omega
  constructor
  · intro _ frame m comes
    rw [comes.step code]
    simp only [Machine.executeInstruction, inside, if_false, back]
    rfl
  · intro conditional
    cases conditional

theorem Chunk.sameBut_patchWord (chunk : Chunk) (site word : Nat) :
    chunk.SameBut (chunk.patchWord site word) site where
  size := size_patchWord ..
  bytes _ low high := getElem?_patchWord low high word

end

namespace Compiler

variable {c c' : Compiler} {source : String} {heap : Heap} {problem : Problem}

/-! ## What is refused -/

/-- A problem is reported between two states, and so the compile fails.  In a panic nothing is
added to the errors, but there are some. -/
structure Refuses (c c' : Compiler) (problem : Problem) : Prop where
  reported : c'.errors = (c.report problem).errors
  panics : c'.panicking = true
  /-- In whatever compile this happens, there is an error then. -/
  recorded : ∀ source heap, Acts true (opening source heap) c → c'.errors ≠ #[]
  /-- In whatever compile this happens, the result is errors. -/
  fails : ∀ source heap, Acts true (opening source heap) c → Acts true c' (closing source heap) →
    ∃ errors, (compile source heap).result = .error errors

/-- A distance is written if an operand has room for it, and refused otherwise. -/
structure Encodes (c c' : Compiler) (distance : Nat) (problem : Problem) (written : Prop) : Prop where
  near : distance ≤ 65535 → written ∧ c'.errors = c.errors ∧ c'.panicking = c.panicking
  far : 65535 < distance → Refuses c c' problem

theorem refuses_of_report (errors : c'.errors = (c.report problem).errors)
    (panicking : c'.panicking = (c.report problem).panicking) : Refuses c c' problem := by
  have recorded : ∀ source heap, Acts true (opening source heap) c → c'.errors ≠ #[] := by
    intro source heap reached
    rw [errors]
    exact errors_of_panicking (reached.trans (acts_complain c problem)) (panicking_report c problem)
  refine ⟨errors, panicking.trans (panicking_report c problem), recorded, ?_⟩
  intro source heap reached rest
  exact fails_of_errors (recorded source heap reached) rest

/-! ## Instructions behind the code -/

/-- One instruction was written behind the code. -/
structure Appends (c c' : Compiler) (a : Asm) : Prop where
  front : c.body.chunk.code.toList <+: c'.body.chunk.code.toList
  here : c'.here = c.here + a.size
  decoded : c'.body.chunk.decode c.here = .ok ⟨a.opcode, a.operand, c'.here⟩

/-- An operation was written with an index, in its wide form if the index needs it.  The
machine executes the operation with that index, and goes on behind what was written. -/
structure WritesIndex (c c' : Compiler) (op : Opcode) (index : Nat) : Prop where
  appends : Appends c c' ⟨if index < 256 then op else op.longForm, index⟩
  executed : ∀ (frame : Frame) (m : Machine), frame.ComesTo c'.body.chunk c.here c'.here →
    Machine.step frame m =
      Machine.executeInstruction { frame.atNext with ip := c'.here } op index m

/-- A jump back to `start` was written behind the code. -/
structure WritesLoop (c c' : Compiler) (start : Nat) : Prop where
  front : c.body.chunk.code.toList <+: c'.body.chunk.code.toList
  here : c'.here = c.here + 3
  leads : c'.body.chunk.JumpsTo .loop c.here start

theorem Emits.appends {a : Asm} {pool : Pool} (h : Emits c c' [a] pool) (fits : a.Fits) :
    Appends c c' a := by
  have written : c'.body.chunk.code.toList = c.body.chunk.code.toList ++ assemble [a] := h.written
  have here : c'.here = c.here + a.size := by rw [h.here, codeSize_singleton]
  have fine : ∀ b ∈ [a], b.Fits := by
    intro b mem
    rwa [List.mem_singleton.mp mem]
  have holds : c'.body.chunk.Holds c.here [a] :=
    Chunk.holds_of_carries fine (Chunk.carries_of_toList written)
  exact ⟨⟨_, written.symm⟩, here, here ▸ holds.1⟩

theorem writesIndex_emitIndexed (c : Compiler) {op : Opcode} {index : Nat}
    (short : op.operandWidth = 1) (long : op.longForm.operandWidth = 4) (small : index < 2 ^ 32) :
    WritesIndex c (c.emitIndexed op index) op index := by
  have appends : Appends c (c.emitIndexed op index) (.indexed op index) :=
    (emits_emitIndexed c op short long small).appends (Asm.fits_indexed short long small)
  have form : Asm.indexed op index = ⟨if index < 256 then op else op.longForm, index⟩ := by
    unfold Asm.indexed
    split
    · rw [if_pos ‹_›]
    · rw [if_neg ‹_›]
  constructor
  · rw [← form]
    exact appends
  · intro frame m comes
    rw [comes.step appends.decoded, Machine.executeInstruction_indexed, Asm.indexed_operand]

theorem encodes_emitLoop (c : Compiler) {start : Nat} (behind : start ≤ c.here + 3) :
    Encodes c (c.emitLoop start) (c.here + 3 - start) .loopTooLarge
      (WritesLoop c (c.emitLoop start) start) := by
  constructor
  · intro near
    have fits : (⟨.loop, c.here + 3 - start⟩ : Asm).Fits := fits_jump rfl near
    rw [emitLoop_near c near]
    have appends := (emits_operand c .loop (c.here + 3 - start) fun _ => fits).appends fits
    have decoded := appends.decoded
    rw [appends.here] at decoded
    have leads : start + (c.here + 3 - start) = c.here + 3 := by omega
    exact ⟨⟨appends.front, appends.here, Chunk.jumpsTo_back decoded leads⟩, rfl, rfl⟩
  · intro far
    rw [emitLoop_far c far, emit, report_mapBody]
    exact refuses_of_report rfl rfl

/-! ## Operands inside the code -/

/-- The jump at `pc` was patched to lead to `target`. -/
structure Redirects (c c' : Compiler) (op : Opcode) (pc target : Nat) : Prop where
  same : c.body.chunk.SameBut c'.body.chunk (pc + 1)
  leads : c'.body.chunk.JumpsTo op pc target

theorem encodes_patchJump {op : Opcode} {pc : Nat} (forward : op = .jump ∨ op = .jumpIfFalse)
    (there : c.body.chunk.code[pc]? = some op.toByte) (inside : pc + 3 ≤ c.here) :
    Encodes c (c.patchJump (pc + 1)) (c.here - (pc + 3)) .jumpTooFar
      (Redirects c (c.patchJump (pc + 1)) op pc c.here) := by
  have jump : op.operandWidth = 2 := by
    rcases forward with rfl | rfl
    · rfl
    · rfl
  have distance : c.here - (pc + 3) = c.here - (pc + 1) - 2 := by omega
  rw [distance]
  constructor
  · intro near
    rw [patchJump_near c near]
    have decoded := Chunk.decode_patchWord jump there inside near
    have leads : pc + 3 + (c.here - (pc + 1) - 2) = c.here := by omega
    exact ⟨⟨Chunk.sameBut_patchWord .., Chunk.jumpsTo_forward forward decoded leads⟩, rfl, rfl⟩
  · intro far
    rw [patchJump_far c far]
    exact refuses_of_report rfl rfl

theorem encodes_patchLoop {pc start : Nat}
    (there : c.body.chunk.code[pc]? = some Opcode.loop.toByte) (inside : pc + 3 ≤ c.here)
    (behind : start ≤ pc + 3) :
    Encodes c (c.patchLoop (pc + 1) start) (pc + 3 - start) .loopTooLarge
      (Redirects c (c.patchLoop (pc + 1) start) .loop pc start) := by
  constructor
  · intro near
    rw [patchLoop_near c near]
    have decoded : (c.body.chunk.patchWord (pc + 1) (pc + 3 - start)).decode pc =
        .ok ⟨.loop, pc + 3 - start, pc + 3⟩ := Chunk.decode_patchWord rfl there inside near
    have leads : start + (pc + 3 - start) = pc + 3 := by omega
    exact ⟨⟨Chunk.sameBut_patchWord .., Chunk.jumpsTo_back decoded leads⟩, rfl, rfl⟩
  · intro far
    rw [patchLoop_far c far]
    exact refuses_of_report rfl rfl

/-- Whatever code there is, operands are read as they were written.  An index comes back with
every operation on the constant pool, whether it fits into one byte or not.  A jump forward
that is patched leads to the end of the code, and a jump back that is written or patched leads
to its start, which is no later than what is behind the jump.  This is so for all distances up
to 65535, and all greater ones are refused. -/
theorem operands_agree (c : Compiler) :
    (∀ op ∈ [Opcode.constant, .defineGlobal, .getGlobal, .setGlobal], ∀ index < 2 ^ 32,
      WritesIndex c (c.emitIndexed op index) op index) ∧
    (∀ op ∈ [Opcode.jump, .jumpIfFalse], ∀ pc,
      c.body.chunk.code[pc]? = some op.toByte → pc + 3 ≤ c.here →
      Encodes c (c.patchJump (pc + 1)) (c.here - (pc + 3)) .jumpTooFar
        (Redirects c (c.patchJump (pc + 1)) op pc c.here)) ∧
    (∀ start ≤ c.here + 3,
      Encodes c (c.emitLoop start) (c.here + 3 - start) .loopTooLarge
        (WritesLoop c (c.emitLoop start) start)) ∧
    (∀ pc start, c.body.chunk.code[pc]? = some Opcode.loop.toByte → pc + 3 ≤ c.here →
      start ≤ pc + 3 →
      Encodes c (c.patchLoop (pc + 1) start) (pc + 3 - start) .loopTooLarge
        (Redirects c (c.patchLoop (pc + 1) start) .loop pc start)) := by
  refine ⟨?_, ?_, fun start behind => encodes_emitLoop c behind,
    fun pc start there inside behind => encodes_patchLoop there inside behind⟩
  · intro op mem index small
    have widths : op.operandWidth = 1 ∧ op.longForm.operandWidth = 4 := by
      simp only [List.mem_cons, List.not_mem_nil, or_false] at mem
      rcases mem with rfl | rfl | rfl | rfl
      all_goals exact ⟨rfl, rfl⟩
    exact writesIndex_emitIndexed c widths.1 widths.2 small
  · intro op mem pc there inside
    have forward : op = .jump ∨ op = .jumpIfFalse := by simpa using mem
    exact encodes_patchJump forward there inside

section Example

/-- The empty source after a jump and some instructions behind it were written. -/
def jumpOver (op : Opcode) (count : Nat) : Compiler :=
  ((opening "" .empty).emitJump op).emitPops (List.replicate count ⟨"", none⟩)

theorem acts_jumpOver (op : Opcode) (count : Nat) :
    Acts true (opening "" .empty) (jumpOver op count) :=
  (acts_emitJump _ op).trans (acts_emitPops _ _)

theorem emits_jumpOver {op : Opcode} (jump : op.operandWidth = 2) (count : Nat) : ∃ pool,
    Emits (opening "" .empty) (jumpOver op count)
      (⟨op, maxJump⟩ :: List.replicate count (.plain .pop)) pool := by
  have popped := emits_emitPops ((opening "" .empty).emitJump op) (List.replicate count ⟨"", none⟩)
  rw [pops_eq, List.length_replicate] at popped
  exact ⟨_, (emits_emitJump _ op jump).trans popped⟩

theorem opening_chunk : (opening source heap).body.chunk = .empty := by
  rw [opening, advance_body]
  rfl

theorem here_jumpOver {op : Opcode} (jump : op.operandWidth = 2) (count : Nat) :
    (jumpOver op count).here = count + 3 := by
  obtain ⟨_, emits⟩ := emits_jumpOver jump count
  rw [emits.here, here, opening_chunk, codeSize_cons, codeSize_pops, Asm.size, jump]
  show 0 + (3 + count) = count + 3
  omega

theorem code_jumpOver {op : Opcode} (jump : op.operandWidth = 2) (count : Nat) :
    (jumpOver op count).body.chunk.code[0]? = some op.toByte := by
  obtain ⟨_, emits⟩ := emits_jumpOver jump count
  rw [← Array.getElem?_toList, emits.written, opening_chunk]
  rfl

/-- The last distance that has an operand, forward and back, and the first that has none; and
an index that does not fit into one byte. -/
theorem operands_agree_sample :
    ((jumpOver .jump 65535).patchJump 1).body.chunk.JumpsTo .jump 0 65538 ∧
      ((jumpOver .jump 65536).patchJump 1).errors ≠ #[] ∧
      ((jumpOver .jump 65532).emitLoop 3).body.chunk.JumpsTo .loop 65535 3 ∧
      ((jumpOver .loop 0).patchLoop 1 2).body.chunk.JumpsTo .loop 0 2 ∧
      ((jumpOver .jump 0).emitIndexed .getGlobal 256).body.chunk.decode 3 =
        .ok ⟨.getGlobalLong, 256, 8⟩ := by
  have near := (operands_agree (jumpOver .jump 65535)).2.1 .jump (by simp) 0 (code_jumpOver rfl _)
  have far := (operands_agree (jumpOver .jump 65536)).2.1 .jump (by simp) 0 (code_jumpOver rfl _)
  have back := (operands_agree (jumpOver .jump 65532)).2.2.1 3
  have loop := (operands_agree (jumpOver .loop 0)).2.2.2 0 2 (code_jumpOver rfl _)
  have index := ((operands_agree (jumpOver .jump 0)).1 .getGlobal (by simp) 256 (by decide)).appends
  rw [here_jumpOver rfl] at near far back loop
  refine ⟨?_, ?_, ?_, ?_, ?_⟩
  · have leads := ((near (by omega)).near (by omega)).1.leads
    simpa only [Nat.reduceAdd] using leads
  · exact ((far (by omega)).far (by omega)).recorded "" .empty (acts_jumpOver _ _)
  · have leads := ((back (by omega)).near (by omega)).1.leads
    rw [here_jumpOver rfl] at leads
    simpa only [Nat.reduceAdd] using leads
  · exact ((loop (by omega) (by omega)).near (by omega)).1.leads
  · have decoded := index.decoded
    rw [index.here, here_jumpOver rfl] at decoded
    exact decoded

end Example

end Compiler
end StackScript
