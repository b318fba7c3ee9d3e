import StackScript.Proofs.Code.Postfix
import StackScript.Proofs.Parsing.Errors

/-!
# What the writing functions write

`Emits c c' code pool` says that between two states of the compiler exactly the
instructions `code` were appended to the innermost routine, that the pool is now
`pool`, and that scopes and loops are as before.  Forward jumps are written with a
placeholder; `Emits.patch` says what the patch makes of it.
-/

namespace StackScript

/-- The last operation of some code, or the one before it if there is none. -/
def lastOpcode (code : List Asm) (before : Option Opcode) : Option Opcode :=
  (code.getLast?.map Asm.opcode).or before

@[simp] theorem lastOpcode_nil (before : Option Opcode) : lastOpcode [] before = before := rfl

theorem lastOpcode_append (code more : List Asm) (before : Option Opcode) :
    lastOpcode (code ++ more) before = lastOpcode more (lastOpcode code before) := by
  simp only [lastOpcode, List.getLast?_append, Option.map_or]
  cases more.getLast? <;> rfl

theorem lastOpcode_cons_append (a : Asm) (front code : List Asm) (before : Option Opcode) :
    lastOpcode (front ++ a :: code) before = lastOpcode code (some a.opcode) := by
  rw [lastOpcode_append, ← List.singleton_append, lastOpcode_append]
  rfl

namespace Compiler

/-- The strings and the constants of the innermost routine. -/
def pool (c : Compiler) : Pool := ⟨c.heap, c.body.chunk.constants⟩

/-- The locals of the routines around the innermost one. -/
def outer (c : Compiler) : List (List LocalVariable) := c.enclosing.map Body.locals

/-- Distances that a jump can cover fit. -/
theorem fits_jump {op : Opcode} {distance : Nat} (jump : op.operandWidth = 2)
    (near : distance ≤ maxJump) : (⟨op, distance⟩ : Asm).Fits := by
  have near : distance < 256 ^ 2 := Nat.lt_succ_of_le near
  simpa only [Asm.Fits, jump] using near

/-! ## Jumps

A jump is written, or patched, if its distance is one that a jump can cover.  Any other
distance is reported. -/

section Distances

variable (c : Compiler) {site start : Nat}

theorem here_emit (op : Opcode) : (c.emit op).here = c.here + 1 := by
  have length := congrArg List.length (c.body.chunk.writeOpcode_code c.line op)
  simp only [List.length_append, List.length_singleton, Array.length_toList] at length
  exact length

theorem here_emitWord (width word : Nat) : (c.emitWord width word).here = c.here + width := by
  have length := congrArg List.length (c.body.chunk.writeWord_code c.line width word)
  simp only [List.length_append, wordBytes_length, Array.length_toList] at length
  exact length

theorem emitLoop_near (near : c.here + 3 - start ≤ maxJump) :
    c.emitLoop start = (c.emit .loop).emitWord 2 (c.here + 3 - start) := by
  have distance : (c.emit .loop).here + 2 - start = c.here + 3 - start := by rw [here_emit]
  simp only [emitLoop, distance, near, if_true]

theorem emitLoop_far (far : maxJump < c.here + 3 - start) :
    c.emitLoop start = ((c.emit .loop).report .loopTooLarge).emitWord 2 0 := by
  have distance : (c.emit .loop).here + 2 - start = c.here + 3 - start := by rw [here_emit]
  simp only [emitLoop, distance, Nat.not_le.mpr far, if_false]

theorem patchJump_near (near : c.here - site - 2 ≤ maxJump) :
    c.patchJump site = { c with body := { c.body with
      chunk := c.body.chunk.patchWord site (c.here - site - 2), landing := some c.here } } := by
  simp only [patchJump, near, if_true]
  rfl

theorem patchJump_far (far : maxJump < c.here - site - 2) :
    c.patchJump site =
      (c.report .jumpTooFar).mapBody fun body => { body with landing := some c.here } := by
  simp only [patchJump, Nat.not_le.mpr far, if_false]

theorem patchLoop_near (near : site + 2 - start ≤ maxJump) :
    c.patchLoop site start = { c with body := { c.body with
      chunk := c.body.chunk.patchWord site (site + 2 - start) } } := by
  simp only [patchLoop, near, if_true]
  rfl

theorem patchLoop_far (far : maxJump < site + 2 - start) :
    c.patchLoop site start = c.report .loopTooLarge := by
  simp only [patchLoop, Nat.not_le.mpr far, if_false]

/-- A patch forward overwrites bytes and is remembered as the landing, or it reports. -/
theorem patchJump_eq (site : Nat) : ∃ chunk errors panicking,
    chunk.size = c.body.chunk.size ∧ chunk.constants = c.body.chunk.constants ∧
      c.patchJump site = { c with
        errors, panicking, body := { c.body with chunk, landing := some c.here } } := by
  by_cases near : c.here - site - 2 ≤ maxJump
  · exact ⟨_, _, _, Chunk.size_patchWord .., Chunk.patchWord_constants .., patchJump_near c near⟩
  · let reported := c.report .jumpTooFar
    refine ⟨c.body.chunk, reported.errors, reported.panicking, rfl, rfl, ?_⟩
    rw [patchJump_far c (Nat.not_le.mp near), report_eq]
    rfl

/-- A patch back overwrites bytes or reports. -/
theorem patchLoop_eq (site start : Nat) : ∃ chunk errors panicking,
    chunk.size = c.body.chunk.size ∧ chunk.constants = c.body.chunk.constants ∧
      c.patchLoop site start = { c with errors, panicking, body := { c.body with chunk } } := by
  by_cases near : site + 2 - start ≤ maxJump
  · exact ⟨_, _, _, Chunk.size_patchWord .., Chunk.patchWord_constants .., patchLoop_near c near⟩
  · let reported := c.report .loopTooLarge
    refine ⟨c.body.chunk, reported.errors, reported.panicking, rfl, rfl, ?_⟩
    rw [patchLoop_far c (Nat.not_le.mp near)]
    exact report_eq c .loopTooLarge

end Distances

section Patches

variable {b : Compiler} {before : List UInt8} {front rest : List Asm} {op : Opcode}
  {old site : Nat}

/-- A patch of the operand of an instruction with two operand bytes. -/
theorem patchWord_spelled (jump : op.operandWidth = 2)
    (spelled : b.body.chunk.code.toList = before ++ assemble (front ++ ⟨op, old⟩ :: rest))
    (hsite : site = before.length + codeSize front + 1) (word : Nat) :
    (b.body.chunk.patchWord site word).code.toList =
      before ++ assemble (front ++ ⟨op, word⟩ :: rest) := by
  have located : site = (before ++ assemble front ++ [op.toByte]).length := by
    rw [hsite]
    simp only [codeSize, List.length_append, List.length_singleton]
  have spelled : b.body.chunk.code.toList =
      (before ++ assemble front ++ [op.toByte]) ++
        old.toUInt8 :: (old / 256).toUInt8 :: assemble rest := by
    rw [spelled, assemble_append, assemble_cons]
    simp [Asm.bytes, jump, wordBytes]
  rw [located, Chunk.patchWord_code spelled]
  simp [Asm.bytes, jump]

/-- A patched forward jump leads behind the code written since. -/
theorem patchJump_spelled (jump : op.operandWidth = 2)
    (spelled : b.body.chunk.code.toList = before ++ assemble (front ++ ⟨op, old⟩ :: rest))
    (hsite : site = before.length + codeSize front + 1) (quiet : Quiet b (b.patchJump site)) :
    codeSize rest ≤ maxJump ∧ ∃ chunk : Chunk,
      b.patchJump site = { b with body := { b.body with chunk, landing := some b.here } } ∧
      chunk.code.toList = before ++ assemble (front ++ ⟨op, codeSize rest⟩ :: rest) ∧
      chunk.constants = b.body.chunk.constants := by
  have size : b.here = site + 2 + codeSize rest := by
    have := congrArg List.length spelled
    rw [List.length_append, Array.length_toList] at this
    rw [here, Chunk.size, this, hsite, ← codeSize, codeSize_append, codeSize_cons, Asm.size, jump]
    omega
  have distance : b.here - site - 2 = codeSize rest := by omega
  rw [← distance]
  have near : b.here - site - 2 ≤ maxJump := by
    by_contra far
    rw [patchJump_far b (Nat.not_le.mp far)] at quiet
    exact not_quiet_report b .jumpTooFar quiet
  exact ⟨near, b.body.chunk.patchWord site (b.here - site - 2), patchJump_near b near,
    patchWord_spelled jump spelled hsite _, Chunk.patchWord_constants _ _ _⟩

/-- A patched jump back leads to the given start. -/
theorem patchLoop_spelled {start : Nat} (jump : op.operandWidth = 2)
    (spelled : b.body.chunk.code.toList = before ++ assemble (front ++ ⟨op, old⟩ :: rest))
    (hsite : site = before.length + codeSize front + 1)
    (quiet : Quiet b (b.patchLoop site start)) :
    site + 2 - start ≤ maxJump ∧ ∃ chunk : Chunk,
      b.patchLoop site start = { b with body := { b.body with chunk } } ∧
      chunk.code.toList = before ++ assemble (front ++ ⟨op, site + 2 - start⟩ :: rest) ∧
      chunk.constants = b.body.chunk.constants := by
  have near : site + 2 - start ≤ maxJump := by
    by_contra far
    rw [patchLoop_far b (Nat.not_le.mp far)] at quiet
    exact not_quiet_report b .loopTooLarge quiet
  exact ⟨near, b.body.chunk.patchWord site (site + 2 - start), patchLoop_near b near,
    patchWord_spelled jump spelled hsite _, Chunk.patchWord_constants _ _ _⟩

end Patches

/-- Between two states exactly `code` was written. -/
structure Emits (c c' : Compiler) (code : List Asm) (pool : Pool) : Prop where
  written : c'.body.chunk.code.toList = c.body.chunk.code.toList ++ assemble code
  pooled : c'.pool = pool
  signature : c'.body.name = c.body.name ∧ c'.body.arity = c.body.arity
  locals : c'.body.locals = c.body.locals
  depth : c'.body.depth = c.body.depth
  loops : c'.body.loops = c.body.loops
  enclosing : c'.enclosing = c.enclosing
  /-- Slots fit into a byte because the number of locals is limited. -/
  fits : c.body.locals.length ≤ Body.maxLocals → ∀ a ∈ code, a.Fits
  last : c'.body.lastOpcode = lastOpcode code c.body.lastOpcode

namespace Emits

variable {a b c c' : Compiler} {code more : List Asm} {p q : Pool}

/-- A step that touches no routine. -/
theorem still (body : c'.body = c.body) (enclosing : c'.enclosing = c.enclosing) :
    Emits c c' [] c'.pool where
  written := by simp [body]
  pooled := rfl
  signature := by rw [body]; exact ⟨rfl, rfl⟩
  locals := by rw [body]
  depth := by rw [body]
  loops := by rw [body]
  enclosing := enclosing
  fits := by simp
  last := by rw [body]; rfl

/-- A step that touches neither routines nor strings. -/
theorem silent (body : c'.body = c.body) (heap : c'.heap = c.heap)
    (enclosing : c'.enclosing = c.enclosing) : Emits c c' [] c.pool := by
  have pooled : c'.pool = c.pool := by rw [Compiler.pool, Compiler.pool, body, heap]
  exact pooled ▸ still body enclosing

theorem refl (c : Compiler) : Emits c c [] c.pool := silent rfl rfl rfl

theorem trans (hab : Emits a b code p) (hbc : Emits b c more q) :
    Emits a c (code ++ more) q where
  written := by rw [hbc.written, hab.written, assemble_append, List.append_assoc]
  pooled := hbc.pooled
  signature := ⟨hbc.signature.1.trans hab.signature.1, hbc.signature.2.trans hab.signature.2⟩
  locals := hbc.locals.trans hab.locals
  depth := hbc.depth.trans hab.depth
  loops := hbc.loops.trans hab.loops
  enclosing := hbc.enclosing.trans hab.enclosing
  fits := by
    intro small x hx
    rcases List.mem_append.mp hx with hx | hx
    · exact hab.fits small x hx
    · exact hbc.fits (by rw [hab.locals]; exact small) x hx
  last := by rw [hbc.last, hab.last, lastOpcode_append]

/-- Something written after a step that only read or looked up. -/
theorem after (hab : Emits a b [] p) (hbc : Emits b c code q) : Emits a c code q := by
  simpa using hab.trans hbc

/-- Something written before a step that only read or looked up. -/
theorem before (hab : Emits a b code p) (hbc : Emits b c [] q) : Emits a c code q := by
  simpa using hab.trans hbc

theorem here (h : Emits c c' code p) : c'.here = c.here + codeSize code := by
  have := congrArg List.length h.written
  simpa [Compiler.here, Chunk.size, codeSize] using this

theorem outer (h : Emits c c' code p) : c'.outer = c.outer := by
  rw [Compiler.outer, Compiler.outer, h.enclosing]

/-- A patched jump leads to the end of the code written since. -/
theorem patch {front rest : List Asm} {op : Opcode} {old site : Nat}
    (jump : op.operandWidth = 2) (h : Emits a b (front ++ ⟨op, old⟩ :: rest) p)
    (hsite : site = a.here + codeSize front + 1) (quiet : Quiet b (b.patchJump site)) :
    Emits a (b.patchJump site) (front ++ ⟨op, codeSize rest⟩ :: rest) p := by
  obtain ⟨near, chunk, same, spelled, constants⟩ := patchJump_spelled jump h.written hsite quiet
  rw [same]
  refine ⟨spelled, ?_, h.signature, h.locals, h.depth, h.loops, h.enclosing, ?_, ?_⟩
  · rw [← h.pooled]
    show (⟨b.heap, chunk.constants⟩ : Pool) = _
    rw [constants]
    rfl
  · intro small x hx
    rcases List.mem_append.mp hx with hx | hx
    · exact h.fits small x (List.mem_append_left _ hx)
    rcases List.mem_cons.mp hx with rfl | hx
    · exact fits_jump jump near
    · exact h.fits small x (List.mem_append_right _ (List.mem_cons_of_mem _ hx))
  · show b.body.lastOpcode = _
    rw [h.last, lastOpcode_cons_append, lastOpcode_cons_append]

end Emits

theorem emits_advance (c : Compiler) : Emits c c.advance [] c.pool :=
  .silent (advance_body c) (advance_heap c) (advance_enclosing c)

theorem emits_consume (c : Compiler) (kind : TokenKind) (problem : Problem) :
    Emits c (c.consume kind problem) [] c.pool :=
  .silent (consume_body c kind problem) (consume_heap c kind problem)
    (consume_enclosing c kind problem)

/-- An operation and its operand, written one after the other. -/
theorem emits_operand (c : Compiler) (op : Opcode) (operand : Nat)
    (fits : c.body.locals.length ≤ Body.maxLocals → (⟨op, operand⟩ : Asm).Fits) :
    Emits c ((c.emit op).emitWord op.operandWidth operand) [⟨op, operand⟩] c.pool where
  written := by simp [emit, emitWord, mapBody, Body.writeOpcode, Body.mapChunk, Asm.bytes]
  pooled := by simp [pool, emit, emitWord, mapBody, Body.writeOpcode, Body.mapChunk]
  signature := ⟨rfl, rfl⟩
  locals := rfl
  depth := rfl
  loops := rfl
  enclosing := rfl
  fits := by simpa using fits
  last := rfl

theorem emits_emit (c : Compiler) (op : Opcode) (plain : op.operandWidth = 0) :
    Emits c (c.emit op) [.plain op] c.pool := by
  have written := emits_operand c op 0 (fun _ => by simp [Asm.Fits, plain])
  rw [plain] at written
  exact written

theorem emits_emitByte (c : Compiler) (op : Opcode) (operand : Nat)
    (byte : op.operandWidth = 1)
    (small : c.body.locals.length ≤ Body.maxLocals → operand < 256) :
    Emits c (c.emitByte op operand) [⟨op, operand⟩] c.pool := by
  have written := emits_operand c op operand (fun h => by simpa [Asm.Fits, byte] using small h)
  rw [byte] at written
  exact written

theorem emits_emitJump (c : Compiler) (op : Opcode) (jump : op.operandWidth = 2) :
    Emits c (c.emitJump op) [⟨op, maxJump⟩] c.pool := by
  have written := emits_operand c op maxJump (fun _ => by simp [Asm.Fits, jump, maxJump])
  rw [jump] at written
  exact written

/-- Operations on the constant pool have a short and a long form. -/
theorem emits_emitIndexed (c : Compiler) (op : Opcode) {index : Nat}
    (short : op.operandWidth = 1) (long : op.longForm.operandWidth = 4)
    (small : index < 2 ^ 32) :
    Emits c (c.emitIndexed op index) [.indexed op index] c.pool := by
  have fits := Asm.fits_indexed short long small
  unfold emitIndexed
  unfold Asm.indexed at fits ⊢
  by_cases narrow : index < 2 ^ 8
  · have inByte : index < Nat.pow 2 8 := narrow
    rw [if_pos narrow] at fits ⊢
    rw [if_pos inByte, emitByte, ← short]
    exact emits_operand c op index fun _ => fits
  · have beyond : ¬ index < Nat.pow 2 8 := narrow
    rw [if_neg narrow] at fits ⊢
    rw [if_neg beyond, ← long]
    exact emits_operand c op.longForm index fun _ => fits

/-! ## Constants -/

theorem emits_constantIndex {c : Compiler} {value : Value} (made : c.Made value)
    (quiet : Quiet c (c.constantIndex value).2) :
    (c.constantIndex value).1 = (c.pool.add value).1 ∧
      (c.pool.add value).1 < 2 ^ 32 ∧
      Emits c (c.constantIndex value).2 [] (c.pool.add value).2 := by
  have index : (c.body.chunk.addConstant value).1 = (c.pool.add value).1 := by
    unfold Chunk.addConstant Pool.add pool
    cases found : c.body.chunk.constants.findIdx? (· == value) <;> simp only
  have constants :
      (c.body.chunk.addConstant value).2.constants = (c.pool.add value).2.constants := by
    unfold Chunk.addConstant Pool.add pool
    cases found : c.body.chunk.constants.findIdx? (· == value) <;> simp only
  have code : (c.body.chunk.addConstant value).2.code = c.body.chunk.code := by
    unfold Chunk.addConstant
    split <;> rfl
  have heap : (c.pool.add value).2.heap = c.heap := by
    unfold Pool.add
    split <;> rfl
  unfold constantIndex at quiet ⊢
  dsimp only at quiet ⊢
  split at quiet
  · rename_i small
    rw [if_pos small]
    refine ⟨index, index ▸ small, ?_, ?_, ⟨rfl, rfl⟩, rfl, rfl, rfl, rfl, by simp, rfl⟩
    · show (c.body.chunk.addConstant value).2.code.toList = _
      simp [code]
    · show (⟨c.heap, (c.body.chunk.addConstant value).2.constants⟩ : Pool) = _
      rw [constants, ← heap]
  -- too many constants: the report is a problem, so the compiler is not quiet
  · exact absurd (quiet.split (Act.constant c made).acts (acts_report _ rfl)).2
      (not_quiet_report _ _)

theorem emits_emitConstant {c : Compiler} {value : Value} (made : c.Made value)
    (quiet : Quiet c (c.emitConstant value)) :
    Emits c (c.emitConstant value) [.indexed .constant (c.pool.add value).1]
      (c.pool.add value).2 := by
  have pooled := (quiet.split (acts_constantIndex c made) (acts_emitIndexed _ _ _)).1
  obtain ⟨index, small, looked⟩ := emits_constantIndex made pooled
  have written := emits_emitIndexed (c.constantIndex value).2 .constant rfl rfl small
  rw [looked.pooled, ← index] at written
  rw [← index]
  exact looked.after written

theorem emits_intern (c : Compiler) (chars : String) :
    Emits c (c.intern chars).2 [] ⟨(c.heap.intern chars).2, c.pool.constants⟩ :=
  ⟨by simp [intern], rfl, ⟨rfl, rfl⟩, rfl, rfl, rfl, rfl, by simp, rfl⟩

theorem emits_nameIndex {c : Compiler} {name : String} (quiet : Quiet c (c.nameIndex name).2) :
    (c.nameIndex name).1 = (c.pool.addString name).1 ∧
      (c.pool.addString name).1 < 2 ^ 32 ∧
      Emits c (c.nameIndex name).2 [] (c.pool.addString name).2 := by
  have interned := emits_intern c name
  have rest : Quiet (c.intern name).2
      ((c.intern name).2.constantIndex (.string (c.intern name).1)).2 :=
    (quiet.split (acts_intern c name) (acts_constantIndex _ (made_intern c name))).2
  obtain ⟨index, small, looked⟩ := emits_constantIndex (made_intern c name) rest
  rw [interned.pooled] at index small looked
  exact ⟨index, small, interned.after looked⟩

/-! ## Variables -/

theorem findLocal_lt {name : String} {locals : List LocalVariable} {slot : Nat}
    {var : LocalVariable} (h : Body.findLocal name locals = some (slot, var)) :
    slot < locals.length := by
  induction locals with
  | nil => simp [Body.findLocal] at h
  | cons newest older ih =>
      simp only [Body.findLocal] at h
      split at h
      · simp only [Option.some.injEq, Prod.mk.injEq] at h
        simp [← h.1]
      · have := ih h
        simp only [List.length_cons]
        omega

/-- The operand of an access to a resolved variable has room. -/
def Target.Small (limit : Nat) : Target → Prop
  | slot index => limit ≤ Body.maxLocals → index < 256
  | global index => index < 2 ^ 32

/-- The name means a local that has been initialized, or a global that no local of the
routines around hides. -/
structure Bound (outer : List (List LocalVariable)) (locals : List LocalVariable)
    (name : String) : Prop where
  settled : ∀ slot var, Body.findLocal name locals = some (slot, var) → var.depth.isSome
  free : Body.findLocal name locals = none → ∀ scope ∈ outer, ∀ var ∈ scope, var.name ≠ name

/-- Names are resolved as `Pool.resolve` says, and nothing is reported only if the name
is bound. -/
theorem emits_resolve {c : Compiler} {name : String} (quiet : Quiet c (c.resolve name).2) :
    (c.resolve name).1 = (c.pool.resolve c.body.locals name).1 ∧
      (c.resolve name).1.Small c.body.locals.length ∧
      Emits c (c.resolve name).2 [] (c.pool.resolve c.body.locals name).2 ∧
      Bound c.outer c.body.locals name := by
  cases found : Body.findLocal name c.body.locals with
  | some place =>
      obtain ⟨slot, var⟩ := place
      have resolved : c.resolve name =
          (.slot slot, if var.depth.isNone then c.report .selfReference else c) := by
        rw [resolve, found]
      have pooled : c.pool.resolve c.body.locals name = (.slot slot, c.pool) := by
        rw [Pool.resolve, found]
      rw [resolved] at quiet ⊢
      rw [pooled]
      cases pending : var.depth with
      | none =>
          rw [pending] at quiet
          -- a variable read inside its own initializer is reported
          exact absurd quiet (not_quiet_report _ _)
      | some depth =>
          have lt := findLocal_lt found
          refine ⟨rfl, fun limit => ?_, .refl c, fun slot' var' same => ?_, fun none => ?_⟩
          · unfold Body.maxLocals at limit
            omega
          · rw [found] at same
            cases same
            rw [pending]
            rfl
          · rw [found] at none
            cases none
  | none =>
      have pooled : c.pool.resolve c.body.locals name =
          (.global (c.pool.addString name).1, (c.pool.addString name).2) := by
        rw [Pool.resolve, found]
      rw [resolve, found] at quiet ⊢
      rw [pooled]
      dsimp only at quiet ⊢
      -- no local of this body: either a body around it has the name, which is reported, or it is a
      -- global
      by_cases captured : c.enclosing.any (·.hasLocal name)
      · rw [if_pos captured] at quiet
        exact absurd (quiet.split (acts_report _ rfl) (acts_nameIndex _ _)).1
          (not_quiet_report _ _)
      · rw [if_neg captured] at quiet ⊢
        obtain ⟨index, small, looked⟩ := emits_nameIndex quiet
        refine ⟨congrArg _ index, index.symm ▸ small, looked, fun _ _ same => ?_,
          fun _ scope mem var inside same => captured ?_⟩
        · rw [found] at same
          cases same
        · obtain ⟨body, around, rfl⟩ := List.mem_map.mp mem
          have has : body.hasLocal name = true :=
            List.any_eq_true.mpr ⟨var, inside, decide_eq_true same⟩
          exact List.any_eq_true.mpr ⟨body, around, has⟩

theorem emits_emitRead (c : Compiler) (target : Target)
    (small : target.Small c.body.locals.length) :
    Emits c (c.emitRead target) [target.read] c.pool := by
  cases target with
  | slot index => exact emits_emitByte c _ index rfl small
  | global index => exact emits_emitIndexed c _ rfl rfl small

theorem emits_emitWrite (c : Compiler) (target : Target)
    (small : target.Small c.body.locals.length) :
    Emits c (c.emitWrite target) [target.write] c.pool := by
  cases target with
  | slot index => exact emits_emitByte c _ index rfl small
  | global index => exact emits_emitIndexed c _ rfl rfl small

/-- The operations of a binary operator. -/
theorem emits_emitBinary (c : Compiler) (op : BinaryOperator) :
    Emits c (c.emitBinary op.kind) op.code c.pool := by
  have once {o : Opcode} (plain : o.operandWidth = 0) := emits_emit c o plain
  have twice {o : Opcode} (plain : o.operandWidth = 0) :
      Emits c ((c.emit o).emit .not) [.plain o, .plain .not] c.pool := by
    have second := (once plain).trans (emits_emit (c.emit o) .not rfl)
    rwa [(once plain).pooled] at second
  cases op with
  | equal | greater | less | add | subtract | multiply | divide => exact once rfl
  | notEqual | greaterEqual | lessEqual => exact twice rfl

end Compiler
end StackScript
