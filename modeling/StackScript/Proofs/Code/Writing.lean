import StackScript.Proofs.Code.Cells

/-!
# Writing cells

`Writes c c' cells locals pool` says that between two states exactly the given cells
were written, that their open jumps went into the record of the innermost loop, and
which locals and constants there are afterwards.  The main fact is
`writes_endLoop`: closing a loop resolves its cells.
-/

namespace StackScript
namespace Compiler

/-- Between two states exactly the given cells were written. -/
structure Writes (c c' : Compiler) (cells : List Cell) (locals : List LocalVariable)
    (pool : Pool) : Prop where
  written : c'.body.chunk.code.toList = c.body.chunk.code.toList ++ assemble (draft cells)
  pooled : c'.pool = pool
  signature : c'.body.name = c.body.name ∧ c'.body.arity = c.body.arity
  locals : c'.body.locals = locals
  depth : c'.body.depth = c.body.depth
  loops : c'.body.loops = record c.here cells c.body.loops
  enclosing : c'.enclosing = c.enclosing
  fits : c.body.locals.length ≤ Body.maxLocals → ∀ a ∈ draft cells, a.Fits
  /-- No more locals than a routine may have. -/
  small : c.body.locals.length ≤ Body.maxLocals → c'.body.locals.length ≤ Body.maxLocals

theorem Emits.writes {c c' : Compiler} {code : List Asm} {pool : Pool}
    (h : Emits c c' code pool) : Writes c c' (ops code) c.body.locals pool where
  written := by rw [h.written, draft_ops]
  pooled := h.pooled
  signature := h.signature
  locals := h.locals
  depth := h.depth
  loops := by rw [h.loops, record_ops]
  enclosing := h.enclosing
  fits := by rw [draft_ops]; exact h.fits
  small := by rw [h.locals]; exact id

namespace Writes

variable {a b c c' : Compiler} {cells more : List Cell} {locals locals' : List LocalVariable}
  {p q : Pool}

theorem here (h : Writes c c' cells locals p) : c'.here = c.here + cellsSize cells := by
  have := congrArg List.length h.written
  simpa [Compiler.here, Chunk.size, cellsSize, codeSize] using this

theorem trans (hab : Writes a b cells locals p) (hbc : Writes b c more locals' q) :
    Writes a c (cells ++ more) locals' q where
  written := by
    rw [hbc.written, hab.written, draft_append, assemble_append, List.append_assoc]
  pooled := hbc.pooled
  signature := ⟨hbc.signature.1.trans hab.signature.1, hbc.signature.2.trans hab.signature.2⟩
  locals := hbc.locals
  depth := hbc.depth.trans hab.depth
  loops := by rw [hbc.loops, hab.loops, hab.here, record_append]
  enclosing := hbc.enclosing.trans hab.enclosing
  fits := by
    intro small x hx
    rw [draft_append] at hx
    rcases List.mem_append.mp hx with hx | hx
    · exact hab.fits small x hx
    · exact hbc.fits (hab.small small) x hx
  small := fun small => hbc.small (hab.small small)

/-- Cells written before instructions. -/
theorem emits {code : List Asm} (hab : Writes a b cells locals p) (hbc : Emits b c code q) :
    Writes a c (cells ++ ops code) locals q := by
  have whole := hab.trans hbc.writes
  rwa [hab.locals] at whole

/-- Cells written after a step that only read or looked up. -/
theorem after (hab : Emits a b [] p) (hbc : Writes b c cells locals q) :
    Writes a c cells locals q := by
  simpa [ops] using hab.writes.trans hbc

/-- A patched jump leads to the end of the cells written since. -/
theorem patch {front rest : List Cell} {op : Opcode} {old site : Nat}
    (jump : op.operandWidth = 2) (h : Writes a b (front ++ .op ⟨op, old⟩ :: rest) locals p)
    (hsite : site = a.here + cellsSize front + 1) (quiet : Quiet b (b.patchJump site)) :
    Writes a (b.patchJump site) (front ++ .op ⟨op, cellsSize rest⟩ :: rest) locals p := by
  have spelled := h.written
  simp only [draft_append, draft_cons, Cell.draft] at spelled
  obtain ⟨near, chunk, same, spelled', constants⟩ := patchJump_spelled jump spelled hsite quiet
  have loops : record a.here (front ++ .op ⟨op, cellsSize rest⟩ :: rest) a.body.loops =
      record a.here (front ++ .op ⟨op, old⟩ :: rest) a.body.loops := by
    cases a.body.loops with
    | nil => rfl
    | cons loop outer => simp [record, sites_append, sites, Cell.isLeave, Cell.isAgain, Cell.size,
        Cell.draft, Asm.size]
  rw [same]
  refine ⟨?_, ?_, h.signature, h.locals, h.depth, ?_, h.enclosing, ?_, h.small⟩
  · simpa only [draft_append, draft_cons, Cell.draft, cellsSize] using spelled'
  · rw [← h.pooled]
    show (⟨b.heap, chunk.constants⟩ : Pool) = _
    rw [constants]
    rfl
  · rw [loops]
    exact h.loops
  · intro small x hx
    have fits := h.fits small
    simp only [draft_append, draft_cons, Cell.draft, List.mem_append, List.mem_cons] at hx fits
    rcases hx with hx | rfl | hx
    · exact fits x (.inl hx)
    · exact fits_jump jump near
    · exact fits x (.inr (.inr hx))

end Writes

/-! ## Closing loops -/

section Closing

variable {patch : Compiler → Nat → Compiler} {isOpen : Cell → Bool} {jump : Nat → Asm}
  {before : List UInt8} {total : Nat}

/-- A patch turns the open jump at its site into the instruction that belongs there,
and touches nothing but bytes. -/
def Closes (patch : Compiler → Nat → Compiler) (isOpen : Cell → Bool) (jump : Nat → Asm)
    (before : List UInt8) (total : Nat) : Prop :=
  ∀ ⦃b : Compiler⦄ ⦃front rest : List Asm⦄ ⦃cell : Cell⦄, isOpen cell →
    b.body.chunk.code.toList = before ++ assemble (front ++ cell.draft :: rest) →
    before.length + codeSize (front ++ cell.draft :: rest) = total →
    Quiet b (patch b (before.length + codeSize front + 1)) →
    (jump (before.length + codeSize front)).Fits ∧ ∃ (chunk : Chunk) (landing : Option Nat),
      patch b (before.length + codeSize front + 1) =
        { b with body := { b.body with chunk, landing } } ∧
      chunk.code.toList =
        before ++ assemble (front ++ jump (before.length + codeSize front) :: rest) ∧
      chunk.constants = b.body.chunk.constants

/-- Patching all sites closes all jumps. -/
theorem close_spelled (closes : Closes patch isOpen jump before total)
    (hacts : ∀ b site, Acts true b (patch b site))
    (same : ∀ cell offset, isOpen cell → (jump offset).size = cell.size)
    (cells : List Cell) (front : List Asm) (b : Compiler)
    (spelled : b.body.chunk.code.toList = before ++ assemble (front ++ draft cells))
    (size : before.length + codeSize (front ++ draft cells) = total)
    (quiet : Quiet b ((sites isOpen (before.length + codeSize front) cells).foldl patch b)) :
    (∀ a ∈ draft (close isOpen jump (before.length + codeSize front) cells),
      a ∈ draft cells ∨ a.Fits) ∧
    ∃ (chunk : Chunk) (landing : Option Nat),
      (sites isOpen (before.length + codeSize front) cells).foldl patch b =
        { b with body := { b.body with chunk, landing } } ∧
      chunk.code.toList = before ++
        assemble (front ++ draft (close isOpen jump (before.length + codeSize front) cells)) ∧
      chunk.constants = b.body.chunk.constants := by
  induction cells generalizing front b with
  | nil => exact ⟨by simp [close, draft], b.body.chunk, b.body.landing, rfl, spelled, rfl⟩
  | cons cell cells ih =>
      rw [draft_cons] at spelled size
      -- an open cell is patched now and the rest after it; any other cell moves to the front part
      by_cases h : isOpen cell
      · simp only [sites, h, if_true, List.foldl_cons] at quiet
        obtain ⟨first, others⟩ := quiet.split (hacts _ _) (acts_foldl hacts _ _)
        obtain ⟨fits, chunk, landing, patched, spelled', constants⟩ := closes h spelled size first
        have width : (jump (before.length + codeSize front)).size = cell.draft.size :=
          same cell _ h
        have further : before.length + codeSize front + cell.size =
            before.length + codeSize (front ++ [jump (before.length + codeSize front)]) := by
          rw [codeSize_append, codeSize_singleton, width]
          exact Nat.add_assoc _ _ _
        simp only [close, sites, h, if_true, List.foldl_cons, patched, draft_cons, Cell.draft]
        rw [patched, further] at others
        obtain ⟨fits', chunk', landing', patched', spelled'', constants'⟩ :=
          ih (front ++ [jump (before.length + codeSize front)]) _ (by simpa using spelled') (by
            simp only [codeSize_append, codeSize_cons, codeSize_nil, width] at size ⊢
            omega) others
        rw [further]
        refine ⟨fun a mem => ?_, chunk', landing', ?_, ?_, constants'.trans constants⟩
        · rcases List.mem_cons.mp mem with rfl | mem
          · exact .inr fits
          · rcases fits' a mem with old | fits
            · exact .inl (List.mem_cons_of_mem _ old)
            · exact .inr fits
        · rw [patched']
        · simpa using spelled''
      · simp only [close, sites, h, Bool.false_eq_true, if_false, draft_cons] at quiet ⊢
        have further : before.length + codeSize front + cell.size =
            before.length + codeSize (front ++ [cell.draft]) := by
          rw [codeSize_append, codeSize_singleton]
          exact Nat.add_assoc _ _ _
        rw [further] at quiet ⊢
        obtain ⟨fits, chunk, landing, patched, spelled', constants⟩ :=
          ih (front ++ [cell.draft]) b (by simpa using spelled) (by simpa using size) quiet
        refine ⟨fun a mem => ?_, chunk, landing, patched, by simpa using spelled', constants⟩
        rcases List.mem_cons.mp mem with rfl | mem
        · exact .inl (List.mem_cons_self ..)
        · rcases fits a mem with old | fits
          · exact .inl (List.mem_cons_of_mem _ old)
          · exact .inr fits

/-- The jumps of `break` are patched to lead to the end. -/
theorem closes_leave (before : List UInt8) (total : Nat) :
    Closes patchJump Cell.isLeave (jumpTo total) before total := by
  intro b front rest cell leave spelled size quiet
  obtain rfl : cell = .leave := by
    cases cell with
    | leave => rfl
    | op | again => cases leave
  obtain ⟨near, chunk, patched, spelled', constants⟩ := patchJump_spelled rfl spelled rfl quiet
  have distance : total - (before.length + codeSize front + 3) = codeSize rest := by
    rw [← size, codeSize_append, codeSize_cons]
    simp only [Cell.draft, Asm.size, Opcode.operandWidth]
    omega
  unfold jumpTo
  rw [distance]
  exact ⟨fits_jump rfl near, chunk, _, patched, spelled', constants⟩

/-- The jumps of `continue` are patched to lead to the next iteration. -/
theorem closes_again (start : Nat) (before : List UInt8) (total : Nat) :
    Closes (fun c site => c.patchLoop site start) Cell.isAgain (loopTo start) before total := by
  intro b front rest cell again spelled size quiet
  obtain rfl : cell = .again := by
    cases cell with
    | again => rfl
    | op | leave => cases again
  obtain ⟨near, chunk, patched, spelled', constants⟩ := patchLoop_spelled rfl spelled rfl quiet
  exact ⟨fits_jump rfl near, chunk, b.body.landing, patched, spelled', constants⟩

end Closing

/-- Instructions are the same whether or not a loop has been opened around them. -/
theorem Writes.beginLoop {c c' : Compiler} {code : List Asm} {locals : List LocalVariable}
    {p : Pool} (h : Writes c c' (ops code) locals p) (start : Nat) :
    Writes (c.beginLoop start) (c'.beginLoop start) (ops code) locals p := by
  refine ⟨h.written, h.pooled, h.signature, h.locals, h.depth, ?_, h.enclosing, h.fits, h.small⟩
  have loops := h.loops
  rw [record_ops] at loops ⊢
  show (⟨start, c'.body.depth, [], []⟩ : LoopRecord) :: c'.body.loops =
    ⟨start, c.body.depth, [], []⟩ :: c.body.loops
  rw [loops, h.depth]

/-- Closing a loop resolves its cells. -/
theorem Writes.endLoop {c c' : Compiler} {start : Nat} {cells : List Cell}
    {locals : List LocalVariable} {p : Pool} (h : Writes (c.beginLoop start) c' cells locals p)
    (quiet : Quiet c' c'.endLoop) :
    Writes c c'.endLoop (resolveJumps (c.here + cellsSize cells) start c.here cells) locals p := by
  let before := c.body.chunk.code.toList
  let total := c.here + cellsSize cells
  let loop : LoopRecord := ⟨start, c.body.depth, (sites Cell.isLeave c.here cells).reverse,
    (sites Cell.isAgain c.here cells).reverse⟩
  have loops : c'.body.loops = loop :: c.body.loops := by
    rw [h.loops]
    simp only [Compiler.beginLoop, mapBody, record, List.append_nil]
    rfl
  let opened := c'.mapBody fun body => { body with loops := c.body.loops }
  have same : c'.endLoop = (sites Cell.isLeave c.here cells).foldl patchJump
      ((sites Cell.isAgain c.here cells).foldl (fun c site => c.patchLoop site start) opened) := by
    unfold Compiler.endLoop
    rw [loops]
    simp only [loop, List.reverse_reverse]
    rfl
  rw [same] at quiet ⊢
  have calm : Quiet opened _ := quiet
  obtain ⟨first, second⟩ := calm.split
    (acts_foldl (fun c site => acts_patchLoop c site start) _ _)
    (acts_foldl acts_patchJump _ _)
  -- first the jumps of `continue`
  obtain ⟨fits, chunk, landing, patched, spelled, constants⟩ := close_spelled
    (closes_again start before total) (fun b site => acts_patchLoop b site start)
    (size_of_isAgain start) cells [] opened h.written rfl first
  simp only [codeSize_nil, Nat.add_zero, List.nil_append] at fits patched spelled
  have here : before.length = c.here := rfl
  rw [here] at fits patched spelled
  rw [patched] at second ⊢
  -- then, at the same places as before, those of `break`
  have places : sites Cell.isLeave c.here cells =
      sites Cell.isLeave c.here (close Cell.isAgain (loopTo start) c.here cells) := by
    refine (sites_close (fun cell => ?_) (fun _ => rfl) (size_of_isAgain start) _ _).symm
    cases cell <;> simp [Cell.isAgain, Cell.isLeave]
  have width : cellsSize (close Cell.isAgain (loopTo start) c.here cells) = cellsSize cells :=
    cellsSize_close (size_of_isAgain start) _ _
  rw [places] at second ⊢
  obtain ⟨fits', chunk', landing', patched', spelled', constants'⟩ := close_spelled
    (closes_leave before total) acts_patchJump (size_of_isLeave total)
    (close Cell.isAgain (loopTo start) c.here cells) [] _ spelled (by
      simp only [List.nil_append]
      show c.here + cellsSize _ = total
      rw [width]) second
  simp only [codeSize_nil, Nat.add_zero, List.nil_append, here] at fits' patched' spelled'
  rw [patched']
  refine ⟨spelled', ?_, h.signature, h.locals, h.depth, ?_, h.enclosing, ?_, h.small⟩
  · rw [← h.pooled]
    show (⟨c'.heap, chunk'.constants⟩ : Pool) = _
    rw [constants', constants]
    rfl
  · rw [← resolveJumps_closed, record_ops]
    rfl
  · intro small a mem
    rcases fits' a mem with mem | fits'
    · rcases fits a mem with mem | fits
      · exact h.fits small a mem
      · exact fits
    · exact fits'

end Compiler
end StackScript
