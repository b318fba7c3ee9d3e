import StackScript.Proofs.Machine.Turns
import StackScript.Proofs.Recognition.Parts
import StackScript.Proofs.Shape.Part

/-!
# Compiled code is well formed

The code of a compiled routine is one whole instruction after the other, the last of which
is a return; jumps lead to instructions, and operands that are indices of constants are in
range.  So execution never runs past the end of a routine, nor into an operand.
-/

namespace StackScript

/-! ## Well-formed code -/

namespace Chunk

/-- Where the machine can go on after an instruction of a routine. -/
def Instruction.successors (i : Instruction) : List Nat :=
  match i.opcode with
  | .jump => [i.next + i.operand]
  | .jumpIfFalse => [i.next, i.next + i.operand]
  | .loop => [i.next - i.operand]
  | .return => []
  | _ => [i.next]

/-- The constant that an instruction needs is there. -/
def Instruction.Serves (constants : Array Value) (i : Instruction) : Prop :=
  match i.opcode with
  | .constant | .constantLong => i.operand < constants.size
  | .defineGlobal | .defineGlobalLong | .getGlobal | .getGlobalLong | .setGlobal
  | .setGlobalLong => ∃ text, constants[i.operand]?.bind Value.asText? = some text
  | _ => True

/-- From an offset to its end the code consists of these instructions, each with the offset
at which it begins. -/
def Splits (chunk : Chunk) : (pc : Nat) → List (Nat × Instruction) → Prop
  | pc, [] => pc = chunk.size
  | pc, (start, i) :: rest =>
      start = pc ∧ chunk.decode pc = .ok i ∧ i.next = pc + 1 + i.opcode.operandWidth ∧
        chunk.Splits i.next rest

/-- The code is that of a listing, and nothing leads out of it. -/
structure WellFormed (chunk : Chunk) (listing : List (Nat × Instruction)) : Prop where
  splits : chunk.Splits 0 listing
  ends : ∃ front pc i, listing = front ++ [(pc, i)] ∧ i.opcode = .return
  inside : ∀ pc i, (pc, i) ∈ listing → ∀ target ∈ i.successors,
    target < chunk.size ∧ ∃ j, (target, j) ∈ listing
  /-- No jump leads to before the code. -/
  back : ∀ pc i, (pc, i) ∈ listing → i.opcode = .loop → i.operand ≤ i.next
  serves : ∀ pc i, (pc, i) ∈ listing → i.Serves chunk.constants

theorem Splits.mem {chunk : Chunk} {pc start : Nat} {i : Instruction}
    {listing : List (Nat × Instruction)} (h : chunk.Splits pc listing) (mem : (start, i) ∈ listing) :
    chunk.decode start = .ok i ∧ start < chunk.size := by
  induction listing generalizing pc with
  | nil => cases mem
  | cons entry rest ih =>
      obtain ⟨first, j⟩ := entry
      obtain ⟨rfl, decoded, next, onward⟩ := h
      rcases List.mem_cons.mp mem with same | mem
      · cases same
        refine ⟨decoded, ?_⟩
        -- There is an operation byte.
        unfold decode at decoded
        cases there : chunk.code[start]? with
        | none =>
            rw [there] at decoded
            cases decoded
        | some byte => exact (Array.getElem?_eq_some_iff.mp there).1
      · exact ih onward mem

end Chunk

/-! ## Listings of assembled code -/

/-- The instructions of some code, with their offsets. -/
def listed : (pc : Nat) → List Asm → List (Nat × Chunk.Instruction)
  | _, [] => []
  | pc, a :: code => (pc, ⟨a.opcode, a.operand, pc + a.size⟩) :: listed (pc + a.size) code

theorem listed_append (pc : Nat) (code more : List Asm) :
    listed pc (code ++ more) = listed pc code ++ listed (pc + codeSize code) more := by
  induction code generalizing pc with
  | nil => rfl
  | cons a code ih => simp only [List.cons_append, listed, ih, codeSize_cons, Nat.add_assoc]

theorem splits_listed {chunk : Chunk} {pc : Nat} {code : List Asm} (holds : chunk.Holds pc code)
    (size : chunk.size = pc + codeSize code) : chunk.Splits pc (listed pc code) := by
  induction code generalizing pc with
  | nil => exact size.symm
  | cons a code ih =>
      rw [codeSize_cons, ← Nat.add_assoc] at size
      exact ⟨rfl, holds.1, Nat.add_assoc pc 1 _ |>.symm, ih holds.2 size⟩

/-- Where there is a note there is an instruction. -/
theorem listed_of_noteAt {offset pc : Nat} {code : List Asm} {notes : List Note} {note : Note}
    (there : noteAt offset code notes pc = some note) : ∃ i, (pc, i) ∈ listed offset code := by
  induction code generalizing offset notes with
  | nil => cases there
  | cons a code ih =>
      cases notes with
      | nil => cases there
      | cons first others =>
          rw [noteAt] at there
          by_cases here : pc = offset
          · exact ⟨_, by rw [here]; exact List.mem_cons_self ..⟩
          · rw [if_neg here] at there
            obtain ⟨i, mem⟩ := ih there
            exact ⟨i, List.mem_cons_of_mem _ mem⟩

/-- Every instruction keeps to a note. -/
theorem obeys_of_listed {view : Nat → Option Note} {pool : Pool} {leave again offset pc : Nat}
    {code : List Asm} {notes : List Note} {i : Chunk.Instruction}
    (obeys : Obeys view pool leave again offset (ops code) notes)
    (mem : (pc, i) ∈ listed offset code) :
    ∃ (a : Asm) (note : Note), i = ⟨a.opcode, a.operand, pc + a.size⟩ ∧
      a.Obeys view pool pc note := by
  induction code generalizing offset notes with
  | nil => cases mem
  | cons a code ih =>
      cases notes with
      | nil => exact obeys.elim
      | cons note others =>
          rcases List.mem_cons.mp mem with same | mem
          · cases same
            exact ⟨a, note, rfl, obeys.1⟩
          · exact ih obeys.2 mem

namespace Asm

theorem successors_eq (a : Asm) (pc : Nat) :
    Chunk.Instruction.successors ⟨a.opcode, a.operand, pc + a.size⟩ = a.targets pc := by
  obtain ⟨op, operand⟩ := a
  cases op <;> rfl

/-- An instruction that keeps to its note finds its constant. -/
theorem Obeys.serves {view : Nat → Option Note} {pool : Pool} {note : Note} {a : Asm} {pc next : Nat}
    (h : a.Obeys view pool pc note) :
    Chunk.Instruction.Serves pool.constants ⟨a.opcode, a.operand, next⟩ := by
  have global {op : Opcode} {index : Nat} {name : String} (names : pool.Names index name)
      (access : op = .getGlobal ∨ op = .setGlobal ∨ op = .defineGlobal) :
      Chunk.Instruction.Serves pool.constants
        ⟨(indexed op index).opcode, (indexed op index).operand, next⟩ := by
    obtain ⟨text, there, -⟩ := names
    rcases access with rfl | rfl | rfl <;>
      rcases indexed_eq _ index with same | same <;> rw [same] <;> exact ⟨text, there⟩
  have tells := h.tells
  unfold Note.Tells at tells
  -- an instruction with no mention has its constant from the code; the others name a global
  cases mention : note.mention with
  | none =>
      rw [mention] at tells
      have served := h.served
      obtain ⟨op, operand⟩ := a
      cases op <;> first | trivial | exact served (by simp)
  | some about =>
      rw [mention] at tells
      cases about with
      | read name =>
          obtain ⟨target, means, rfl⟩ := tells
          cases means with
          | slot => trivial
          | global missing names => exact global names (.inl rfl)
      | write name =>
          obtain ⟨target, means, rfl⟩ := tells
          cases means with
          | slot => trivial
          | global missing names => exact global names (.inr (.inl rfl))
      | define name assignable =>
          obtain ⟨⟨index, names, rfl⟩, -⟩ := tells
          exact global names (.inr (.inr rfl))

end Asm

/-! ## The last instruction -/

/-- A statement without code has no code, and one that gives back a value ends with a
return. -/
theorem Statement.cells_of_ending {layout : Layout} (s : Statement) (proper : s.Proper)
    {place : Place} (placed : place.Scoped) (pool : Pool) :
    (s.ending place.depth = .untouched → (s.code layout place pool).cells = []) ∧
      (s.ending place.depth = .sealed →
        ∃ front, (s.code layout place pool).cells = front ++ [.op (.plain .return)]) := by
  induction s generalizing place pool with
  | done => exact ⟨fun _ => rfl, by simp [Statement.ending]⟩
  | next a b first rest =>
      have locals := a.locals_code layout proper.1 pool placed
      have after := placed.knowing a.depth_declared
      rw [← locals] at after
      obtain ⟨none, last⟩ := first proper.1 placed pool
      obtain ⟨none', last'⟩ := rest proper.2 after (a.code layout place pool).pool
      rw [Place.knowing_depth] at none' last'
      have joined : ((a.next b).code layout place pool).cells = (a.code layout place pool).cells ++
        (b.code layout (place.knowing (a.code layout place pool).locals)
          (a.code layout place pool).pool).cells := rfl
      rw [joined, Statement.ending]
      cases ending : b.ending place.depth with
      | untouched =>
          rw [none' ending, List.append_nil]
          exact ⟨none, last⟩
      | «sealed» =>
          refine ⟨by simp [Ending.after], fun _ => ?_⟩
          obtain ⟨front, same⟩ := last' ending
          exact ⟨_ ++ front, by rw [same, List.append_assoc]⟩
      | unsealed => exact ⟨by simp [Ending.after], by simp [Ending.after]⟩
  | block s ih =>
      -- a block that declares nothing pops nothing, so it ends as its body does
      by_cases nothing : s.declared (place.depth + 1) = []
      · have inside : s.Proper := proper
        have kept : deeper (s.code layout place.inner pool).locals place.depth = [] := by
          rw [s.locals_code layout inside pool placed.inner]
          exact (placed.deeper_inner s.depth_declared).trans nothing
        have same : (Statement.code layout (.block s) place pool).cells =
            (s.code layout place.inner pool).cells := by
          simp [Statement.code, kept, pops, ops]
        rw [same, Statement.ending, if_pos nothing]
        exact ih inside placed.inner pool
      · rw [Statement.ending, if_neg nothing]
        exact ⟨by simp, by simp⟩
  | giveBack value =>
      refine ⟨by simp [Statement.ending], fun _ => ?_⟩
      exact ⟨_, ops_append _ [.plain .return]⟩
  | print | expression | declare | choose | loop | leave | again | define =>
      exact ⟨by simp [Statement.ending], by simp [Statement.ending]⟩

namespace Part.Fine

variable {layout : Layout} {p : Part}

/-- The code of a routine ends with a return. -/
theorem code_ends (h : p.Fine layout) : ∃ front, p.code layout = front ++ [.plain .return] := by
  cases ending : p.ending with
  | «sealed» =>
      obtain ⟨front, same⟩ := (p.body.cells_of_ending h.proper h.placed p.pool).2 ending
      refine ⟨draft front, ?_⟩
      rw [Part.code, Part.coded, ending, same, draft_append, Ending.closing, List.append_nil]
      rfl
  | untouched =>
      refine ⟨draft (p.coded layout).cells ++ [.plain .null], ?_⟩
      rw [Part.code, ending, List.append_assoc]
      rfl
  | unsealed =>
      refine ⟨draft (p.coded layout).cells ++ [.plain .null], ?_⟩
      rw [Part.code, ending, List.append_assoc]
      rfl

/-- The code of a routine is well formed. -/
theorem wellFormed (h : p.Fine layout) :
    (p.routine layout).chunk.WellFormed (listed 0 (p.code layout)) := by
  have obeys := h.obeys 0 0
  have splits : (p.routine layout).chunk.Splits 0 (listed 0 (p.code layout)) := by
    refine splits_listed h.holds ?_
    rw [Nat.zero_add]
    exact List.size_toArray
  constructor
  · exact splits
  · obtain ⟨front, same⟩ := h.code_ends
    exact ⟨listed 0 front, _, _, by rw [same, listed_append]; rfl, rfl⟩
  · intro pc i mem target succ
    obtain ⟨a, note, rfl, kept⟩ := obeys_of_listed obeys mem
    rw [a.successors_eq] at succ
    obtain ⟨shape, -, leads⟩ := kept.turns
    obtain ⟨next, there, -⟩ := leads target succ
    obtain ⟨j, listed⟩ := listed_of_noteAt there
    exact ⟨(splits.mem listed).2, j, listed⟩
  · intro pc i mem loop
    obtain ⟨a, note, rfl, kept⟩ := obeys_of_listed obeys mem
    have back := kept.back loop
    obtain ⟨op, operand⟩ := a
    obtain rfl : op = .loop := loop
    exact back
  · intro pc i mem
    obtain ⟨a, note, rfl, kept⟩ := obeys_of_listed obeys mem
    exact kept.serves

end Part.Fine

/-! ## Where the machine goes on -/

namespace Machine

/-- Execution goes on at one of these offsets, if it goes on. -/
def Turn.GoesTo (targets : List Nat) : Turn → Prop
  | on pc _ _ => pc ∈ targets
  | stop .. => True

theorem goesTo_push {targets : List Nat} {limit next : Nat} {v : Value} {stack : List Value}
    {world : World} (mem : next ∈ targets) :
    (Turn.push limit next v stack world).GoesTo targets := by
  unfold Turn.push
  split
  · trivial
  · exact mem

theorem goesTo_replaceTwo {targets : List Nat} {limit next : Nat}
    {compute : Value → Value → Option Value} {fault : Fault} {stack : List Value} {world : World}
    (mem : next ∈ targets) :
    (replaceTwo limit next compute fault world stack).GoesTo targets := by
  unfold replaceTwo
  split
  · split
    · trivial
    · exact goesTo_push mem
  · trivial

theorem goesTo_sumTwo {targets : List Nat} {limit next : Nat} {stack : List Value} {world : World}
    (mem : next ∈ targets) : (sumTwo limit next world stack).GoesTo targets := by
  unfold sumTwo
  split
  · split
    · trivial
    · exact goesTo_push mem
    · exact goesTo_push mem
  · trivial

/-- An instruction goes on at one of its successors. -/
theorem goesTo_turn (limit : Nat) (chunk : Chunk) (base next operand : Nat) {op : Opcode}
    (stack : List Value) (world : World) (notReturn : op ≠ .return) :
    (turn limit chunk base next operand op stack world).GoesTo
      (Chunk.Instruction.successors ⟨op, operand, next⟩) := by
  have here : next ∈ [next] := List.mem_singleton_self next
  cases op with
  | «return» => exact absurd rfl notReturn
  | greater | less | subtract | multiply | divide => exact goesTo_replaceTwo here
  | add => exact goesTo_sumTwo here
  | null | true | false => exact goesTo_push here
  | jump => exact List.mem_singleton_self _
  | call => exact here
  | jumpIfFalse =>
      dsimp only [turn]
      split
      · trivial
      · rename_i v rest
        dsimp only [Turn.GoesTo, Chunk.Instruction.successors]
        cases v.isFalsey with
        | true => exact .tail _ (.head _)
        | false => exact .head _
  | loop =>
      dsimp only [turn]
      split
      · trivial
      · exact List.mem_singleton_self _
  | _ =>
      -- The others go on behind themselves.
      dsimp only [turn]
      repeat' split
      all_goals first | trivial | exact goesTo_push here

section

variable {frame next : Frame} {m m' : Machine} {i : Chunk.Instruction}

/-- A call that is not of a routine is over behind its instruction. -/
theorem call_stays {count : Nat}
    (other : ∀ r, m.stack[m.stack.size - (count + 1)]?.map Value.datum ≠ some (.routine r))
    (ran : call frame count m = .ok (.running next) m') : next = frame := by
  by_cases short : m.stack.size < count + 1
  · have failed : call frame count m = .error .stackUnderflow m := by
      simp only [call, bind, EStateM.bind, calleeIndex, if_pos short]
    rw [failed] at ran
    cases ran
  obtain ⟨v, there⟩ : ∃ v, m.stack[m.stack.size - (count + 1)]? = some v :=
    ⟨_, Array.getElem?_eq_getElem (by omega)⟩
  rw [call_eq m frame there short] at ran
  rw [there, Option.map_some] at other
  cases kind : v.datum with
  | routine r => exact absurd (congrArg some kind) (other r)
  | native n =>
      rw [kind] at ran
      simp only [calling, bind, EStateM.bind, truncate] at ran
      split at ran
      · split at ran
        · cases ran
          rfl
        · cases ran
      · cases ran
  | null | bool | number | string =>
      rw [kind] at ran
      cases ran

/-- A call that goes on, goes on at a successor of the instruction executed. -/
theorem successor_of_stays (code : frame.routine.chunk.decode frame.ip = .ok i)
    (ran : step frame m = .ok (.running next) m') (stays : m.event frame = .stays) :
    next.ip ∈ i.successors := by
  obtain ⟨op, operand, behind⟩ := i
  rw [step_ok code] at ran
  unfold event at stays
  rw [code] at stays
  by_cases isCall : op = .call
  · subst isCall
    refine (call_stays (fun r found => ?_) ran) ▸ List.mem_singleton_self _
    simp only [found] at stays
    cases stays
  by_cases isReturn : op = .return
  · subst isReturn
    cases stays
  rw [← m.assembled_parts, executeInstruction_eq isCall isReturn] at ran
  dsimp only [Frame.atNext] at ran
  have goes := goesTo_turn m.host.config.maxStack frame.routine.chunk frame.base behind operand
    m.operands m.world isReturn
  generalize turn m.host.config.maxStack frame.routine.chunk frame.base behind operand op
    m.operands m.world = result at ran goes
  cases result with
  | on pc stack world =>
      cases ran
      exact goes
  | stop fault stack world => cases ran

/-- A call that is suspended goes on behind its instruction. -/
theorem suspended_of_enters {r : Routine} (code : frame.routine.chunk.decode frame.ip = .ok i)
    (ran : step frame m = .ok (.running next) m') (enters : m.event frame = .enters r) :
    m'.callers = m.callers.push { frame.atNext with ip := i.next } ∧ i.next ∈ i.successors := by
  obtain ⟨op, operand, behind⟩ := i
  rw [step_ok code] at ran
  unfold event at enters
  rw [code] at enters
  by_cases isCall : op = .call
  · subst isCall
    refine ⟨?_, List.mem_singleton_self _⟩
    by_cases short : m.stack.size < operand + 1
    · have failed : executeInstruction { frame.atNext with ip := behind } .call operand m =
          .error .stackUnderflow m := by
        simp only [executeInstruction, call, bind, EStateM.bind, calleeIndex, if_pos short]
      rw [failed] at ran
      cases ran
    cases there : m.stack[m.stack.size - (operand + 1)]? with
    | none =>
        simp only [there, Option.map_none] at enters
        cases enters
    | some v =>
        simp only [there, Option.map_some] at enters
        rw [show executeInstruction { frame.atNext with ip := behind } .call operand m = _ from
          call_eq m _ there short] at ran
        cases kind : v.datum with
        | routine q =>
            rw [kind] at ran
            simp only [calling, enterRoutine] at ran
            split at ran
            · cases ran
            · split at ran
              · cases ran
              · cases ran
                rfl
        | native | null | bool | number | string =>
            rw [kind] at enters
            cases enters
  -- only calls enter anything
  · cases op <;> first | exact absurd rfl isCall | cases enters

end

/-- In a call of a routine execution is always at an instruction of the listing: where it
begins, where it goes on, and where it waits for another call. -/
structure Confines (r : Routine) (listing : List (Nat × Chunk.Instruction)) : Prop where
  begins : ∃ i, (0, i) ∈ listing
  goesOn : ∀ {frame next : Frame} {m m' : Machine}, frame.routine = r →
    (∃ i, (frame.ip, i) ∈ listing) → step frame m = .ok (.running next) m' →
      m.event frame = .stays → ∃ i, (next.ip, i) ∈ listing
  waits : ∀ {frame next : Frame} {m m' : Machine} {q : Routine}, frame.routine = r →
    (∃ i, (frame.ip, i) ∈ listing) → step frame m = .ok (.running next) m' →
      m.event frame = .enters q → ∃ caller, m'.callers = m.callers.push caller ∧
        caller.routine = r ∧ ∃ i, (caller.ip, i) ∈ listing

/-- Nothing leads out of well-formed code. -/
theorem confines_of_wellFormed {r : Routine} {listing : List (Nat × Chunk.Instruction)}
    (h : r.chunk.WellFormed listing) : Confines r listing where
  begins := by
    obtain ⟨front, pc, i, same, -⟩ := h.ends
    have splits := h.splits
    cases listing with
    | nil => simp at same
    | cons entry rest =>
        obtain ⟨start, j⟩ := entry
        obtain rfl : start = 0 := splits.1
        exact ⟨j, List.mem_cons_self ..⟩
  goesOn := by
    rintro frame next m m' rfl ⟨i, mem⟩ ran stays
    exact (h.inside _ i mem _ (successor_of_stays (h.splits.mem mem).1 ran stays)).2
  waits := by
    rintro frame next m m' q rfl ⟨i, mem⟩ ran enters
    obtain ⟨suspended, succ⟩ := suspended_of_enters (h.splits.mem mem).1 ran enters
    exact ⟨_, suspended, rfl, (h.inside _ i mem _ succ).2⟩

end Machine

namespace Compiler

/-- Every routine that comes with an accepted source is well formed, whether or not it is
ever called, and execution does not leave it but by returning. -/
theorem code_wellFormed {source : String} {heap : Heap} {script r : Routine}
    (ok : (compile source heap).result = .ok script) (within : script.Within r) :
    ∃ listing, r.chunk.WellFormed listing ∧ Machine.Confines r listing := by
  obtain ⟨layout, p, fine, rfl⟩ := part_of_ok ok within
  exact ⟨_, fine.wellFormed, Machine.confines_of_wellFormed fine.wellFormed⟩

/-- A function that is never called is well formed as well. -/
theorem code_wellFormed_sample :
    ∃ script r, (compile "fn f(x) { while (x) { return; } }" .empty).result = .ok script ∧
      script.Within r ∧ r.name.isSome ∧
        ∃ listing, r.chunk.WellFormed listing ∧ Machine.Confines r listing := by
  have found : ((compile "fn f(x) { while (x) { return; } }" .empty).result.toOption.any fun script =>
      script.chunk.constants.any fun v => v.asRoutine?.any fun r => r.name.isSome) = true := by
    decide +kernel
  cases ok : (compile "fn f(x) { while (x) { return; } }" .empty).result with
  | error errors =>
      rw [ok] at found
      cases found
  | ok script =>
      rw [ok] at found
      obtain ⟨v, mem, named⟩ := Array.any_eq_true'.mp found
      unfold Value.asRoutine? at named
      split at named
      · rename_i r same
        have within : script.Within r := .constant .self mem same
        exact ⟨script, r, rfl, within, named, code_wellFormed ok within⟩
      · cases named

end Compiler

end StackScript
