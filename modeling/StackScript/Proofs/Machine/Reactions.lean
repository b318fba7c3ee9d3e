import StackScript.Proofs.Machine.Turns
import StackScript.Proofs.Shape.Flow

/-!
# What annotated code does

Code that keeps to its notes finds on the stack what it needs.  `Effect` lists what an
instruction can do to the values of the running call and to the world, and `Reacts` adds
how it can fail; `obeys_turn` shows that there is nothing else.
-/

namespace StackScript

/-- Faults that a program can be blamed for, or the host; the others are defects of code. -/
def Fault.ofLanguage : Fault → Bool
  | stackUnderflow | invalidConstant _ | unknownOpcode _ | malformed _ => false
  | _ => true

/-- A result of an operator: a number, a truth value, a string or null, in an ordinary
binding. -/
inductive Value.Computed : Value → Prop where
  | null : Computed .null
  | bool (b : Bool) : Computed (.bool b)
  | number (x : Float) : Computed (.number x)
  | string (text : Text) : Computed (.string text)

/-- The fault of assigning to a constant. -/
def Fault.refuses : Fault → Bool
  | assignToConstant _ => true
  | _ => false

namespace Machine

/-- What an instruction with a given note can do, in terms of the values of the running
call, the top first, and of the world; the first list is what stands on the stack behind
it. -/
inductive Effect (op : Opcode) (pool : Pool) (note : Note) :
    List Slot → List Value → World → List Value → World → Prop where
  | stays (vs : List Value) (world : World) (silent : note.mention = none) :
      Effect op pool note note.shape vs world vs world
  | drops {x : Slot} {shape : List Slot} (v : Value) (vs : List Value) (world : World) (sink : Sink)
      (silent : note.mention = none) (top : note.shape = x :: shape) :
      Effect op pool note shape (v :: vs) world vs { world with sink }
  | computes {shape : List Slot} {v : Value} (taken vs : List Value) (world : World) (heap : Heap)
      (silent : note.mention = none)
      (top : note.shape = List.replicate taken.length .temporary ++ shape)
      (computed : v.Computed) :
      Effect op pool note (.temporary :: shape) (taken ++ vs) world (v :: vs) { world with heap }
  | loads {v : Value} (vs : List Value) (world : World) (silent : note.mention = none)
      (constant : v ∈ pool.constants) :
      Effect op pool note (.temporary :: note.shape) vs world (v :: vs) world
  | readsLocal {name : String} {k : Nat} {b : Binding} {v : Value} (vs : List Value)
      (world : World) (mention : note.mention = some (.read name))
      (found : innermost name note.scope = some (k, b)) (there : slotOf vs k = some v) :
      Effect op pool note (.temporary :: note.shape) vs world (v.copy :: vs) world
  | readsGlobal {name : String} {text : Text} {v : Value} (vs : List Value) (world : World)
      (mention : note.mention = some (.read name)) (missing : innermost name note.scope = none)
      (same : pool.heap.Valid → text.chars = name)
      (defined : world.globals[text.chars]?.map Global.value = some v) :
      Effect op pool note (.temporary :: note.shape) vs world (v.copy :: vs) world
  | writesLocal {name : String} {k : Nat} {b : Binding} {old : Value} {shape : List Slot} (v : Value)
      (vs : List Value) (world : World) (mention : note.mention = some (.write name))
      (found : innermost name note.scope = some (k, b)) (top : note.shape = .temporary :: shape)
      (there : slotOf (v :: vs) k = some old) (assignable : old.assignable = true) :
      Effect op pool note note.shape (v :: vs) world (withSlot (v :: vs) k v) world
  | writesGlobal {name : String} {text : Text} {old : Value} {shape : List Slot} (v : Value)
      (vs : List Value) (world : World) (mention : note.mention = some (.write name))
      (missing : innermost name note.scope = none) (top : note.shape = .temporary :: shape)
      (same : pool.heap.Valid → text.chars = name)
      (defined : world.globals[text.chars]?.map Global.value = some old)
      (assignable : old.assignable = true) :
      Effect op pool note note.shape (v :: vs) world (v :: vs)
        { world with globals := world.globals.insert text.chars ⟨text, v⟩ }
  | defines {name : String} {assignable : Bool} {text : Text} {shape : List Slot} (v : Value)
      (vs : List Value) (world : World) (mention : note.mention = some (.define name assignable))
      (top : note.shape = (if assignable then .temporary else .sealed) :: shape)
      (same : pool.heap.Valid → text.chars = name) :
      Effect op pool note shape (v :: vs) world vs
        { world with globals := world.globals.insert text.chars ⟨text, v⟩ }
  | seals {shape : List Slot} (v : Value) (vs : List Value) (world : World) (marks : op = .makeConst)
      (silent : note.mention = none) (top : note.shape = .temporary :: shape) :
      Effect op pool note (.sealed :: shape) (v :: vs) world (v.constant :: vs) world

/-- If the instruction assigns to a variable, there is no such variable. -/
def Unknown (pool : Pool) (note : Note) (world : World) : Prop :=
  ∀ name, note.mention = some (.write name) → innermost name note.scope = none ∧
    ∃ chars, (pool.heap.Valid → chars = name) ∧ world.globals[chars]? = none

/-- What comes of an instruction of annotated code, for a stack on which the values of the
running call stand above others. -/
inductive Reacts (op : Opcode) (view : Nat → Option Note) (pool : Pool) (note : Note) (vs below : List Value)
    (world : World) : Turn → Prop where
  | on {pc : Nat} {shape : List Slot} {vs' : List Value} {world' : World}
      (leads : Leads view pc shape) (effect : Effect op pool note shape vs world vs' world') :
      Reacts op view pool note vs below world (.on pc (vs' ++ below) world')
  | fails {fault : Fault} {stack : List Value} {world' : World} (language : fault.ofLanguage = true)
      (other : fault.refuses = false) (unknown : Unknown pool note world) :
      Reacts op view pool note vs below world (.stop fault stack world')
  | refusesLocal {name : String} {k : Nat} {b : Binding} {old : Value}
      (mention : note.mention = some (.write name))
      (found : innermost name note.scope = some (k, b)) (there : slotOf vs k = some old)
      (constant : old.assignable = false) :
      Reacts op view pool note vs below world (.stop (.assignToConstant none) (vs ++ below) world)
  | refusesGlobal {name : String} {text : Text} {old : Value}
      (mention : note.mention = some (.write name)) (missing : innermost name note.scope = none)
      (same : pool.heap.Valid → text.chars = name)
      (defined : world.globals[text.chars]?.map Global.value = some old)
      (constant : old.assignable = false) :
      Reacts op view pool note vs below world
        (.stop (.assignToConstant (some text.chars)) (vs ++ below) world)

section

variable {op : Opcode} {view : Nat → Option Note} {pool : Pool} {note : Note} {shape : List Slot}
  {vs vs' below : List Value} {world world' : World}

theorem Unknown.of_silent (silent : note.mention = none) : Unknown pool note world := by
  intro name same
  rw [silent] at same
  cases same

theorem Unknown.of_read {name : String} (mention : note.mention = some (.read name)) :
    Unknown pool note world := by
  intro other same
  rw [mention] at same
  cases same

theorem length_withSlot (stack : List Value) (index : Nat) (v : Value) :
    (withSlot stack index v).length = stack.length := by simp [withSlot]

/-- There is a value for each slot again. -/
theorem Effect.length (h : Effect op pool note shape vs world vs' world')
    (length : vs.length = note.shape.length) : vs'.length = shape.length := by
  cases h with
  | stays => exact length
  | drops _ _ _ _ _ top | defines _ _ _ _ top =>
      rw [top] at length
      exact Nat.succ.inj length
  | computes taken rest _ _ _ top =>
      rw [top, List.length_append, List.length_append, List.length_replicate] at length
      simp only [List.length_cons]
      omega
  | loads | readsLocal | readsGlobal =>
      simp only [List.length_cons]
      omega
  | writesLocal => rw [length_withSlot, length]
  | writesGlobal => exact length
  | seals _ _ _ _ _ top =>
      rw [top] at length
      exact length

/-- A slot of the running call, counted from its base. -/
theorem slotOf_append (vs below : List Value) (k : Nat) :
    slotOf (vs ++ below) (below.length + k) = slotOf vs k := by
  simp [slotOf, List.getElem?_append]

theorem withSlot_append (vs below : List Value) (k : Nat) (v : Value) :
    withSlot (vs ++ below) (below.length + k) v = withSlot vs k v ++ below := by
  simp [withSlot]

theorem exists_slotOf {stack : List Value} {k : Nat} (h : k < stack.length) :
    ∃ v, slotOf stack k = some v :=
  ⟨_, List.getElem?_eq_getElem (by simpa using h)⟩

/-! ## Single instructions -/

section

variable {limit next base : Nat} {chunk : Chunk}

/-- A value is put on top, if there is room. -/
theorem reacts_push {v : Value} {rest : List Value} (unknown : Unknown pool note world)
    (leads : Leads view next shape)
    (effect : Effect op pool note shape vs world (v :: rest) world') :
    Reacts op view pool note vs below world (.push limit next v (rest ++ below) world') := by
  unfold Turn.push
  split
  · exact .fails rfl rfl unknown
  · exact .on leads effect

theorem computed_onNumbers {operator : Float → Float → Datum}
    (computes : ∀ x y, (Value.of (operator x y)).Computed) {a b v : Value}
    (h : onNumbers operator a b = some v) : v.Computed := by
  unfold onNumbers at h
  split at h
  · cases h
    exact computes _ _
  · cases h

theorem reacts_replaceTwo {operator : Float → Float → Datum} {a b : Value} {rest : List Value}
    (computes : ∀ x y, (Value.of (operator x y)).Computed) (silent : note.mention = none)
    (top : note.shape = .temporary :: .temporary :: shape)
    (leads : Leads view next (.temporary :: shape)) :
    Reacts op view pool note (b :: a :: rest) below world
      (replaceTwo limit next (onNumbers operator) .operandsMustBeNumbers world
        (b :: a :: (rest ++ below))) := by
  simp only [replaceTwo]
  cases found : onNumbers operator a b with
  | none => exact .fails rfl rfl (.of_silent silent)
  | some v =>
      exact reacts_push (.of_silent silent) leads (.computes [b, a] rest world world.heap silent top
        (computed_onNumbers computes found))

theorem reacts_sumTwo {a b : Value} {rest : List Value} (silent : note.mention = none)
    (top : note.shape = .temporary :: .temporary :: shape)
    (leads : Leads view next (.temporary :: shape)) :
    Reacts op view pool note (b :: a :: rest) below world
      (sumTwo limit next world (b :: a :: (rest ++ below))) := by
  simp only [sumTwo]
  cases sum a.datum b.datum with
  | none => exact .fails rfl rfl (.of_silent silent)
  | some sum =>
      have unknown : Unknown pool note world := .of_silent silent
      cases sum with
      | inl x =>
          exact reacts_push unknown leads
            (.computes [b, a] rest world world.heap silent top (.number x))
      | inr chars =>
          exact reacts_push unknown leads (.computes [b, a] rest world _ silent top (.string _))

end

/-! ## What an instruction finds -/

/-- Values stand for each of the slots that an instruction takes. -/
theorem split_taken {count : Nat} {rest : List Slot}
    (length : vs.length = (List.replicate count Slot.temporary ++ rest).length) :
    ∃ taken kept, vs = taken ++ kept ∧ taken.length = count ∧ kept.length = rest.length := by
  rw [List.length_append, List.length_replicate] at length
  refine ⟨vs.take count, vs.drop count, (List.take_append_drop _ _).symm, ?_, ?_⟩
  · rw [List.length_take]
    omega
  · rw [List.length_drop]
    omega

theorem exists_cons {x : Slot} {rest : List Slot} (length : vs.length = (x :: rest).length) :
    ∃ v kept, vs = v :: kept := List.exists_cons_of_length_eq_add_one length

theorem exists_cons_cons {x y : Slot} {rest : List Slot}
    (length : vs.length = (x :: y :: rest).length) : ∃ b a kept, vs = b :: a :: kept := by
  obtain ⟨b, others, rfl⟩ := exists_cons length
  obtain ⟨a, kept, rfl⟩ := List.exists_cons_of_length_eq_add_one (Nat.succ.inj length)
  exact ⟨b, a, kept, rfl⟩

section

variable {a : Asm} {limit pc : Nat} {chunk : Chunk}

/-- An indexed operation does the same in its short and in its long form. -/
theorem turn_indexed (op : Opcode) (index base next operand : Nat) (stack : List Value)
    (world : World) :
    turn limit chunk base next operand (Asm.indexed op index).opcode stack world =
      turn limit chunk base next operand op stack world := by
  rcases Asm.indexed_eq op index with same | same
  · rw [same]
  · rw [same]
    cases op <;> rfl

/-- What is known of an indexed operation on the stack. -/
theorem worked_indexed {op : Opcode} {index : Nat}
    (obeys : (Asm.indexed op index).Obeys view pool pc note) (long : op.longForm ≠ op)
    (notDefine : op ≠ .defineGlobal) :
    ∃ rest, note.shape = List.replicate (Asm.takes ⟨op, index⟩) .temporary ++ rest ∧
      Leads view (pc + (Asm.indexed op index).size) (Asm.gives ⟨op, index⟩ ++ rest) := by
  have other : (Asm.indexed op index).opcode ≠ .pop ∧
      (Asm.indexed op index).opcode ≠ .defineGlobal ∧
        (Asm.indexed op index).opcode ≠ .defineGlobalLong := by
    rcases Asm.indexed_eq op index with same | same
    · rw [same]
      cases op <;> simp_all [Opcode.longForm]
    · rw [same]
      cases op <;> simp_all [Opcode.longForm]
  obtain ⟨rest, same, leads⟩ := obeys.worked other.1 other.2.1 other.2.2
  rw [Asm.takes_indexed] at same
  rw [Asm.targets_indexed _ _ long, Asm.gives_indexed] at leads
  exact ⟨rest, same, leads _ (List.mem_singleton_self _)⟩

/-- The value of a variable in scope. -/
theorem exists_slotOf_innermost {name : String} {k : Nat} {b : Binding}
    (length : vs.length = note.shape.length) (found : innermost name note.scope = some (k, b)) :
    ∃ v, slotOf vs k = some v := by
  have small := innermost_lt found
  refine exists_slotOf ?_
  rw [length, Note.shape, List.length_append, List.length_map]
  omega

variable (constants : pool.constants = chunk.constants) (length : vs.length = note.shape.length)

include constants length

/-- A variable is read. -/
theorem reacts_read {name : String} {target : Compiler.Target}
    (obeys : target.read.Obeys view pool pc note) (mention : note.mention = some (.read name))
    (means : Means pool note.scope name target) :
    Reacts op view pool note vs below world
      (turn limit chunk below.length (pc + target.read.size) target.read.operand
        target.read.opcode (vs ++ below) world) := by
  cases means with
  | @slot k b found =>
      obtain ⟨rest, same, leads⟩ := obeys.worked (by simp [Compiler.Target.read])
        (by simp [Compiler.Target.read]) (by simp [Compiler.Target.read])
      obtain rfl : note.shape = rest := same
      obtain ⟨v, there⟩ := exists_slotOf_innermost length found
      simp only [Compiler.Target.read, turn, slotOf_append, there]
      exact reacts_push (.of_read mention) (leads _ (List.mem_singleton_self _))
        (.readsLocal vs world mention found there)
  | @global index missing names =>
      obtain ⟨rest, same, leads⟩ := worked_indexed obeys (by decide) (by decide)
      obtain rfl : note.shape = rest := same
      obtain ⟨text, there, same⟩ := names
      rw [constants] at there
      dsimp only [Compiler.Target.read]
      rw [turn_indexed, Asm.indexed_operand]
      simp only [turn, there]
      cases defined : world.globals[text.chars]?.map Global.value with
      | none => exact .fails rfl rfl (.of_read mention)
      | some v =>
          exact reacts_push (.of_read mention) leads
            (.readsGlobal vs world mention missing same defined)

/-- A variable is assigned to. -/
theorem reacts_write {name : String} {target : Compiler.Target}
    (obeys : target.write.Obeys view pool pc note) (mention : note.mention = some (.write name))
    (means : Means pool note.scope name target) :
    Reacts op view pool note vs below world
      (turn limit chunk below.length (pc + target.write.size) target.write.operand
        target.write.opcode (vs ++ below) world) := by
  cases means with
  | @slot k b found =>
      obtain ⟨rest, top, leads⟩ := obeys.worked (by simp [Compiler.Target.write])
        (by simp [Compiler.Target.write]) (by simp [Compiler.Target.write])
      replace top : note.shape = .temporary :: rest := top
      have leads := leads _ (List.mem_singleton_self _)
      obtain ⟨old, there⟩ := exists_slotOf_innermost length found
      obtain ⟨v, kept, rfl⟩ := exists_cons (top ▸ length)
      have slot := slotOf_append (v :: kept) below k
      rw [there, List.cons_append] at slot
      simp only [Compiler.Target.write, turn, List.cons_append, slot]
      cases assignable : old.assignable with
      | true =>
          -- the value stays on the stack, since an assignment is an expression
          rw [if_pos rfl, ← List.cons_append, withSlot_append]
          refine .on leads ?_
          rw [show (Compiler.Target.write (.slot k)).gives ++ rest = note.shape from top.symm]
          exact .writesLocal v kept world mention found top there assignable
      | false =>
          rw [if_neg (by simp)]
          exact .refusesLocal mention found there assignable
  | @global index missing names =>
      obtain ⟨rest, top, leads⟩ := worked_indexed obeys (by decide) (by decide)
      replace top : note.shape = .temporary :: rest := top
      obtain ⟨text, there, same⟩ := names
      rw [constants] at there
      obtain ⟨v, kept, rfl⟩ := exists_cons (top ▸ length)
      dsimp only [Compiler.Target.write]
      rw [turn_indexed, Asm.indexed_operand]
      simp only [turn, there, List.cons_append]
      cases defined : world.globals[text.chars]?.map Global.value with
      | none =>
          refine .fails rfl rfl fun other about => ?_
          obtain rfl : name = other := by
            rw [mention] at about
            cases about
            rfl
          exact ⟨missing, text.chars, same, Option.map_eq_none_iff.mp defined⟩
      | some old =>
          dsimp only
          cases assignable : old.assignable with
          | true =>
              rw [if_pos rfl, ← List.cons_append]
              refine .on leads ?_
              rw [show Asm.gives ⟨.setGlobal, index⟩ ++ rest = note.shape from top.symm]
              exact .writesGlobal v kept world mention missing top same defined assignable
          | false =>
              rw [if_neg (by simp)]
              exact .refusesGlobal mention missing same defined assignable

/-- A global variable is defined. -/
theorem reacts_define {name : String} {assignable : Bool} {index : Nat}
    (obeys : (Asm.indexed .defineGlobal index).Obeys view pool pc note)
    (mention : note.mention = some (.define name assignable)) (names : pool.Names index name)
    (top : note.above = [if assignable then .temporary else .sealed]) :
    Reacts op view pool note vs below world
      (turn limit chunk below.length (pc + (Asm.indexed .defineGlobal index).size)
        (Asm.indexed .defineGlobal index).operand (Asm.indexed .defineGlobal index).opcode
        (vs ++ below) world) := by
  have shape : note.shape = (if assignable then .temporary else .sealed) :: note.scope.map .bound := by
    rw [Note.shape, top]
    rfl
  -- defining takes the value off, whichever slot it was
  have leads : Leads view (pc + (Asm.indexed .defineGlobal index).size) (note.scope.map .bound) := by
    obtain ⟨after, turns, leads⟩ := obeys.turns
    rw [Asm.targets_indexed _ _ (by decide)] at leads
    have leads := leads _ (List.mem_singleton_self _)
    suffices same : after = note.scope.map .bound by rwa [same] at leads
    rw [shape] at turns
    generalize made : Asm.indexed .defineGlobal index = a at turns
    generalize start : (if assignable then Slot.temporary else .sealed) :: note.scope.map .bound =
      before at turns
    cases turns with
    | work _ rest =>
        rw [← made, Asm.takes_indexed] at start
        rw [← made, Asm.gives_indexed]
        exact (List.cons.inj start).2.symm
    | drop x rest => exact (List.cons.inj start).2.symm
    | bind _ rest => exact (List.cons.inj start).2.symm
  obtain ⟨text, there, same⟩ := names
  rw [constants] at there
  obtain ⟨v, kept, rfl⟩ := exists_cons (shape ▸ length)
  rw [turn_indexed, Asm.indexed_operand]
  simp only [turn, there, List.cons_append]
  exact .on leads (.defines v kept world mention shape same)

/-- An instruction that is about no variable. -/
theorem reacts_plain (obeys : a.Obeys view pool pc note) (silent : note.mention = none)
    (notCall : a.opcode ≠ .call) (notReturn : a.opcode ≠ .return) :
    Reacts a.opcode view pool note vs below world
      (turn limit chunk below.length (pc + a.size) a.operand a.opcode (vs ++ below) world) := by
  have other : a.opcode.isAccess = false := by
    have tells := obeys.tells
    rwa [Note.Tells, silent] at tells
  by_cases isPop : a.opcode = .pop
  · obtain ⟨x, shape, top, leads⟩ := obeys.popped isPop
    obtain ⟨v, kept, rfl⟩ := exists_cons (top ▸ length)
    rw [isPop]
    exact .on leads (.drops v kept world world.sink silent top)
  obtain ⟨rest, top, leads⟩ := obeys.worked isPop (fun same => by rw [same] at other; cases other)
    (fun same => by rw [same] at other; cases other)
  have served := obeys.served
  have back := obeys.back
  obtain ⟨op, operand⟩ := a
  -- Most instructions lead to the one behind them.
  have next (onward : Asm.targets ⟨op, operand⟩ pc = [pc + Asm.size ⟨op, operand⟩]) :
      Leads view (pc + Asm.size ⟨op, operand⟩) (Asm.gives ⟨op, operand⟩ ++ rest) := by
    rw [onward] at leads
    exact leads _ (List.mem_singleton_self _)
  have unknown : Unknown pool note world := .of_silent silent
  cases op with
  | defineGlobal | defineGlobalLong | getGlobal | getGlobalLong | setGlobal | setGlobalLong
  | getLocal | setLocal => cases other
  | pop => exact absurd rfl isPop
  | call => exact absurd rfl notCall
  | «return» => exact absurd rfl notReturn
  | constant | constantLong =>
      obtain ⟨v, there⟩ : ∃ v, pool.constants[operand]? = some v :=
        ⟨_, Array.getElem?_eq_getElem (served (by simp))⟩
      have member := Array.mem_of_getElem? there
      rw [constants] at there
      simp only [turn, there]
      obtain rfl : note.shape = rest := top
      exact reacts_push unknown (next rfl) (.loads vs world silent member)
  | null => exact reacts_push unknown (next rfl) (.computes [] vs world world.heap silent top .null)
  | true => exact reacts_push unknown (next rfl) (.computes [] vs world world.heap silent top (.bool true))
  | false => exact reacts_push unknown (next rfl) (.computes [] vs world world.heap silent top (.bool false))
  | makeConst =>
      obtain ⟨v, kept, rfl⟩ := exists_cons (top ▸ length)
      exact reacts_push unknown (next rfl) (.seals v kept world rfl silent top)
  | not =>
      obtain ⟨v, kept, rfl⟩ := exists_cons (top ▸ length)
      exact reacts_push unknown (next rfl) (.computes [v] kept world world.heap silent top (.bool _))
  | negate =>
      obtain ⟨v, kept, rfl⟩ := exists_cons (top ▸ length)
      simp only [turn, List.cons_append]
      cases v.asNumber? with
      | none => exact .fails rfl rfl unknown
      | some x =>
          exact reacts_push unknown (next rfl) (.computes [v] kept world world.heap silent top (.number _))
  | equal =>
      obtain ⟨b, a, kept, rfl⟩ := exists_cons_cons (top ▸ length)
      exact reacts_push unknown (next rfl) (.computes [b, a] kept world world.heap silent top (.bool _))
  | greater | less =>
      obtain ⟨b, a, kept, rfl⟩ := exists_cons_cons (top ▸ length)
      exact reacts_replaceTwo (fun x y => .bool _) silent top (next rfl)
  | subtract | multiply | divide =>
      obtain ⟨b, a, kept, rfl⟩ := exists_cons_cons (top ▸ length)
      exact reacts_replaceTwo (fun x y => .number _) silent top (next rfl)
  | add =>
      obtain ⟨b, a, kept, rfl⟩ := exists_cons_cons (top ▸ length)
      exact reacts_sumTwo silent top (next rfl)
  | jump =>
      obtain rfl : note.shape = rest := top
      exact .on (leads _ (List.mem_singleton_self _)) (.stays vs world silent)
  | jumpIfFalse =>
      obtain ⟨v, kept, rfl⟩ := exists_cons (top ▸ length)
      replace leads : ∀ target ∈ [pc + 3, pc + 3 + operand], Leads view target note.shape := by
        rw [top]
        exact leads
      simp only [turn, List.cons_append]
      split
      · exact .on (leads _ (.tail _ (.head _))) (.stays (v :: kept) world silent)
      · exact .on (leads _ (.head _)) (.stays (v :: kept) world silent)
  | loop =>
      obtain rfl : note.shape = rest := top
      have inside : ¬ pc + Asm.size ⟨.loop, operand⟩ < operand := Nat.not_lt.mpr (back rfl)
      simp only [turn, if_neg inside]
      exact .on (leads _ (List.mem_singleton_self _)) (.stays vs world silent)
  | print =>
      obtain ⟨v, kept, rfl⟩ := exists_cons (top ▸ length)
      simp only [turn, List.cons_append]
      cases Sink.writeLine v.display world.sink with
      | ok _ sink => exact .on (next rfl) (.drops v kept world sink silent top)
      | error message sink => exact .fails rfl rfl unknown

/-- Annotated code that neither calls nor returns reacts as listed. -/
theorem obeys_turn (obeys : a.Obeys view pool pc note) (notCall : a.opcode ≠ .call)
    (notReturn : a.opcode ≠ .return) :
    Reacts a.opcode view pool note vs below world
      (turn limit chunk below.length (pc + a.size) a.operand a.opcode (vs ++ below) world) := by
  have tells := obeys.tells
  unfold Note.Tells at tells
  cases mention : note.mention with
  | none => exact reacts_plain constants length obeys mention notCall notReturn
  | some about =>
      rw [mention] at tells
      cases about with
      | read name =>
          obtain ⟨target, means, rfl⟩ := tells
          exact reacts_read constants length obeys mention means
      | write name =>
          obtain ⟨target, means, rfl⟩ := tells
          exact reacts_write constants length obeys mention means
      | define name assignable =>
          obtain ⟨⟨index, names, rfl⟩, top⟩ := tells
          exact reacts_define constants length obeys mention names top

end

end

end Machine
end StackScript
