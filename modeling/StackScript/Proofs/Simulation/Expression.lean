import StackScript.Proofs.Code.Constants
import StackScript.Proofs.Machine.Instructions
import StackScript.Proofs.Semantics.Expression

/-!
# The code of an expression evaluates it

The code of an expression runs as the reference evaluates: on the same stack with
the value on top, at the first byte behind the code, or into the same fault.  The
induction is over the tree, for every place of the code and every list of values
that wait below; jumps stay inside the code of the `and` or `or` they belong to.
-/

namespace StackScript

open Machine

/-- The machine does with a call what the setting says about it. -/
def Realizes (s : Setting) (host : Host) (a : Activation) : Prop :=
  ∀ ⦃pc next : Nat⦄ ⦃callee : Value⦄ ⦃arguments stack : List Value⦄ ⦃world : World⦄,
    a.routine.chunk.decode pc = .ok ⟨.call, arguments.length, next⟩ →
    match s.call callee arguments stack world with
    | none => True
    | some (.error f, world') =>
        Stops host a pc (arguments.reverse ++ callee :: stack) world f world'
    | some (.ok v, world') =>
        Moves host a pc (arguments.reverse ++ callee :: stack) world next (v :: stack) world'

/-- The setting describes an activation whose routine was compiled with the strings
of a heap. -/
structure Linked (s : Setting) (host : Host) (a : Activation) (heap : Heap) : Prop where
  valid : heap.Valid
  text : s.text = heap.text
  limit : s.limit = some host.config.maxStack
  base : s.below.length = a.base
  calls : Realizes s host a

/-- The pool of a routine whose strings are in a heap. -/
def Activation.pool (a : Activation) (heap : Heap) : Pool := ⟨heap, a.routine.chunk.constants⟩

/-- From `pc`, with the given stack and world, execution ends as an outcome says: in
the fault, or at `pc'` with the results pushed on what waits above the variables. -/
def Ends {α : Type} (s : Setting) (host : Host) (a : Activation) (names : List String)
    (waiting : List Value) (pushed : α → List Value) (pc : Nat) (stack : List Value)
    (world : World) (pc' : Nat) (o : Outcome α) : Prop :=
  o.Describes
    (fun result store =>
      Moves host a pc stack world pc' (pushed result ++ store.stack waiting s.below)
        store.world ∧
      store.names = names ∧
      (pushed result ++ store.stack waiting s.below).length ≤ host.config.maxStack)
    (fun f world' => Stops host a pc stack world f world')
    False

/-- One value is pushed. -/
def single (v : Value) : List Value := [v]

section

variable {s : Setting} {host : Host} {a : Activation} {heap : Heap} {pc mid pc' next : Nat}
  {waiting stack : List Value} {world : World} {store : Store} {names : List String}
  {op : Opcode} {operand : Nat}

namespace Ends

variable {α β : Type} {pushed : α → List Value} {pushed' : β → List Value}

/-- Nothing more is executed. -/
theorem done {result : α} (same : store.names = names)
    (room : (pushed result ++ store.stack waiting s.below).length ≤ host.config.maxStack) :
    Ends s host a names waiting pushed pc (pushed result ++ store.stack waiting s.below)
      store.world pc (.value result store) :=
  ⟨.refl, same, room⟩

/-- What ends from a later moment ends from an earlier one. -/
theorem after {stack' : List Value} {world' : World} {o : Outcome α}
    (moved : Moves host a pc stack world mid stack' world')
    (h : Ends s host a names waiting pushed mid stack' world' pc' o) :
    Ends s host a names waiting pushed pc stack world pc' o :=
  Outcome.Describes.mono h (fun _ _ later => ⟨moved.trans later.1, later.2⟩)
    (fun _ _ stops => moved.stops stops) id

/-- Two pieces of code one after the other.  The second may find other values waiting. -/
theorem bind {waiting' : List Value} {o : Outcome α} {more : α → Store → Outcome β}
    (first : Ends s host a names waiting pushed pc stack world mid o)
    (second : ∀ result store, o = .value result store → store.names = names →
      (pushed result ++ store.stack waiting s.below).length ≤ host.config.maxStack →
      Ends s host a names waiting' pushed' mid (pushed result ++ store.stack waiting s.below)
        store.world pc' (more result store)) :
    Ends s host a names waiting' pushed' pc stack world pc' (o.bind more) := by
  cases o with
  | value result store =>
      obtain ⟨moved, same, room⟩ := first
      exact (second result store rfl same room).after moved
  | fault f world' => exact first
  | unfinished => exact first
  | unknown => exact first

/-- The results of the last piece of code, pushed in another way. -/
theorem map {waiting' : List Value} {o : Outcome α} {f : α → β}
    (h : Ends s host a names waiting pushed pc stack world pc' o)
    (same : ∀ result (store : Store), pushed' (f result) ++ store.stack waiting' s.below =
      pushed result ++ store.stack waiting s.below) :
    Ends s host a names waiting' pushed' pc stack world pc'
      (o.bind fun result store => .value (f result) store) :=
  h.bind fun result store _ names room => by
    rw [← same] at room ⊢
    exact done names room

end Ends

/-! ## Values -/

/-- A value is produced by the instruction that pushes it. -/
theorem ends_produce (linked : Linked s host a heap) {v : Value} (same : store.names = names)
    (code : a.routine.chunk.decode pc = .ok ⟨op, operand, next⟩)
    (run : ∀ log, executeInstruction (a.frame next pc) op operand
      (assembled host store.world (store.stack waiting s.below) log) =
        pushing v (a.frame next pc)
          (assembled host store.world (store.stack waiting s.below) log)) :
    Ends s host a names waiting single pc (store.stack waiting s.below) store.world next
      (s.produce waiting store v) := by
  unfold Setting.produce
  rw [linked.limit]
  dsimp only
  split
  · rename_i full
    exact stops_push code run full
  · rename_i room
    exact ⟨⟨1, goes_push code run (by omega)⟩, same, by
      simp only [single, List.singleton_append, List.length_cons]
      omega⟩

/-! ## Variables -/

/-- The stack around the variable of a slot. -/
theorem stack_split {newer older : List (String × Value)} {name : String} {v : Value}
    (split : store.bindings = newer ++ (name, v) :: older) :
    store.stack waiting s.below =
      (waiting ++ newer.map Prod.snd) ++ v :: (older.map Prod.snd ++ s.below) := by
  simp [Store.stack, split]

theorem height_slot (linked : Linked s host a heap) {older : List (String × Value)} {slot : Nat}
    (h : older.length = slot) : (older.map Prod.snd ++ s.below).length = a.base + slot := by
  rw [List.length_append, List.length_map, h, linked.base, Nat.add_comm]

theorem ends_read (linked : Linked s host a heap) {pool : Pool} {locals : List LocalVariable}
    {name : String} (slots : locals.map LocalVariable.name = names) (same : store.names = names)
    (sound : pool.Sound) (le : (pool.resolve locals name).2.Le (a.pool heap))
    (code : a.routine.chunk.decode pc = .ok ⟨(pool.resolve locals name).1.read.opcode,
      (pool.resolve locals name).1.read.operand, next⟩) :
    Ends s host a names waiting single pc (store.stack waiting s.below) store.world next
      (s.read waiting store name) := by
  have aligned : locals.map LocalVariable.name = store.names := slots.trans same.symm
  unfold Setting.read
  cases found : Body.findLocal name locals with
  | some entry =>
      obtain ⟨slot, var⟩ := entry
      obtain ⟨newer, v, older, split, length, there, -⟩ := split_of_findLocal aligned found
      simp only [Pool.resolve, found, Compiler.Target.read] at code
      simp only [there]
      refine ends_produce linked same code fun log => ?_
      rw [stack_split split]
      exact run_getLocal log (height_slot linked length)
  | none =>
      simp only [Pool.resolve, found, Compiler.Target.read, Asm.indexed_operand] at code le
      simp only [lookup_of_findLocal_none aligned found]
      have constant : a.routine.chunk.constants[(pool.addString name).1]? =
          some (.string (heap.text name)) := Pool.constant_addString sound name le
      -- the constant is the string of the name, so the machine looks up what the reference does
      have chars : (heap.text name).chars = name := linked.valid.chars_text name
      cases defined : store.global? name with
      | some v =>
          refine ends_produce linked same code fun log => ?_
          rw [executeInstruction_indexed]
          exact run_getGlobal log constant (by rw [chars]; exact defined)
      | none =>
          refine stops_step code fun log =>
            ⟨assembled host store.world (store.stack waiting s.below) log, rfl, ?_⟩
          rw [executeInstruction_indexed]
          rw [← chars] at defined
          rw [run_getGlobal_undefined log constant defined, chars]

/-- A variable is written by the instruction behind the value. -/
theorem ends_write (linked : Linked s host a heap) {pool : Pool} {locals : List LocalVariable}
    {name : String} {v : Value} (slots : locals.map LocalVariable.name = names)
    (same : store.names = names) (sound : pool.Sound)
    (le : (pool.resolve locals name).2.Le (a.pool heap))
    (code : a.routine.chunk.decode pc = .ok ⟨(pool.resolve locals name).1.write.opcode,
      (pool.resolve locals name).1.write.operand, next⟩)
    (room : (v :: store.stack waiting s.below).length ≤ host.config.maxStack) :
    Ends s host a names waiting single pc (v :: store.stack waiting s.below) store.world next
      (s.write store name v) := by
  have aligned : locals.map LocalVariable.name = store.names := slots.trans same.symm
  unfold Setting.write
  cases found : Body.findLocal name locals with
  | some entry =>
      obtain ⟨slot, var⟩ := entry
      obtain ⟨newer, old, older, split, length, there, updated⟩ := split_of_findLocal aligned found
      simp only [Pool.resolve, found, Compiler.Target.write] at code
      have height := height_slot linked length
      rw [there]
      cases assignable : old.assignable with
      | true =>
          let store' : Store := { store with bindings := update name v store.bindings }
          -- only the binding of the innermost variable of that name changes
          have split' : store'.bindings = newer ++ (name, v) :: older := updated v
          have kept : store'.names = store.names := by
            rw [Store.names, Store.names, split', split]
            simp
          have stack' : store'.stack waiting s.below = _ := stack_split split'
          have moved : Goes host a 1 pc (v :: (waiting ++ newer.map Prod.snd) ++ _) store.world
            _ _ _ := goes_setLocal code height assignable
          rw [List.cons_append, List.cons_append, ← stack', ← stack_split split] at moved
          simp only [assignable, if_true]
          refine ⟨⟨1, moved⟩, kept.trans same, ?_⟩
          simp only [single, List.singleton_append, List.length_cons] at room ⊢
          rw [Store.length_stack_of_names kept]
          exact room
      | false =>
          have stopped : Stops host a pc (v :: (waiting ++ newer.map Prod.snd) ++ _) store.world
            _ _ := stops_setLocal code height assignable
          rw [List.cons_append, ← stack_split split] at stopped
          simp only [assignable]
          exact stopped
  | none =>
      simp only [Pool.resolve, found, Compiler.Target.write, Asm.indexed_operand] at code le
      simp only [lookup_of_findLocal_none aligned found]
      have constant : a.routine.chunk.constants[(pool.addString name).1]? =
          some (.string (heap.text name)) := Pool.constant_addString sound name le
      have chars : (heap.text name).chars = name := linked.valid.chars_text name
      -- short or long, the instruction does the same
      have form (frame : Frame) := executeInstruction_indexed frame .setGlobal
        (pool.addString name).1 (pool.addString name).1
      cases defined : store.global? name with
      | some old =>
          rw [Store.global?, ← chars] at defined
          cases assignable : old.assignable with
          | true =>
              have moved : Goes host a 1 pc (v :: store.stack waiting s.below) _ _ _ _ :=
                goes_setGlobal code form constant defined assignable
              rw [chars, ← linked.text] at moved
              simp only [assignable, if_true]
              exact ⟨⟨1, moved⟩, same, room⟩
          | false =>
              have stopped : Stops host a pc (v :: store.stack waiting s.below) _ _ _ :=
                stops_setGlobal code form constant defined assignable
              rw [chars] at stopped
              simp only [assignable]
              exact stopped
      | none =>
          rw [Store.global?, ← chars] at defined
          have stopped : Stops host a pc (v :: store.stack waiting s.below) _ _ _ :=
            stops_setGlobal_undefined code form constant defined
          rw [chars] at stopped
          exact stopped

/-! ## Operators -/

/-- An operation that replaces the top of the stack. -/
theorem ends_replace {v w : Value} (same : store.names = names)
    (room : (v :: store.stack waiting s.below).length ≤ host.config.maxStack)
    (moved : Goes host a 1 pc (v :: store.stack waiting s.below) store.world next
      (w :: store.stack waiting s.below) store.world) :
    Ends s host a names waiting single pc (v :: store.stack waiting s.below) store.world next
      (.value w store) :=
  ⟨⟨1, moved⟩, same, room⟩

theorem ends_unary {uop : UnaryOperator} {v : Value} (same : store.names = names)
    (code : a.routine.chunk.decode pc = .ok ⟨uop.opcode, operand, next⟩)
    (room : (v :: store.stack waiting s.below).length ≤ host.config.maxStack) :
    Ends s host a names waiting single pc (v :: store.stack waiting s.below) store.world next
      (.ofResult store ((uop.apply v).map (·, store.world))) := by
  cases uop with
  | not => exact ends_replace same room (goes_not code room)
  | negate =>
      cases number : v.asNumber? with
      | some x =>
          simp only [UnaryOperator.apply, number]
          exact ends_replace same room (goes_negate code number room)
      | none =>
          simp only [UnaryOperator.apply, number]
          exact stops_negate code number

section Binary

variable {v w : Value}

/-- An operation that replaces two values by one. -/
theorem ends_combine {u : Value} {world' : World} (same : store.names = names)
    (room : (w :: v :: store.stack waiting s.below).length ≤ host.config.maxStack)
    (moved : Goes host a 1 pc (w :: v :: store.stack waiting s.below) store.world next
      (u :: store.stack waiting s.below) world') :
    Ends s host a names waiting single pc (w :: v :: store.stack waiting s.below) store.world next
      (.value u { store with world := world' }) :=
  ⟨⟨1, moved⟩, same, Nat.le_of_succ_le room⟩

theorem ends_arithmetic {operation : Float → Float → Datum} (same : store.names = names)
    (known : arithmetic? op = some operation)
    (code : a.routine.chunk.decode pc = .ok ⟨op, operand, next⟩)
    (room : (w :: v :: store.stack waiting s.below).length ≤ host.config.maxStack) :
    Ends s host a names waiting single pc (w :: v :: store.stack waiting s.below) store.world next
      (.ofResult store ((arithmetic operation v w).map (·, store.world))) := by
  cases left : v.asNumber? with
  | none =>
      simp only [arithmetic, left]
      exact stops_arithmetic code known (.inl left)
  | some x =>
      cases right : w.asNumber? with
      | none =>
          simp only [arithmetic, left, right]
          exact stops_arithmetic code known (.inr right)
      | some y =>
          simp only [arithmetic, left, right]
          exact ends_combine same room
            (goes_arithmetic code known left right (Nat.le_of_succ_le room))

theorem ends_join (same : store.names = names)
    (code : a.routine.chunk.decode pc = .ok ⟨.add, operand, next⟩)
    (room : (w :: v :: store.stack waiting s.below).length ≤ host.config.maxStack) :
    Ends s host a names waiting single pc (w :: v :: store.stack waiting s.below) store.world next
      (.ofResult store (join v w store.world)) := by
  have free := Nat.le_of_succ_le room
  unfold join
  split
  · rename_i x number
    exact ends_combine same room (goes_add_number code number free)
  · rename_i chars joined
    exact ends_combine same room (goes_add_text code joined free)
  · rename_i neither
    exact stops_add code neither

/-- The comparisons with equality negate the result of the strict ones. -/
theorem ends_negated {operation : Float → Float → Bool} {later : Nat} (same : store.names = names)
    (known : arithmetic? op = some fun x y => .bool (operation x y))
    (code : a.routine.chunk.decode pc = .ok ⟨op, operand, mid⟩)
    (negation : a.routine.chunk.decode mid = .ok ⟨.not, later, next⟩)
    (room : (w :: v :: store.stack waiting s.below).length ≤ host.config.maxStack) :
    Ends s host a names waiting single pc (w :: v :: store.stack waiting s.below) store.world next
      (.ofResult store
        ((arithmetic (fun x y => .bool !(operation x y)) v w).map (·, store.world))) := by
  have first : Ends s host a names waiting single pc _ _ _ _ := ends_arithmetic same known code room
  cases left : v.asNumber? with
  | none =>
      simp only [arithmetic, left] at first ⊢
      exact first
  | some x =>
      cases right : w.asNumber? with
      | none =>
          simp only [arithmetic, left, right] at first ⊢
          exact first
      | some y =>
          simp only [arithmetic, left, right] at first ⊢
          obtain ⟨moved, -, free⟩ := first
          exact (ends_replace same free (goes_not negation free)).after moved

theorem ends_binary {bop : BinaryOperator} (same : store.names = names)
    (code : a.routine.chunk.Holds pc bop.code)
    (room : (w :: v :: store.stack waiting s.below).length ≤ host.config.maxStack) :
    Ends s host a names waiting single pc (w :: v :: store.stack waiting s.below) store.world
      (pc + codeSize bop.code) (.ofResult store (bop.apply v w store.world)) := by
  have free := Nat.le_of_succ_le room
  cases bop with
  | equal => exact ends_combine same room (goes_equal code.1 free)
  | notEqual =>
      have first : Ends s host a names waiting single pc _ _ _ _ :=
        ends_combine same room (goes_equal code.1 free)
      have second : Ends s host a names waiting single _
          (.bool (v == w) :: store.stack waiting s.below) store.world _ _ :=
        ends_replace same free (goes_not code.2.1 free)
      exact second.after first.1
  | greater | less | subtract | multiply | divide => exact ends_arithmetic same rfl code.1 room
  | greaterEqual | lessEqual => exact ends_negated same rfl code.1 code.2.1 room
  | add => exact ends_join same code.1 room

end Binary

/-! ## Jumps and calls -/

/-- The condition on top of the stack decides where execution goes on; it stays. -/
theorem ends_branch {o : Outcome Value} {v : Value}
    (jump : a.routine.chunk.decode pc = .ok ⟨.jumpIfFalse, operand, next⟩)
    (falsey : v.isFalsey = true →
      Ends s host a names waiting single (next + operand) (v :: stack) world pc' o)
    (truthy : v.isFalsey = false →
      Ends s host a names waiting single next (v :: stack) world pc' o) :
    Ends s host a names waiting single pc (v :: stack) world pc' o := by
  have jumped : Goes host a 1 pc (v :: stack) world _ _ _ := goes_jumpIfFalse jump
  cases decided : v.isFalsey with
  | true =>
      rw [decided] at jumped
      exact (falsey decided).after ⟨1, jumped⟩
  | false =>
      rw [decided] at jumped
      exact (truthy decided).after ⟨1, jumped⟩

/-- A value is popped before more code. -/
theorem ends_discard {o : Outcome Value} {v : Value} {code : List Asm}
    (discard : a.routine.chunk.decode pc = .ok ⟨.pop, operand, pc + (Asm.plain .pop).size⟩)
    (h : Ends s host a names waiting single (pc + (Asm.plain .pop).size) stack world
      (pc + (Asm.plain .pop).size + codeSize code) o) :
    Ends s host a names waiting single pc (v :: stack) world
      (pc + codeSize (.plain .pop :: code)) o := by
  rw [codeSize_cons, ← Nat.add_assoc]
  exact h.after ⟨1, goes_pop discard⟩

theorem ends_apply (linked : Linked s host a heap) {callee : Value} {arguments : List Value}
    (same : store.names = names)
    (room : (arguments.reverse ++ callee :: store.stack waiting s.below).length ≤
      host.config.maxStack)
    (code : a.routine.chunk.decode pc = .ok ⟨.call, arguments.length, next⟩) :
    Ends s host a names waiting single pc
      (arguments.reverse ++ callee :: store.stack waiting s.below) store.world next
      (s.apply waiting store callee arguments) := by
  have realized := @Linked.calls _ _ _ _ linked pc next callee arguments
    (store.stack waiting s.below) store.world code
  unfold Setting.apply
  cases result : s.call callee arguments (store.stack waiting s.below) store.world with
  | none => trivial
  | some outcome =>
      rw [result] at realized
      obtain ⟨answer, world'⟩ := outcome
      cases answer with
      | error f => exact realized
      | ok v =>
          refine ⟨realized, same, ?_⟩
          simp only [List.length_append, List.length_reverse, List.length_cons] at room
          show (v :: store.stack waiting s.below).length ≤ _
          rw [List.length_cons]
          omega

/-! ## Expressions -/

section Induction

variable {locals : List LocalVariable}

/-- A constant of the pool is produced by its instruction. -/
theorem ends_constant (linked : Linked s host a heap) {v : Value} {index : Nat}
    (same : store.names = names) (there : a.routine.chunk.constants[index]? = some v)
    (code : a.routine.chunk.Holds pc [.indexed .constant index]) :
    Ends s host a names waiting single pc (store.stack waiting s.below) store.world
      (pc + codeSize [.indexed .constant index]) (s.produce waiting store v) := by
  rw [codeSize_singleton]
  refine ends_produce linked same code.1 fun log => ?_
  rw [executeInstruction_indexed, Asm.indexed_operand]
  exact run_constant there _

mutual

/-- The code of an expression does what the reference says. -/
theorem Expression.ends_evaluate (linked : Linked s host a heap)
    (slots : locals.map LocalVariable.name = names) :
    (e : Expression) → e.Genuine → (pool : Pool) → (pc : Nat) → (waiting : List Value) →
      (store : Store) → pool.Sound → (e.code locals pool).2.Le (a.pool heap) →
      a.routine.chunk.Holds pc (e.code locals pool).1 → store.names = names →
      Ends s host a names waiting single pc (store.stack waiting s.below) store.world
        (pc + codeSize (e.code locals pool).1) (e.evaluate s waiting store)
  | .null, _, _, _, _, _, _, _, code, same =>
      ends_produce linked same code.1 fun _ => run_null _ _
  | .boolean true, _, _, _, _, _, _, _, code, same =>
      ends_produce linked same code.1 fun _ => run_true _ _
  | .boolean false, _, _, _, _, _, _, _, code, same =>
      ends_produce linked same code.1 fun _ => run_false _ _
  | .number x, genuine, pool, pc, waiting, store, sound, le, code, same => by
      obtain ⟨lexeme, literal⟩ := genuine
      have there := Pool.constant_add sound (.number literal) rfl
      exact ends_constant linked same (le.constants _ _ there) code
  | .string chars, _, pool, pc, waiting, store, sound, le, code, same => by
      have there := Pool.constant_addString sound chars le
      show Ends _ _ _ _ _ _ _ _ _ _ (s.produce waiting store (.string (s.text chars)))
      rw [linked.text]
      exact ends_constant linked same there code
  | .variable name, _, pool, pc, waiting, store, sound, le, code, same => by
      let target := (pool.resolve locals name).1
      replace code : a.routine.chunk.Holds pc [target.read] := code
      show Ends _ _ _ _ _ _ _ _ _ (pc + codeSize [target.read]) _
      rw [codeSize_singleton]
      exact ends_read linked slots same sound le code.1
  | .grouping e, genuine, _, _, _, _, sound, le, code, same =>
      Expression.ends_evaluate linked slots e genuine _ _ _ _ sound le code same
  | .unary op e, genuine, pool, pc, waiting, store, sound, le, code, same => by
      replace code : a.routine.chunk.Holds pc ((e.code locals pool).1 ++ [.plain op.opcode]) := code
      rw [Chunk.holds_append] at code
      have operand := e.ends_evaluate linked slots genuine _ _ waiting _ sound le code.1 same
      refine Ends.bind operand fun v store _ same room => ?_
      show Ends _ _ _ _ _ _ _ _ _ (pc + codeSize ((e.code locals pool).1 ++ [.plain op.opcode])) _
      rw [codeSize_append, ← Nat.add_assoc]
      rw [codeSize_singleton]
      exact ends_unary same code.2.1 room
  | .binary op l r, ⟨left, right⟩, pool, pc, waiting, store, sound, le, code, same => by
      let front := (l.code locals pool).1
      let back := (r.code locals (l.code locals pool).2).1
      have sound' := l.sound_code locals left pool sound
      replace code : a.routine.chunk.Holds pc (front ++ back ++ op.code) := code
      rw [List.append_assoc, Chunk.holds_append, Chunk.holds_append] at code
      obtain ⟨first, second, operation⟩ := code
      refine Ends.bind (l.ends_evaluate linked slots left _ _ waiting _ sound
        ((r.le_code locals _).trans le) first same) fun v store _ same _ => ?_
      refine Ends.bind (r.ends_evaluate linked slots right _ _ (v :: waiting) _ sound' le second
        same) fun w store _ same room => ?_
      show Ends _ _ _ _ _ _ _ _ _ (pc + codeSize (front ++ back ++ op.code)) _
      rw [codeSize_append, codeSize_append, ← Nat.add_assoc, ← Nat.add_assoc]
      exact ends_binary same operation room
  | .and l r, ⟨left, right⟩, pool, pc, waiting, _, sound, le, code, same => by
      let front := (l.code locals pool).1
      let back := Asm.plain .pop :: (r.code locals (l.code locals pool).2).1
      have sound' := l.sound_code locals left pool sound
      replace code : a.routine.chunk.Holds pc (front ++ ⟨.jumpIfFalse, codeSize back⟩ :: back) := code
      rw [Chunk.holds_append] at code
      obtain ⟨first, jump, discard, second⟩ := code
      refine Ends.bind (l.ends_evaluate linked slots left _ _ waiting _ sound
        ((r.le_code locals _).trans le) first same) fun v store _ same room => ?_
      show Ends _ _ _ _ _ _ _ _ _ (pc + codeSize (front ++ ⟨.jumpIfFalse, codeSize back⟩ :: back)) _
      rw [codeSize_append, codeSize_cons, ← Nat.add_assoc, ← Nat.add_assoc]
      refine ends_branch jump (fun falsey => ?_) (fun truthy => ?_)
      · rw [if_pos falsey]
        exact Ends.done same room
      · rw [if_neg (by simp [truthy])]
        exact ends_discard discard (r.ends_evaluate linked slots right _ _ waiting _ sound' le
          second same)
  | .or l r, ⟨left, right⟩, pool, pc, waiting, _, sound, le, code, same => by
      let front := (l.code locals pool).1
      let back := Asm.plain .pop :: (r.code locals (l.code locals pool).2).1
      let skip : List Asm := [⟨.jump, codeSize back⟩]
      have sound' := l.sound_code locals left pool sound
      replace code : a.routine.chunk.Holds pc
        (front ++ ⟨.jumpIfFalse, codeSize skip⟩ :: (skip ++ back)) := code
      rw [Chunk.holds_append] at code
      obtain ⟨first, jump, passed, discard, second⟩ := code
      refine Ends.bind (l.ends_evaluate linked slots left _ _ waiting _ sound
        ((r.le_code locals _).trans le) first same) fun v store _ same room => ?_
      show Ends _ _ _ _ _ _ _ _ _
        (pc + codeSize (front ++ ⟨.jumpIfFalse, codeSize skip⟩ :: (skip ++ back))) _
      rw [codeSize_append, codeSize_cons, codeSize_append, ← Nat.add_assoc, ← Nat.add_assoc,
        ← Nat.add_assoc]
      refine ends_branch jump (fun falsey => ?_) (fun truthy => ?_)
      · rw [if_pos falsey]
        exact ends_discard discard (r.ends_evaluate linked slots right _ _ waiting _ sound' le
          second same)
      · rw [if_neg (by simp [truthy])]
        exact Ends.after ⟨1, goes_jump passed⟩ (Ends.done same room)
  | .assign name e, genuine, pool, pc, waiting, _, sound, le, code, same => by
      let target := (pool.resolve locals name).1
      let value := (e.code locals (pool.resolve locals name).2).1
      replace code : a.routine.chunk.Holds pc (value ++ [target.write]) := code
      rw [Chunk.holds_append] at code
      refine Ends.bind (e.ends_evaluate linked slots genuine _ _ waiting _
        (sound.resolve locals name) le code.1 same) fun v store _ same room => ?_
      show Ends _ _ _ _ _ _ _ _ _ (pc + codeSize (value ++ [target.write])) _
      rw [codeSize_append, codeSize_singleton, ← Nat.add_assoc]
      exact ends_write linked slots same sound ((e.le_code locals _).trans le) code.2.1 room
  | .call f es, ⟨callee, arguments⟩, pool, pc, waiting, store, sound, le, code, same => by
      let front := (f.code locals pool).1
      let back := (Expression.listCode locals es (f.code locals pool).2).1
      have sound' := f.sound_code locals callee pool sound
      replace code : a.routine.chunk.Holds pc (front ++ back ++ [⟨.call, es.length⟩]) := code
      rw [List.append_assoc, Chunk.holds_append, Chunk.holds_append] at code
      obtain ⟨first, second, call, -⟩ := code
      refine Ends.bind (f.ends_evaluate linked slots callee _ _ waiting _ sound
        ((Expression.le_listCode locals es _).trans le) first same) fun v store _ same room => ?_
      refine Ends.bind (Expression.ends_evaluateList linked slots es arguments _ _ (v :: waiting) _
        sound' le second same room) fun vs store found same room => ?_
      show Ends _ _ _ _ _ _ _ _ _ (pc + codeSize (front ++ back ++ [⟨.call, es.length⟩])) _
      rw [codeSize_append, codeSize_append, codeSize_singleton, ← Nat.add_assoc, ← Nat.add_assoc]
      rw [← Expression.length_evaluateList s es (v :: waiting) _ found] at call
      exact ends_apply linked same room call

theorem Expression.ends_evaluateList (linked : Linked s host a heap)
    (slots : locals.map LocalVariable.name = names) :
    (es : List Expression) → Expression.GenuineList es → (pool : Pool) → (pc : Nat) →
      (waiting : List Value) → (store : Store) → pool.Sound →
      (Expression.listCode locals es pool).2.Le (a.pool heap) →
      a.routine.chunk.Holds pc (Expression.listCode locals es pool).1 → store.names = names →
      (store.stack waiting s.below).length ≤ host.config.maxStack →
      Ends s host a names waiting List.reverse pc (store.stack waiting s.below) store.world
        (pc + codeSize (Expression.listCode locals es pool).1)
        (Expression.evaluateList s es waiting store)
  | [], _, _, _, _, _, _, _, _, same, room => ⟨.refl, same, room⟩
  | e :: es, ⟨genuine, others⟩, pool, pc, waiting, store, sound, le, code, same, room => by
      let front := (e.code locals pool).1
      let back := (Expression.listCode locals es (e.code locals pool).2).1
      replace code : a.routine.chunk.Holds pc (front ++ back) := code
      rw [Chunk.holds_append] at code
      refine Ends.bind (e.ends_evaluate linked slots genuine _ _ waiting _ sound
        ((Expression.le_listCode locals es _).trans le) code.1 same) fun v store _ same room => ?_
      have rest := Expression.ends_evaluateList linked slots es others _ _ (v :: waiting) _
        (e.sound_code locals genuine pool sound) le code.2 same room
      show Ends _ _ _ _ _ _ _ _ _ (pc + codeSize (front ++ back)) _
      rw [codeSize_append, ← Nat.add_assoc]
      refine Ends.map rest fun vs store => ?_
      simp [Store.stack]

end

end Induction

end
end StackScript
