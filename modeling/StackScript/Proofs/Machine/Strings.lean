import StackScript.Proofs.Machine.Lookups

/-!
# Machines with one object for each string

A machine is canonical if every string that it holds is the object that its table has for its
characters, or one that a host function has made (`NativeFunction.Makes`).  Every step keeps the
machine canonical: instructions push what the machine holds already, and what an addition joins
is looked up in the table first.
-/

namespace StackScript

/-- What a host function can see of the machine that calls it. -/
inductive NativeContext.Shows (context : NativeContext) : Text → Prop where
  | name {key : String} {g : Global} (there : context.globals[key]? = some g) : context.Shows g.name
  | global {key : String} {g : Global} {t : Text} (there : context.globals[key]? = some g)
      (mem : t ∈ g.value.texts) : context.Shows t
  | operand {v : Value} {t : Text} (there : v ∈ context.stack) (mem : t ∈ v.texts) :
      context.Shows t

/-- The string object is of the function's own making: it is in what the function gives back,
which has neither seen it nor got it with an argument. -/
def NativeFunction.Makes (f : NativeFunction) (t : Text) : Prop :=
  ∃ context arguments sink v sink', f context arguments sink = .ok v sink' ∧ t ∈ v.texts ∧
    ¬ context.Shows t ∧ ∀ u ∈ arguments, t ∉ u.texts

/-- All strings that the function gives back it has seen or got with an argument. -/
def NativeFunction.MakesNoText (f : NativeFunction) : Prop := ∀ t, ¬ f.Makes t

/-- The string object is one of the table, or one of those that have been made elsewhere. -/
def Heap.Knows (made : Text → Prop) (heap : Heap) (t : Text) : Prop := heap.Has t ∨ made t

theorem Heap.Knows.mono {made : Text → Prop} {heap heap' : Heap} {t : Text} (h : heap.Knows made t)
    (le : heap.Le heap') : heap'.Knows made t := h.imp_left (·.mono le)

namespace Machine

variable {made : Text → Prop}

/-- All strings that can be reached from globals and stack are known. -/
structure Interned (made : Text → Prop) (world : World) (stack : List Value) : Prop where
  numbered : world.heap.texts.Numbered
  stack : ∀ v ∈ stack, ∀ t ∈ v.texts, world.heap.Knows made t
  names : ∀ (key : String) (g : Global), world.globals[key]? = some g →
    world.heap.Knows made g.name
  globals : ∀ (key : String) (g : Global), world.globals[key]? = some g →
    ∀ t ∈ g.value.texts, world.heap.Knows made t

section Turns

variable {world : World} {stack rest : List Value} {v : Value} {chunk : Chunk}

theorem Interned.tail (h : Interned made world (v :: rest)) : Interned made world rest :=
  { h with stack := (List.forall_mem_cons.mp h.stack).2 }

theorem Interned.head (h : Interned made world (v :: rest)) :
    ∀ t ∈ v.texts, world.heap.Knows made t :=
  (List.forall_mem_cons.mp h.stack).1

theorem Interned.cons (h : Interned made world stack)
    (known : ∀ t ∈ v.texts, world.heap.Knows made t) : Interned made world (v :: stack) :=
  { h with stack := List.forall_mem_cons.mpr ⟨known, h.stack⟩ }

theorem Interned.sublist {stack' : List Value} (h : Interned made world stack)
    (sub : ∀ v ∈ stack', v ∈ stack) : Interned made world stack' :=
  { h with stack := fun v mem => h.stack v (sub v mem) }

theorem Interned.define (h : Interned made world stack) {name : Text}
    (known : world.heap.Knows made name) (value : ∀ t ∈ v.texts, world.heap.Knows made t) :
    Interned made { world with globals := world.globals.insert name.chars ⟨name, v⟩ } stack := by
  refine { h with names := fun key g there => ?_, globals := fun key g there => ?_ }
  · rcases entry_of_insert there with ⟨-, rfl⟩ | old
    · exact known
    · exact h.names key g old
  · rcases entry_of_insert there with ⟨-, rfl⟩ | old
    · exact value
    · exact h.globals key g old

/-- The texts that are looked up are entered. -/
theorem Interned.intern (h : Interned made world stack) (chars : String) :
    Interned made { world with heap := (world.heap.intern chars).2 } stack where
  numbered := h.numbered.intern chars
  stack v mem t mem' := (h.stack v mem t mem').mono (Heap.le_intern _ _)
  names key g there := (h.names key g there).mono (Heap.le_intern _ _)
  globals key g there t mem := (h.globals key g there t mem).mono (Heap.le_intern _ _)

/-- What is left is as described, whether or not execution goes on. -/
def Turn.Leaves (described : List Value → World → Prop) : Turn → Prop
  | on _ stack world => described stack world
  | stop _ stack world => described stack world

/-- All strings are still known, and the table has kept those of before. -/
def Preserved (made : Text → Prop) (world : World) (stack' : List Value) (world' : World) : Prop :=
  Interned made world' stack' ∧ world.heap.Le world'.heap

theorem Interned.preserved (h : Interned made world stack) : Preserved made world stack world :=
  ⟨h, .refl _⟩

theorem Turn.leaves_push {described : List Value → World → Prop} {limit next : Nat}
    (without : described stack world) (pushed : described (v :: stack) world) :
    (Turn.push limit next v stack world).Leaves described := by
  unfold Turn.push
  split
  · exact without
  · exact pushed

/-- Pushing a value whose strings are known. -/
theorem leaves_push {limit next : Nat} (h : Interned made world stack)
    (known : ∀ t ∈ v.texts, world.heap.Knows made t) :
    (Turn.push limit next v stack world).Leaves (Preserved made world) :=
  Turn.leaves_push h.preserved (h.cons known).preserved

theorem leaves_plain {limit next : Nat} (h : Interned made world stack) (none : v.texts = []) :
    (Turn.push limit next v stack world).Leaves (Preserved made world) :=
  leaves_push h (by simp [none])

theorem leaves_onNumbers {limit next : Nat} (operator : Float → Float → Datum)
    (none : ∀ x y, (Value.of (operator x y)).texts = []) (fault : Fault)
    (h : Interned made world stack) :
    (replaceTwo limit next (onNumbers operator) fault world stack).Leaves (Preserved made world) := by
  rcases stack with _ | ⟨b, _ | ⟨a, rest⟩⟩
  · exact h.preserved
  · exact h.preserved
  · simp only [replaceTwo, onNumbers]
    cases a.asNumber? with
    | none => exact h.preserved
    | some x =>
        cases b.asNumber? with
        | none => exact h.preserved
        | some y => exact leaves_plain h.tail.tail (none x y)

/-- The text of a name among the constants. -/
theorem knows_name {operand : Nat} {name : Text}
    (code : ∀ v ∈ chunk.constants, ∀ t ∈ v.texts, world.heap.Knows made t)
    (found : chunk.constants[operand]?.bind Value.asText? = some name) :
    world.heap.Knows made name := by
  obtain ⟨v, there, text⟩ := Option.bind_eq_some_iff.mp found
  have mem : name ∈ v.texts := by
    obtain ⟨datum, assignable⟩ := v
    cases datum <;> cases text
    exact List.mem_singleton_self _
  exact code v (Array.mem_of_getElem? there) name mem

theorem knows_global {key : String} (h : Interned made world stack)
    (found : world.globals[key]?.map Global.value = some v) :
    ∀ t ∈ v.texts, world.heap.Knows made t := by
  obtain ⟨g, there, rfl⟩ := Option.map_eq_some_iff.mp found
  exact h.globals key g there

theorem knows_slot {index : Nat} (h : Interned made world stack)
    (found : slotOf stack index = some v) : ∀ t ∈ v.texts, world.heap.Knows made t :=
  h.stack v (List.mem_reverse.mp (List.mem_of_getElem? found))

/-- An addition looks the text up that it makes. -/
theorem leaves_sumTwo {limit next : Nat} (h : Interned made world stack) :
    (sumTwo limit next world stack).Leaves (Preserved made world) := by
  rcases stack with _ | ⟨b, _ | ⟨a, rest⟩⟩
  · exact h.preserved
  · exact h.preserved
  · simp only [sumTwo]
    cases sum a.datum b.datum with
    | none => exact h.preserved
    | some sum =>
        cases sum with
        | inl x => exact leaves_plain h.tail.tail rfl
        | inr chars =>
            have interned := h.tail.tail.intern chars
            have valid : world.heap.Valid := h.numbered.chars
            have le := world.heap.le_intern chars
            refine Turn.leaves_push ⟨interned, le⟩ ⟨interned.cons ?_, le⟩
            exact List.forall_mem_singleton.mpr (.inl (valid.has_intern chars))

/-- What an instruction leaves behind, other than a call or a return. -/
theorem leaves_turn {limit base next operand : Nat} {op : Opcode} (h : Interned made world stack)
    (code : ∀ v ∈ chunk.constants, ∀ t ∈ v.texts, world.heap.Knows made t) :
    (turn limit chunk base next operand op stack world).Leaves (Preserved made world) := by
  cases op with
  | add => exact leaves_sumTwo h
  | constant | constantLong =>
      simp only [turn]
      split
      · exact h.preserved
      · rename_i v found
        exact leaves_push h (code v (Array.mem_of_getElem? found))
  | null | true | false => exact leaves_plain h rfl
  | pop =>
      cases stack with
      | nil => exact h.preserved
      | cons v rest => exact h.tail.preserved
  | defineGlobal | defineGlobalLong =>
      simp only [turn]
      split
      · exact h.preserved
      · exact h.preserved
      · rename_i name v rest found
        exact ⟨h.tail.define (knows_name code found) h.head, .refl _⟩
  | getGlobal | getGlobalLong =>
      simp only [turn]
      split
      · exact h.preserved
      · split
        · exact h.preserved
        · rename_i v found
          exact leaves_push h (by simpa using knows_global h found)
  | setGlobal | setGlobalLong =>
      simp only [turn]
      split
      · exact h.preserved
      · exact h.preserved
      · rename_i name v rest found
        split
        · exact h.preserved
        · split
          · exact ⟨h.define (knows_name code found) h.head, .refl _⟩
          · exact h.preserved
  | getLocal =>
      simp only [turn]
      split
      · exact h.preserved
      · rename_i v found
        exact leaves_push h (by simpa using knows_slot h found)
  | setLocal =>
      simp only [turn]
      split
      · exact h.preserved
      · rename_i v rest
        split
        · exact h.preserved
        · split
          · refine (h.sublist fun w mem => ?_).preserved
            unfold withSlot at mem
            rcases List.mem_or_eq_of_mem_set (List.mem_reverse.mp mem) with old | rfl
            · exact List.mem_reverse.mp old
            · exact List.mem_cons_self ..
          · exact h.preserved
  | makeConst =>
      cases stack with
      | nil => exact h.preserved
      | cons v rest => exact leaves_push h.tail (by simpa using h.head)
  | not =>
      cases stack with
      | nil => exact h.preserved
      | cons v rest => exact leaves_plain h.tail rfl
  | negate =>
      cases stack with
      | nil => exact h.preserved
      | cons v rest =>
          simp only [turn]
          split
          · exact h.preserved
          · exact leaves_plain h.tail rfl
  | equal =>
      rcases stack with _ | ⟨b, _ | ⟨a, rest⟩⟩
      · exact h.preserved
      · exact h.tail.preserved
      · exact leaves_plain h.tail.tail rfl
  | greater | less | subtract | multiply | divide =>
      exact leaves_onNumbers _ (fun _ _ => rfl) _ h
  | jump | call | «return» => exact h.preserved
  | jumpIfFalse => cases stack <;> exact h.preserved
  | loop =>
      simp only [turn]
      split <;> exact h.preserved
  | print =>
      cases stack with
      | nil => exact h.preserved
      | cons v rest =>
          simp only [turn]
          split <;> exact ⟨{ h.tail with }, .refl _⟩

end Turns

/-! ## Steps -/

/-- The strings of the frame's code are known. -/
def Reads (made : Text → Prop) (m : Machine) (frame : Frame) : Prop :=
  ∀ t ∈ frame.routine.texts, m.heap.Knows made t

/-- Every string that the machine holds is known. -/
structure Canonical (made : Text → Prop) (m : Machine) : Prop where
  world : Interned made m.world m.operands
  callers : ∀ frame ∈ m.callers, m.Reads made frame

/-- One of the host functions that have been defined makes the string object. -/
def Makes (m : Machine) (t : Text) : Prop := ∃ f ∈ m.natives, NativeFunction.Makes f t

/-- The machine has become another that is canonical and has the old objects. -/
structure Becomes (made : Text → Prop) (m m' : Machine) : Prop where
  canonical : m'.Canonical made
  le : m.heap.Le m'.heap

/-- A step leaves a canonical machine, which knows the strings of the code that runs on. -/
def StepsTo (made : Text → Prop) (m : Machine) : EStateM.Result Fault Machine Flow → Prop
  | .ok .finished m' => m.Becomes made m'
  | .ok (.running next) m' => m.Becomes made m' ∧ m'.Reads made next
  | .error _ m' => m.Becomes made m'

section Steps

variable {m m' : Machine} {frame : Frame}

/-- Running code defines no host functions. -/
theorem Enters.makes {texts : List String} (h : m.Enters texts m') : m'.Makes = m.Makes := by
  funext t
  rw [Makes, h.natives]
  rfl

theorem Becomes.reads (h : m.Becomes made m') (reads : m.Reads made frame) : m'.Reads made frame :=
  fun t mem => (reads t mem).mono h.le

theorem Becomes.trans {m'' : Machine} (h : m.Becomes made m') (h' : m'.Becomes made m'') :
    m.Becomes made m'' :=
  ⟨h'.canonical, h.le.trans h'.le⟩

theorem Canonical.refl (h : m.Canonical made) : m.Becomes made m := ⟨h, .refl _⟩

theorem Canonical.knows (h : m.Canonical made) :
    ∀ v ∈ m.stack, ∀ t ∈ v.texts, m.heap.Knows made t :=
  fun v mem => h.world.stack v (by simpa [operands] using mem)

/-- Another stack, all of whose strings are known. -/
theorem Canonical.restack (h : m.Canonical made) {stack : Array Value} (callers : Array Frame)
    (sink : Sink) (known : ∀ v ∈ stack, ∀ t ∈ v.texts, m.heap.Knows made t)
    (reads : ∀ frame ∈ callers, m.Reads made frame) :
    m.Becomes made { m with stack, callers, sink } := by
  refine ⟨⟨{ h.world with stack := fun v mem => known v ?_ }, reads⟩, .refl _⟩
  simpa [operands] using mem

theorem mem_shrink {P : Value → Prop} {stack : Array Value} (h : ∀ v ∈ stack, P v) (height : Nat) :
    ∀ v ∈ stack.shrink height, P v := by
  intro v mem
  obtain ⟨i, below, rfl⟩ := Array.mem_iff_getElem.mp mem
  simp only [Array.getElem_shrink]
  exact h _ (Array.getElem_mem _)

theorem mem_pop {α : Type} {a : α} {stack : Array α} (mem : a ∈ stack.pop) : a ∈ stack := by
  obtain ⟨i, below, rfl⟩ := Array.mem_iff_getElem.mp mem
  rw [Array.getElem_pop]
  exact Array.getElem_mem _

theorem Becomes.steps (h : m.Becomes made m') {result : EStateM.Result Fault Machine Flow}
    (h' : m'.StepsTo made result) : m.StepsTo made result := by
  cases result with
  | error fault m'' => exact h.trans h'
  | ok flow m'' =>
      cases flow with
      | finished => exact h.trans h'
      | running next => exact ⟨h.trans h'.1, h'.2⟩

/-- A value is pushed, and a call goes on. -/
theorem Canonical.pushing {v : Value} (h : m.Canonical made)
    (known : ∀ t ∈ v.texts, m.heap.Knows made t) (reads : m.Reads made frame) :
    m.StepsTo made ((push v >>= fun _ => pure (Flow.running frame)) m) := by
  simp only [bind, EStateM.bind, push]
  by_cases full : m.config.maxStack ≤ m.stack.size
  · rw [if_pos full]
    exact h.refl
  · rw [if_neg full]
    refine ⟨h.restack m.callers m.sink (fun w mem => ?_) h.callers, reads⟩
    rcases Array.mem_push.mp mem with mem | rfl
    · exact h.knows w mem
    · exact known

/-- An instruction that neither calls nor returns. -/
theorem stepsTo_instruction {op : Opcode} {operand next : Nat} (h : m.Canonical made)
    (reads : m.Reads made frame) (notCall : op ≠ .call) (notReturn : op ≠ .return) :
    m.StepsTo made (executeInstruction { frame.atNext with ip := next } op operand m) := by
  have code : ∀ v ∈ frame.routine.chunk.constants, ∀ t ∈ v.texts, m.world.heap.Knows made t :=
    fun v mem t there => reads t (Routine.mem_texts.mpr (.inr ⟨v, mem, there⟩))
  have ran : executeInstruction { frame.atNext with ip := next } op operand m =
      (turn m.config.maxStack frame.routine.chunk frame.base next operand op m.operands
        m.world).result m.host m.log { frame.atNext with ip := next } := by
    conv_lhs => rw [← m.assembled_parts]
    exact executeInstruction_eq notCall notReturn
  have left : (turn m.config.maxStack frame.routine.chunk frame.base next operand op m.operands
      m.world).Leaves (Preserved made m.world) := leaves_turn h.world code
  rw [ran]
  generalize turn m.config.maxStack frame.routine.chunk frame.base next operand op m.operands
    m.world = result at left
  have becomes {stack : List Value} {world : World} (kept : Preserved made m.world stack world) :
      m.Becomes made (assembled m.host world stack m.log) := by
    refine ⟨⟨?_, fun f mem t there => (h.callers f mem t there).mono kept.2⟩, kept.2⟩
    rw [world_assembled, operands_assembled]
    exact kept.1
  cases result with
  | on pc stack world => exact ⟨becomes left, (becomes left).reads reads⟩
  | stop fault stack world => exact becomes left

/-- The strings in what a host function gives back are known: it has seen them, got them with an
argument, or made them. -/
theorem Canonical.native (h : m.Canonical made) (makes : ∀ t, m.Makes t → made t) (n : Native)
    (index : Nat) :
    match applyNative n index m with
    | .ok v m' => m.Becomes made m' ∧ m'.stack = m.stack ∧ ∀ t ∈ v.texts, m'.heap.Knows made t
    | .error _ m' => m.Becomes made m' := by
  have kept (sink : Sink) := h.restack m.callers sink h.knows h.callers
  have known := h.knows
  have names := h.world.names
  have bound := h.world.globals
  have ofFunction {f : NativeFunction} (there : m.natives[n.id]? = some f) {t : Text}
      (makesIt : f.Makes t) : made t := makes t ⟨f, Array.mem_of_getElem? there, makesIt⟩
  obtain ⟨config, loader, heap, globals, natives, sink, log, stack, callers⟩ := m
  unfold applyNative withSink
  dsimp only at ofFunction ⊢
  cases found : natives[n.id]? with
  | none => exact kept sink
  | some f =>
      dsimp only [Option.getD_some]
      cases ran : f ⟨globals, stack⟩ (stack.extract (index + 1)) sink with
      | error message sink' => exact kept sink'
      | ok v sink' =>
          refine ⟨kept sink', rfl, fun t mem => ?_⟩
          by_cases seen : NativeContext.Shows ⟨globals, stack⟩ t
          · cases seen with
            | name there => exact names _ _ there
            | global there mem => exact bound _ _ there t mem
            | operand there mem => exact known _ there t mem
          by_cases got : ∃ u ∈ stack.extract (index + 1), t ∈ u.texts
          · obtain ⟨u, there, mem⟩ := got
            refine known u ?_ t mem
            obtain ⟨i, below, rfl⟩ := Array.mem_iff_getElem.mp there
            simp
          · exact .inr (ofFunction found ⟨_, _, _, v, sink', ran, mem, seen, by simpa using got⟩)

/-- A value is called. -/
theorem stepsTo_call {count next : Nat} (h : m.Canonical made) (makes : ∀ t, m.Makes t → made t)
    (reads : m.Reads made frame) : m.StepsTo made (call { frame.atNext with ip := next } count m) := by
  by_cases short : m.stack.size < count + 1
  · have failed : call { frame.atNext with ip := next } count m = .error .stackUnderflow m := by
      simp only [call, bind, EStateM.bind, calleeIndex, if_pos short]
    rw [failed]
    exact h.refl
  obtain ⟨v, there⟩ : ∃ v, m.stack[m.stack.size - (count + 1)]? = some v :=
    ⟨_, Array.getElem?_eq_getElem (by omega)⟩
  have known := h.knows v (Array.mem_of_getElem? there)
  rw [call_eq m _ there short]
  cases kind : v.datum with
  | null | bool | number | string => exact h.refl
  | routine r =>
      have code : ∀ t ∈ r.texts, m.heap.Knows made t := by
        rw [Value.texts, kind] at known
        exact known
      simp only [calling, enterRoutine]
      split
      · exact h.refl
      · split
        · exact h.refl
        -- the suspended frame reads the code it was reading
        · refine ⟨h.restack _ m.sink h.knows fun f mem => ?_, code⟩
          rcases Array.mem_push.mp mem with mem | rfl
          · exact h.callers f mem
          · exact reads
  | native n =>
      have result := h.native makes n (m.stack.size - (count + 1))
      simp only [calling, bind, EStateM.bind]
      cases ran : applyNative n (m.stack.size - (count + 1)) m with
      | error fault m' =>
          rw [ran] at result
          exact result
      | ok w m' =>
          rw [ran] at result
          obtain ⟨became, same, texts⟩ := result
          have cut := became.canonical.restack m'.callers m'.sink
            (mem_shrink became.canonical.knows (m.stack.size - (count + 1))) became.canonical.callers
          exact (became.trans cut).steps (cut.canonical.pushing texts ((became.trans cut).reads reads))

/-- The running call returns. -/
theorem stepsTo_leave {next : Nat} (h : m.Canonical made) :
    m.StepsTo made (leave { frame.atNext with ip := next } m) := by
  simp only [leave, bind, EStateM.bind, pop]
  cases top : m.stack.back? with
  | none => exact h.refl
  | some v =>
      have known : ∀ t ∈ v.texts, m.heap.Knows made t := h.knows v (Array.mem_of_back? top)
      have popped : ∀ w ∈ m.stack.pop, ∀ t ∈ w.texts, m.heap.Knows made t :=
        fun w mem => h.knows w (mem_pop mem)
      have kept := mem_shrink popped frame.base
      simp only [truncate, resumeCaller, Frame.atNext]
      cases last : m.callers.back? with
      | none => exact h.restack m.callers m.sink kept h.callers
      | some caller =>
          have reads : m.Reads made caller := h.callers caller (Array.mem_of_back? last)
          have resumed := h.restack m.callers.pop m.sink kept
            fun f mem => h.callers f (mem_pop mem)
          exact resumed.steps (resumed.canonical.pushing known reads)

/-- A step leaves a canonical machine. -/
theorem stepsTo_step (h : m.Canonical made) (makes : ∀ t, m.Makes t → made t)
    (reads : m.Reads made frame) : m.StepsTo made (step frame m) := by
  cases code : frame.routine.chunk.decode frame.ip with
  | error e =>
      have failed : step frame m = .error (.ofDecodeError e) m := by
        simp only [step, code]
        rfl
      rw [failed]
      exact h.refl
  | ok instruction =>
      obtain ⟨op, operand, next⟩ := instruction
      rw [step_ok code]
      by_cases isCall : op = .call
      · subst isCall
        exact stepsTo_call h makes reads
      by_cases isReturn : op = .return
      · subst isReturn
        exact stepsTo_leave h
      exact stepsTo_instruction h reads isCall isReturn

end Steps

/-! ## Runs -/

section Runs

variable {m : Machine} {frame : Frame}

/-- A machine that differs in its log, or in its output. -/
theorem Canonical.relog (h : m.Canonical made) (log : Log) (sink : Sink) :
    m.Becomes made { m with log, sink } := ⟨⟨{ h.world with }, h.callers⟩, .refl _⟩

theorem Canonical.traced (h : m.Canonical made) (frame : Frame) :
    m.Becomes made (m.traced frame) := by
  unfold Machine.traced
  split
  · exact h.relog _ m.sink
  · exact h.refl

/-- Executing instructions keeps a machine canonical. -/
theorem Canonical.execute (limit : Nat) (h : m.Canonical made) (makes : ∀ t, m.Makes t → made t)
    (reads : m.Reads made frame) : m.Becomes made (execute limit frame m).2 := by
  induction limit generalizing frame m with
  | zero => exact h.refl
  | succ limit ih =>
      have begun := h.traced frame
      have still : (m.traced frame).Makes = m.Makes := (untouched_traced m frame).1.enters.makes
      have stepped := begun.steps (stepsTo_step begun.canonical (still ▸ makes) (begun.reads reads))
      have entered := enters_step_traced frame m
      cases ran : step frame (m.traced frame) with
      | error fault m' =>
          rw [ran] at stepped
          rw [execute_error ran]
          exact stepped
      | ok flow m' =>
          rw [ran] at stepped entered
          cases flow with
          | finished =>
              rw [execute_finished ran]
              exact stepped
          | running next =>
              rw [execute_running ran]
              exact stepped.1.trans (ih stepped.1.canonical (entered.makes ▸ makes) stepped.2)

theorem Canonical.clear (h : m.Canonical made) : m.Becomes made m.clear :=
  h.restack #[] m.sink (by simp) (by simp)

theorem Canonical.conclude (h : m.Canonical made) (halt : Halt) :
    m.Becomes made (m.conclude halt).2 := by
  have concluded := concludes halt m
  generalize m.conclude halt = result at concluded ⊢
  cases concluded with
  | finished frame log => exact h.relog log m.sink
  | unfinished => exact h.refl
  | refused | faulted => exact h.clear

/-- A run keeps a machine canonical, however it ends. -/
theorem Canonical.run (h : m.Canonical made) (makes : ∀ t, m.Makes t → made t) (limit : Nat)
    {script : Routine} (known : ∀ t ∈ script.texts, m.heap.Knows made t) :
    m.Becomes made (m.run limit script).2 := by
  have begun : m.Becomes made (m.begin script).2 :=
    h.restack #[] m.sink (by simpa using known) (by simp)
  have reads : (m.begin script).2.Reads made (m.begin script).1 := known
  have ran := begun.trans (begun.canonical.execute limit makes reads)
  exact ran.trans (ran.canonical.conclude
    (Machine.execute limit (m.begin script).1 (m.begin script).2).1)

end Runs

end Machine
end StackScript
