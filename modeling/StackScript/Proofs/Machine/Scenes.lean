import StackScript.Proofs.Machine.Reactions
import StackScript.Proofs.Shape.Part

/-!
# Runs of compiled code

While compiled code runs, the operand stack consists of the values of the active calls, one
above the other, and each value has its place in what the notes on its routine say.  A
`Scene` is a machine seen in this way; `Proceeds` says what a step can make of it, and
`step_reacts` that compiled code does nothing else.
-/

namespace StackScript

/-- A value that, if it is a routine, is that of a part of a program in the library. -/
def Value.Trusted (lib : Library) (v : Value) : Prop :=
  ∀ r, v.datum = .routine r → r.OneOf lib.holds

/-- Global variables whose values can be trusted. -/
def Globals.Trusted (lib : Library) (globals : Globals) : Prop :=
  ∀ (name : String) (g : Global), globals[name]? = some g → g.value.Trusted lib

/-- Host functions that make no routines of their own. -/
def Trustworthy (lib : Library) (natives : Array NativeFunction) : Prop :=
  ∀ f ∈ natives, ∀ context arguments sink v sink',
    (∀ v ∈ context.stack, v.Trusted lib) → context.globals.Trusted lib →
      (∀ v ∈ arguments, v.Trusted lib) → f context arguments sink = .ok v sink' → v.Trusted lib

variable {lib : Library}

theorem Value.Computed.trusted {v : Value} (h : v.Computed) : v.Trusted lib := by
  intro r same
  cases h <;> cases same

theorem Globals.Trusted.insert {globals : Globals} (h : globals.Trusted lib) (name : String) {g : Global}
    (trusted : g.value.Trusted lib) : Globals.Trusted lib (globals.insert name g) := by
  intro other found there
  rcases entry_of_insert there with ⟨-, rfl⟩ | old
  · exact trusted
  · exact h other found old

theorem Globals.Trusted.value {globals : Globals} (h : globals.Trusted lib) {name : String} {v : Value}
    (there : globals[name]?.map Global.value = some v) : v.Trusted lib := by
  obtain ⟨g, found, rfl⟩ := Option.map_eq_some_iff.mp there
  exact h name g found

/-- Whether a variable may be assigned to does not matter. -/
theorem Value.Trusted.copy {v : Value} (h : v.Trusted lib) : v.copy.Trusted lib := h

theorem Value.Trusted.constant {v : Value} (h : v.Trusted lib) : v.constant.Trusted lib := h

namespace Machine

/-- An active call of compiled code, and what each of its values is there for. -/
structure Active where
  layout : Layout
  part : Part
  frame : Frame
  /-- The newest value comes first. -/
  shape : List Slot
  values : List Value

namespace Active

/-- The notes on the routine. -/
def view (a : Active) : Nat → Option Note := a.part.noteAt a.layout

/-- The constants of the routine. -/
def pool (a : Active) : Pool := (a.part.coded a.layout).pool

/-- The call executes the routine of a part in the library, and there is a value for each
slot. -/
structure Sound (lib : Library) (a : Active) : Prop where
  held : lib.holds a.layout a.part
  routine : a.frame.routine = a.part.routine a.layout
  length : a.values.length = a.shape.length

/-- The call at another instruction. -/
def moved (a : Active) (pc : Nat) (shape : List Slot) (values : List Value) : Active :=
  { a with frame := { a.frame.atNext with ip := pc }, shape, values }

end Active

/-- The values of some calls, the innermost of which comes first. -/
def stackOf (calls : List Active) : List Value := calls.flatMap Active.values

/-- Calls that wait for others to return to them. -/
inductive Waiting (lib : Library) : List Active → Prop where
  | nil : Waiting lib []
  | cons {a : Active} {others : List Active} (sound : a.Sound lib)
      (leads : Leads a.view a.frame.ip (.temporary :: a.shape))
      (base : a.frame.base = (stackOf others).length) (rest : Waiting lib others) :
      Waiting lib (a :: others)

/-- A machine that executes compiled code. -/
structure Scene where
  running : Active
  /-- The innermost call comes first. -/
  waiting : List Active
  world : World

namespace Scene

/-- The operand stack, the top first. -/
def stack (s : Scene) : List Value := s.running.values ++ stackOf s.waiting

/-- The calls are as their notes say, and no code comes from anywhere else. -/
structure Sound (lib : Library) (s : Scene) : Prop where
  running : s.running.Sound lib
  noted : ∃ note, s.running.view s.running.frame.ip = some note ∧ note.shape = s.running.shape
  base : s.running.frame.base = (stackOf s.waiting).length
  waiting : Waiting lib s.waiting
  values : ∀ v ∈ s.stack, v.Trusted lib
  globals : s.world.globals.Trusted lib

/-- The machine that executes the given call is in this state. -/
structure Shows (s : Scene) (frame : Frame) (m : Machine) : Prop where
  frame : frame = s.running.frame
  world : m.world = s.world
  operands : m.operands = s.stack
  callers : m.callers.toList.reverse = s.waiting.map Active.frame

/-- What an instruction can make of the state of a machine. -/
inductive Proceeds (lib : Library) (natives : Array NativeFunction) (s : Scene) : Scene → Prop where
  /-- The running call goes on. -/
  | works {note next : Note} {shape : List Slot} {op : Opcode} {operand behind pc : Nat}
      {vs : List Value} {world : World} (here : s.running.view s.running.frame.ip = some note)
      (code : s.running.frame.routine.chunk.decode s.running.frame.ip = .ok ⟨op, operand, behind⟩)
      (notCall : op ≠ .call)
      (effect : Effect op s.running.pool note shape s.running.values s.world vs world)
      (there : s.running.view pc = some next) (becomes : Becomes shape next.shape) :
      Proceeds lib natives s ⟨s.running.moved pc next.shape vs, s.waiting, world⟩
  /-- A routine is called. -/
  | enters {note : Note} {rest : List Slot} {pc : Nat} {callee : Value} {arguments kept : List Value}
      {layout : Layout} {part : Part} (here : s.running.view s.running.frame.ip = some note)
      (silent : note.mention = none)
      (code : s.running.frame.routine.chunk.decode s.running.frame.ip =
        .ok ⟨.call, arguments.length, pc⟩)
      (top : note.shape = List.replicate (arguments.length + 1) .temporary ++ rest)
      (values : s.running.values = arguments.reverse ++ callee :: kept)
      (callable : callee.datum = .routine (part.routine layout)) (held : lib.holds layout part)
      (arity : arguments.length = part.arity) (leads : Leads s.running.view pc (.temporary :: rest)) :
      Proceeds lib natives s
        ⟨⟨layout, part, .enter (part.routine layout) (kept ++ stackOf s.waiting).length, part.entry,
          arguments.reverse ++ [callee]⟩, s.running.moved pc rest kept :: s.waiting, s.world⟩
  /-- A function of the host is called. -/
  | hosts {note next : Note} {rest : List Slot} {pc : Nat} {callee v : Value}
      {arguments kept : List Value} {n : Native} {f : NativeFunction} {sink : Sink}
      (here : s.running.view s.running.frame.ip = some note) (silent : note.mention = none)
      (code : s.running.frame.routine.chunk.decode s.running.frame.ip =
        .ok ⟨.call, arguments.length, pc⟩)
      (top : note.shape = List.replicate (arguments.length + 1) .temporary ++ rest)
      (values : s.running.values = arguments.reverse ++ callee :: kept)
      (callable : callee.datum = .native n) (known : natives[n.id]? = some f)
      (returned : f ⟨s.world.globals, s.stack.reverse.toArray⟩ arguments.toArray s.world.sink =
        .ok v sink)
      (there : s.running.view pc = some next) (becomes : Becomes (.temporary :: rest) next.shape) :
      Proceeds lib natives s
        ⟨s.running.moved pc next.shape (v :: kept), s.waiting, { s.world with sink }⟩
  /-- The running call returns. -/
  | leaves {note next : Note} {rest : List Slot} {v : Value} {vs : List Value} {caller : Active}
      {others : List Active} (here : s.running.view s.running.frame.ip = some note)
      (silent : note.mention = none) (top : note.shape = .temporary :: rest) (values : s.running.values = v :: vs)
      (waits : s.waiting = caller :: others)
      (there : caller.view caller.frame.ip = some next)
      (becomes : Becomes (.temporary :: caller.shape) next.shape) :
      Proceeds lib natives s
        ⟨{ caller with shape := next.shape, values := v :: caller.values }, others, s.world⟩

/-- How an assignment to a constant is refused. -/
inductive Refuses (s : Scene) : Option String → Prop where
  | ofLocal {note : Note} {name : String} {k : Nat} {b : Binding} {old : Value}
      (here : s.running.view s.running.frame.ip = some note)
      (mention : note.mention = some (.write name))
      (found : innermost name note.scope = some (k, b))
      (there : slotOf s.running.values k = some old) (constant : old.assignable = false) :
      Refuses s none
  | ofGlobal {note : Note} {name : String} {text : Text} {old : Value}
      (here : s.running.view s.running.frame.ip = some note)
      (mention : note.mention = some (.write name)) (missing : innermost name note.scope = none)
      (same : s.running.pool.heap.Valid → text.chars = name)
      (defined : s.world.globals[text.chars]?.map Global.value = some old)
      (constant : old.assignable = false) :
      Refuses s (some text.chars)

/-- What comes of a step of compiled code. -/
inductive Reaction (lib : Library) (natives : Array NativeFunction) (s : Scene) :
    EStateM.Result Fault Machine Flow → Prop where
  | goesOn {s' : Scene} {next : Frame} {m : Machine} (proceeds : s.Proceeds lib natives s')
      (shows : s'.Shows next m) (same : m.natives = natives) :
      Reaction lib natives s (.ok (.running next) m)
  | finishes {note : Note} {m : Machine} (here : s.running.view s.running.frame.ip = some note)
      (silent : note.mention = none) (last : s.waiting = []) :
      Reaction lib natives s (.ok .finished m)
  | fails {note : Note} {fault : Fault} {m : Machine}
      (here : s.running.view s.running.frame.ip = some note) (language : fault.ofLanguage = true)
      (other : fault.refuses = false) (unknown : Unknown s.running.pool note s.world) :
      Reaction lib natives s (.error fault m)
  | refuses {name : Option String} {m : Machine} (refused : s.Refuses name) :
      Reaction lib natives s (.error (.assignToConstant name) m)

end Scene

/-! ## What can be trusted -/

section Trusted

variable {op : Opcode} {view : Nat → Option Note} {pool : Pool} {note : Note} {shape : List Slot}
  {vs vs' : List Value} {world world' : World}

theorem mem_of_slotOf {stack : List Value} {k : Nat} {v : Value} (h : slotOf stack k = some v) :
    v ∈ stack := List.mem_reverse.mp (List.mem_of_getElem? h)

theorem mem_withSlot {stack : List Value} {k : Nat} {v w : Value} (h : w ∈ withSlot stack k v) :
    w ∈ stack ∨ w = v := by
  unfold withSlot at h
  rcases List.mem_or_eq_of_mem_set (List.mem_reverse.mp h) with mem | same
  · exact .inl (List.mem_reverse.mp mem)
  · exact .inr same

/-- An instruction makes no untrusted values. -/
theorem Effect.trusted (h : Effect op pool note shape vs world vs' world')
    (constants : ∀ v ∈ pool.constants, v.Trusted lib) (values : ∀ v ∈ vs, v.Trusted lib)
    (globals : world.globals.Trusted lib) :
    (∀ v ∈ vs', v.Trusted lib) ∧ world'.globals.Trusted lib := by
  cases h with
  | stays => exact ⟨values, globals⟩
  | drops => exact ⟨(List.forall_mem_cons.mp values).2, globals⟩
  | computes taken kept world heap silent top computed =>
      exact ⟨List.forall_mem_cons.mpr ⟨computed.trusted,
        (List.forall_mem_append.mp values).2⟩, globals⟩
  | loads _ _ _ constant => exact ⟨List.forall_mem_cons.mpr ⟨constants _ constant, values⟩, globals⟩
  | readsLocal _ _ _ _ there =>
      exact ⟨List.forall_mem_cons.mpr ⟨(values _ (mem_of_slotOf there)).copy, values⟩, globals⟩
  | readsGlobal _ _ _ _ _ defined =>
      exact ⟨List.forall_mem_cons.mpr ⟨(globals.value defined).copy, values⟩, globals⟩
  | writesLocal v kept =>
      refine ⟨fun w mem => ?_, globals⟩
      rcases mem_withSlot mem with mem | rfl
      · exact values w mem
      · exact values w (List.mem_cons_self ..)
  | writesGlobal v kept =>
      exact ⟨values, globals.insert _ (values v (List.mem_cons_self ..))⟩
  | defines v kept =>
      exact ⟨(List.forall_mem_cons.mp values).2,
        globals.insert _ (values v (List.mem_cons_self ..))⟩
  | seals v kept =>
      obtain ⟨top, others⟩ := List.forall_mem_cons.mp values
      exact ⟨List.forall_mem_cons.mpr ⟨top.constant, others⟩, globals⟩

end Trusted

/-- The constants of a part of a program can be trusted. -/
theorem trusted_constants {layout : Layout} {p : Part} (held : lib.holds layout p) :
    ∀ v ∈ (p.coded layout).pool.constants, v.Trusted lib :=
  fun v mem r same => lib.closed held v mem r same

/-! ## Steps keep scenes sound -/

section Sound

@[simp] theorem stackOf_cons (a : Active) (others : List Active) :
    stackOf (a :: others) = a.values ++ stackOf others := rfl

theorem Active.Sound.moved {a : Active} (h : a.Sound lib) (pc : Nat) {shape : List Slot}
    {values : List Value} (length : values.length = shape.length) :
    (a.moved pc shape values).Sound lib := ⟨h.held, h.routine, length⟩

variable {natives : Array NativeFunction} {s s' : Scene}

/-- Arguments and callee lie on top of what is kept. -/
theorem Scene.Sound.split {note : Note} {rest : List Slot} {callee : Value}
    {arguments kept : List Value} (h : s.Sound lib)
    (here : s.running.view s.running.frame.ip = some note)
    (top : note.shape = List.replicate (arguments.length + 1) .temporary ++ rest)
    (values : s.running.values = arguments.reverse ++ callee :: kept) :
    kept.length = rest.length ∧ (∀ v ∈ arguments, v.Trusted lib) ∧ callee.Trusted lib ∧
      (∀ v ∈ kept, v.Trusted lib) ∧ ∀ v ∈ stackOf s.waiting, v.Trusted lib := by
  obtain ⟨note', there, shape⟩ := h.noted
  obtain rfl : note = note' := Option.some.inj (here.symm.trans there)
  have length := h.running.length
  rw [values, ← shape, top] at length
  simp only [List.length_append, List.length_reverse, List.length_cons, List.length_replicate]
    at length
  have trusted := h.values
  simp only [Scene.stack, values, List.forall_mem_append, List.forall_mem_cons] at trusted
  obtain ⟨⟨given, callable, others⟩, below⟩ := trusted
  exact ⟨by omega, fun v mem => given v (List.mem_reverse.mpr mem), callable, others, below⟩

/-- A step of compiled code leads from one sound scene to another. -/
theorem Scene.Proceeds.sound (h : s.Proceeds lib natives s') (sound : s.Sound lib)
    (trustworthy : Trustworthy lib natives) : s'.Sound lib := by
  cases h with
  | @works note next shape op operand behind pc vs world here code notCall effect there becomes =>
      obtain ⟨note', found, same⟩ := sound.noted
      obtain rfl : note = note' := Option.some.inj (here.symm.trans found)
      have length := effect.length (sound.running.length.trans (congrArg List.length same.symm))
      obtain ⟨values, waiting⟩ := List.forall_mem_append.mp sound.values
      obtain ⟨values, globals⟩ :=
        effect.trusted (trusted_constants sound.running.held) values sound.globals
      exact ⟨sound.running.moved pc (length.trans becomes.length), ⟨next, there, rfl⟩, sound.base,
        sound.waiting, List.forall_mem_append.mpr ⟨values, waiting⟩, globals⟩
  | @enters note rest pc callee arguments kept layout part here silent code top values callable held arity leads =>
      obtain ⟨length, given, callee_trusted, others, below⟩ := sound.split here top values
      constructor
      · refine ⟨held, rfl, ?_⟩
        simp only [List.length_append, List.length_reverse, List.length_singleton, Part.entry,
          Part.view, List.length_map, (lib.fine held).slots, arity]
      · exact (lib.fine held).enters
      · rfl
      · exact .cons (sound.running.moved pc length) leads sound.base sound.waiting
      · simp only [Scene.stack, stackOf_cons, List.forall_mem_append, List.mem_reverse,
          List.forall_mem_singleton]
        exact ⟨⟨given, callee_trusted⟩, others, below⟩
      · exact sound.globals
  | @hosts note next rest pc callee v arguments kept n f sink here silent code top values callable known returned
      there becomes =>
      obtain ⟨length, given, -, others, below⟩ := sound.split here top values
      -- a host function gives back only what it could trust
      have trusted : v.Trusted lib := by
        refine trustworthy f (Array.mem_of_getElem? known) _ _ _ _ _ ?_ sound.globals ?_ returned
        · intro w mem
          exact sound.values w (by simpa using mem)
        · intro w mem
          exact given w (by simpa using mem)
      refine ⟨sound.running.moved pc ?_, ⟨next, there, rfl⟩, sound.base, sound.waiting, ?_,
        sound.globals⟩
      · rw [← becomes.length, List.length_cons, List.length_cons, length]
      · exact List.forall_mem_append.mpr ⟨List.forall_mem_cons.mpr ⟨trusted, others⟩, below⟩
  | @leaves note next rest v vs caller others here silent top values waits there becomes =>
      have waiting := sound.waiting
      have trusted := sound.values
      rw [waits] at waiting
      rw [Scene.stack, values, waits] at trusted
      simp only [stackOf_cons, List.cons_append, List.forall_mem_cons, List.forall_mem_append]
        at trusted
      cases waiting with
      | cons resumed leads base rest =>
          refine ⟨⟨resumed.held, resumed.routine, ?_⟩, ⟨next, there, rfl⟩, base, rest, ?_,
            sound.globals⟩
          · rw [← becomes.length, List.length_cons, List.length_cons, resumed.length]
          · simp only [Scene.stack, List.cons_append, List.forall_mem_cons, List.forall_mem_append]
            exact ⟨trusted.1, trusted.2.2.1, trusted.2.2.2⟩

end Sound

/-! ## What a step can make of a scene -/

section Steps

variable {s : Scene} {frame : Frame} {m : Machine} {note : Note} {a : Asm}

theorem Scene.Shows.assembled (h : s.Shows frame m) :
    m = Machine.assembled m.host s.world s.stack m.log := by
  rw [← h.world, ← h.operands]
  exact m.assembled_parts.symm

/-- A machine with the same calls waiting. -/
theorem Scene.Shows.of_assembled (h : s.Shows frame m) {running : Active} {world : World}
    {stack : List Value} (same : stack = running.values ++ stackOf s.waiting) :
    Scene.Shows ⟨running, s.waiting, world⟩ running.frame
      (Machine.assembled m.host world stack m.log) where
  frame := rfl
  world := rfl
  operands := by rw [operands_assembled, same]; rfl
  callers := h.callers

/-- Of the values that an instruction takes, the last taken is the lowest. -/
theorem exists_callStack {count : Nat} {values : List Value} {rest : List Slot}
    (length : values.length = (List.replicate (count + 1) Slot.temporary ++ rest).length) :
    ∃ (arguments : List Value) (callee : Value) (kept : List Value), arguments.length = count ∧
      values = arguments.reverse ++ callee :: kept := by
  obtain ⟨taken, kept, rfl, size, -⟩ := split_taken length
  obtain ⟨front, callee, rfl⟩ : ∃ front callee, taken = front ++ [callee] := by
    rcases List.eq_nil_or_concat' taken with rfl | ⟨front, callee, same⟩
    · cases size
    · exact ⟨front, callee, same⟩
  rw [List.length_append, List.length_singleton] at size
  exact ⟨front.reverse, callee, kept, by rw [List.length_reverse]; omega, by simp⟩

/-- A value is called. -/
theorem reacts_call (sound : s.Sound lib) (shows : s.Shows s.running.frame m)
    (here : s.running.view s.running.frame.ip = some note)
    (length : s.running.values.length = note.shape.length)
    (code : s.running.frame.routine.chunk.decode s.running.frame.ip =
      .ok ⟨a.opcode, a.operand, s.running.frame.ip + a.size⟩)
    (obeys : a.Obeys s.running.view s.running.pool s.running.frame.ip note)
    (isCall : a.opcode = .call) :
    s.Reaction lib m.natives
      (call { s.running.frame.atNext with ip := s.running.frame.ip + a.size } a.operand m) := by
  obtain ⟨rest, top, leads⟩ := obeys.worked (by simp [isCall]) (by simp [isCall]) (by simp [isCall])
  have silent := obeys.silent (by rw [isCall]; rfl)
  have unknown : Unknown s.running.pool note s.world := .of_silent silent
  obtain ⟨op, operand⟩ := a
  obtain rfl : op = .call := isCall
  replace top : note.shape = List.replicate (operand + 1) .temporary ++ rest := top
  replace leads : Leads s.running.view (s.running.frame.ip + Asm.size ⟨.call, operand⟩)
      (.temporary :: rest) := leads _ (List.mem_singleton_self _)
  generalize s.running.frame.ip + Asm.size ⟨.call, operand⟩ = next at leads code
  obtain ⟨arguments, callee, kept, rfl, values⟩ := exists_callStack (top ▸ length)
  have stack : s.stack = callStack callee arguments (kept ++ stackOf s.waiting) := by
    simp [Scene.stack, values, callStack]
  have trusted := (sound.split here top values).2.2.1
  rw [shows.assembled, stack, call_assembled]
  cases kind : callee.datum with
  | null | bool | number | string => exact .fails here rfl rfl unknown
  | routine r =>
      obtain ⟨layout, part, held, rfl⟩ := trusted r kind
      simp only [calling, enterRoutine]
      split
      · exact .fails here rfl rfl unknown
      · rename_i arity
        split
        · exact .fails here rfl rfl unknown
        · refine .goesOn (.enters here silent code top values kind held (Decidable.not_not.mp arity) leads)
            ⟨rfl, rfl, ?_, ?_⟩ rfl
          · show (assembled m.host s.world _ m.log).operands = _
            simp [Scene.stack, callStack, Active.moved]
          · have callers := shows.callers
            simp only [Array.toList_push, List.reverse_append, List.reverse_singleton,
              List.singleton_append, List.map_cons]
            exact congrArg _ callers
  | native n =>
      simp only [calling, bind, EStateM.bind, applyNative_assembled, withSink_assembled]
      -- an identity without a host function behind it is called like a function that fails
      cases known : m.natives[n.id]? with
      | none =>
          have missing : m.host.native n = fun _ _ => throw "unknown host function" := by
            simp only [Host.native, host, known, Option.getD_none]
          rw [missing]
          exact .fails here rfl rfl unknown
      | some f =>
          have same : m.host.native n = f := by
            simp only [Host.native, host, known, Option.getD_some]
          rw [same]
          cases returned : f ⟨s.world.globals,
              (callStack callee arguments (kept ++ stackOf s.waiting)).reverse.toArray⟩
              arguments.toArray s.world.sink with
          | error message sink => exact .fails here rfl rfl unknown
          | ok v sink =>
              simp only [truncate_callStack, push_assembled]
              by_cases full : m.host.config.maxStack ≤ (kept ++ stackOf s.waiting).length
              · simp only [if_pos full]
                exact .fails here rfl rfl unknown
              · simp only [if_neg full]
                obtain ⟨onward, there, becomes⟩ := leads
                rw [← stack] at returned
                exact .goesOn (.hosts here silent code top values kind known returned there becomes)
                  (shows.of_assembled rfl) rfl

section Callers

variable {host : Host} (world : World) (stack : List Value) (log : Log)

/-- There is no call to return to. -/
theorem resumeCaller_nil (none : host.callers.toList.reverse = []) :
    resumeCaller (assembled host world stack log) = .ok .none (assembled host world stack log) := by
  rw [List.reverse_eq_nil_iff, Array.toList_eq_nil_iff] at none
  simp [resumeCaller, assembled, none]

/-- The innermost of the waiting calls is returned to. -/
theorem resumeCaller_cons {caller : Frame} {others : List Frame}
    (waiting : host.callers.toList.reverse = caller :: others) :
    resumeCaller (assembled host world stack log) =
        .ok (some caller) (assembled { host with callers := host.callers.pop } world stack log) ∧
      host.callers.pop.toList.reverse = others := by
  obtain ⟨config, loader, natives, ⟨callers⟩⟩ := host
  obtain rfl : callers = others.reverse ++ [caller] := by
    rw [← callers.reverse_reverse, show callers.reverse = caller :: others from waiting]
    simp
  simp [resumeCaller, assembled]

end Callers

/-- The running call returns. -/
theorem reacts_return (sound : s.Sound lib) (shows : s.Shows s.running.frame m)
    (here : s.running.view s.running.frame.ip = some note)
    (length : s.running.values.length = note.shape.length)
    (obeys : a.Obeys s.running.view s.running.pool s.running.frame.ip note)
    (isReturn : a.opcode = .return) (next : Nat) :
    s.Reaction lib m.natives (leave { s.running.frame.atNext with ip := next } m) := by
  obtain ⟨rest, top, -⟩ := obeys.worked (by simp [isReturn]) (by simp [isReturn])
    (by simp [isReturn])
  have silent := obeys.silent (by rw [isReturn]; rfl)
  have unknown : Unknown s.running.pool note s.world := .of_silent silent
  obtain ⟨op, operand⟩ := a
  obtain rfl : op = .return := isReturn
  replace top : note.shape = .temporary :: rest := top
  obtain ⟨v, vs, values⟩ := exists_cons (top ▸ length)
  have stack : s.stack = v :: (vs ++ stackOf s.waiting) := by
    rw [Scene.stack, values]
    rfl
  rw [shows.assembled, stack]
  simp only [leave, bind, EStateM.bind, pop_assembled]
  rw [truncate_assembled _ _ _ _ _ _ (show (stackOf s.waiting).length =
    ({ s.running.frame.atNext with ip := next } : Frame).base from sound.base.symm)]
  have callers : m.host.callers.toList.reverse = s.waiting.map Active.frame := shows.callers
  cases waits : s.waiting with
  | nil =>
      rw [waits] at callers
      simp only [resumeCaller_nil _ _ _ callers]
      exact .finishes here silent waits
  | cons caller others =>
      rw [waits] at callers
      obtain ⟨resumed, rest⟩ := resumeCaller_cons s.world (stackOf (caller :: others)) m.log
        callers
      simp only [resumed, EStateM.bind, push_assembled]
      have waiting := sound.waiting
      rw [waits] at waiting
      cases waiting with
      | cons sound leads =>
          obtain ⟨onward, there, becomes⟩ := leads
          by_cases full : m.host.config.maxStack ≤ (stackOf (caller :: others)).length
          · simp only [if_pos full]
            exact .fails here rfl rfl unknown
          · simp only [if_neg full]
            refine .goesOn (.leaves here silent top values waits there becomes) ⟨rfl, rfl, ?_, rest⟩ rfl
            rw [operands_assembled]
            rfl

/-- Compiled code does nothing that is not listed. -/
theorem step_reacts (sound : s.Sound lib) (shows : s.Shows frame m) :
    s.Reaction lib m.natives (step frame m) := by
  obtain ⟨note, here, shape⟩ := sound.noted
  obtain ⟨a, code, obeys⟩ := (lib.fine sound.running.held).follows _ _ here
  rw [← sound.running.routine] at code
  have length : s.running.values.length = note.shape.length := by
    rw [sound.running.length, shape]
  obtain rfl : frame = s.running.frame := shows.frame
  rw [step_ok code]
  -- calls and returns change the active calls; everything else is a turn of the running one
  by_cases isCall : a.opcode = .call
  · rw [isCall]
    exact reacts_call sound shows here length code obeys isCall
  by_cases isReturn : a.opcode = .return
  · rw [isReturn]
    exact reacts_return sound shows here length obeys isReturn _
  have constants : s.running.pool.constants = s.running.frame.routine.chunk.constants := by
    rw [sound.running.routine]
    rfl
  have reacts : Reacts a.opcode s.running.view s.running.pool note s.running.values (stackOf s.waiting) s.world
      (turn m.host.config.maxStack s.running.frame.routine.chunk (stackOf s.waiting).length
        (s.running.frame.ip + a.size) a.operand a.opcode s.stack s.world) :=
    obeys_turn constants length obeys isCall isReturn
  rw [← sound.base] at reacts
  rw [shows.assembled, executeInstruction_eq isCall isReturn]
  dsimp only [Frame.atNext]
  generalize turn m.host.config.maxStack s.running.frame.routine.chunk s.running.frame.base
    (s.running.frame.ip + a.size) a.operand a.opcode s.stack s.world = result at reacts
  cases reacts with
  | on leads effect =>
      obtain ⟨next, there, becomes⟩ := leads
      exact .goesOn (.works here code isCall effect there becomes) (shows.of_assembled rfl) rfl
  | fails language other unknown => exact .fails here language other unknown
  | refusesLocal mention found there constant =>
      exact .refuses (.ofLocal here mention found there constant)
  | refusesGlobal mention missing same defined constant =>
      exact .refuses (.ofGlobal here mention missing same defined constant)

end Steps

end Machine
end StackScript
