import StackScript.Proofs.Code.Parallel
import StackScript.Proofs.Machine.Steps
import StackScript.Proofs.Value.Twins

/-!
# Two machines in tandem

Two machines that correspond part by part stay so while they take the same steps: both go on
with results that correspond, or both fail with the same fault.  `Tandem` says so of two
computations, and is shown for every part of an instruction.  The calls of the machines
correspond in a way that is left open here (`calls`), so their code need not be the same.
-/

namespace StackScript

/-- Global variables that correspond. -/
structure Global.Like (pairs : Routine → Routine → Prop) (g g' : Global) : Prop where
  name : g.name.chars = g'.name.chars
  value : g.value.Like pairs g'.value

/-- The same names are bound, to values that correspond. -/
def Globals.Like (pairs : Routine → Routine → Prop) (globals globals' : Globals) : Prop :=
  ∀ name : String, Option.Rel (Global.Like pairs) globals[name]? globals'[name]?

/-- Routines that look the same to a host function. -/
def Routine.Looks (r r' : Routine) : Prop :=
  r.name.map Text.chars = r'.name.map Text.chars ∧ r.arity = r'.arity

/-- Two outputs that left the same behind, with results that correspond. -/
inductive Output.Answers {α β : Type} (like : α → β → Prop) :
    EStateM.Result String Sink α → EStateM.Result String Sink β → Prop where
  | ok {a : α} {b : β} (result : like a b) (sink : Sink) : Answers like (.ok a sink) (.ok b sink)
  | error (message : String) (sink : Sink) : Answers like (.error message sink) (.error message sink)

/-- A host function that does not look into routines, and takes none from the stack: it does
the same for values that correspond. -/
def NativeFunction.Uniform (f : NativeFunction) : Prop :=
  ∀ (pairs : Routine → Routine → Prop) (context context' : NativeContext)
    (arguments arguments' : Array Value) (sink : Sink), Respectful pairs →
      context.globals.Like pairs context'.globals →
      List.Forall₂ (Value.Like Routine.Looks) context.stack.toList context'.stack.toList →
      List.Forall₂ (Value.Like pairs) arguments.toList arguments'.toList →
        Output.Answers (Value.Like pairs) (f context arguments sink) (f context' arguments' sink)

theorem Global.Like.imp {pairs more : Routine → Routine → Prop} {g g' : Global} (h : g.Like pairs g')
    (le : ∀ r r', g.value.datum = .routine r → pairs r r' → more r r') : g.Like more g' :=
  ⟨h.name, h.value.imp le⟩

theorem Globals.Like.imp {pairs more : Routine → Routine → Prop} {globals globals' : Globals}
    (h : globals.Like pairs globals') (le : ∀ (name : String) (g : Global) (r r' : Routine),
      globals[name]? = some g → g.value.datum = .routine r → pairs r r' → more r r') :
    globals.Like more globals' := by
  intro name
  have there := h name
  cases found : globals[name]? with
  | none =>
      rw [found] at there
      generalize globals'[name]? = g' at there
      cases there with
      | none => exact .none
  | some g =>
      rw [found] at there
      generalize globals'[name]? = g' at there
      cases there with
      | some like => exact .some (like.imp fun r r' => le name g r r' found)

theorem Globals.Like.insert {pairs : Routine → Routine → Prop} {globals globals' : Globals}
    (h : globals.Like pairs globals') {name name' : String} {g g' : Global} (same : name = name')
    (like : g.Like pairs g') : Globals.Like pairs (globals.insert name g) (globals'.insert name' g') := by
  subst same
  intro other
  rw [Std.TreeMap.getElem?_insert, Std.TreeMap.getElem?_insert]
  split
  · exact .some like
  · exact h other

namespace Machine

/-- Two machines that correspond: routines as the pairs say, and calls in a given way. -/
structure Like (pairs : Routine → Routine → Prop) (calls : Frame → Frame → Prop) (made : Nat)
    (m m' : Machine) : Prop where
  config : m.config = m'.config
  natives : m.natives = m'.natives
  sink : m.sink = m'.sink
  globals : m.globals.Like pairs m'.globals
  stack : List.Forall₂ (Value.Like pairs) m.stack.toList m'.stack.toList
  callers : List.Forall₂ calls m.callers.toList m'.callers.toList
  uniform : ∀ f ∈ m.natives, f.Uniform
  valid : m.heap.Valid
  valid' : m'.heap.Valid
  /-- The first machine makes no routines. -/
  routines : m.heap.routines = made

/-- Two results of machines that correspond. -/
inductive Results {α β : Type} (same : Machine → Machine → Prop) (like : α → β → Prop) :
    EStateM.Result Fault Machine α → EStateM.Result Fault Machine β → Prop where
  | ok {a : α} {b : β} {m m' : Machine} (result : like a b) (after : same m m') :
      Results same like (.ok a m) (.ok b m')
  | error (fault : Fault) {m m' : Machine} (after : same m m') :
      Results same like (.error fault m) (.error fault m')

/-- Two computations end alike if they begin in machines that correspond. -/
def Tandem {α β : Type} (same : Machine → Machine → Prop) (like : α → β → Prop) (x : Exec α)
    (y : Exec β) : Prop :=
  ∀ m m', same m m' → Results same like (x m) (y m')

section

variable {α β γ δ : Type} {same : Machine → Machine → Prop} {like : α → β → Prop}

theorem tandem_pure {a : α} {b : β} (h : like a b) : Tandem same like (pure a) (pure b) :=
  fun _ _ before => .ok h before

theorem tandem_throw (fault : Fault) :
    Tandem same like (throw fault : Exec α) (throw fault : Exec β) :=
  fun _ _ before => .error fault before

theorem Tandem.bind {x : Exec α} {y : Exec β} {f : α → Exec γ} {g : β → Exec δ}
    {final : γ → δ → Prop} (first : Tandem same like x y)
    (then_ : ∀ a b, like a b → Tandem same final (f a) (g b)) :
    Tandem same final (x >>= f) (y >>= g) := by
  intro m m' before
  have here := first m m' before
  simp only [Bind.bind, EStateM.bind]
  generalize x m = left at here
  generalize y m' = right at here
  cases here with
  | ok result after => exact then_ _ _ result _ _ after
  | error fault after => exact .error fault after

theorem Tandem.discard {x : Exec α} {y : Exec β} (h : Tandem same like x y) :
    Tandem same (fun _ _ => True) (Functor.discard x) (Functor.discard y) := by
  intro m m' before
  have here := h m m' before
  simp only [Functor.discard, Functor.mapConst, EStateM.map, Function.comp]
  generalize x m = left at here
  generalize y m' = right at here
  cases here with
  | ok result after => exact .ok trivial after
  | error fault after => exact .error fault after

end

/-! ## The parts of instructions -/

section Arrays

variable {α β : Type} {like : α → β → Prop} {xs : Array α} {ys : Array β}
  (h : List.Forall₂ like xs.toList ys.toList)

include h

theorem size_eq_of_rel : xs.size = ys.size := by simpa using h.length_eq

theorem rel_array (i : Nat) : Option.Rel like xs[i]? ys[i]? := by simpa using rel_getElem? h i

theorem rel_push {a : α} {b : β} (last : like a b) :
    List.Forall₂ like (xs.push a).toList (ys.push b).toList := by
  rw [Array.toList_push, Array.toList_push]
  exact List.rel_append h (.cons last .nil)

theorem rel_shrink (n : Nat) : List.Forall₂ like (xs.shrink n).toList (ys.shrink n).toList := by
  rw [Array.shrink_eq_take, Array.shrink_eq_take]
  simpa using List.forall₂_take n h

theorem rel_pop : List.Forall₂ like xs.pop.toList ys.pop.toList := by
  rw [Array.toList_pop, Array.toList_pop, List.dropLast_eq_take, List.dropLast_eq_take, h.length_eq]
  exact List.forall₂_take _ h

theorem rel_extract (i j : Nat) :
    List.Forall₂ like (xs.extract i j).toList (ys.extract i j).toList := by
  rw [Array.toList_extract, Array.toList_extract]
  exact List.forall₂_take _ (List.forall₂_drop i h)

theorem rel_set {a : α} {b : β} (new : like a b) (i : Nat) :
    List.Forall₂ like (xs.setIfInBounds i a).toList (ys.setIfInBounds i b).toList := by
  rw [Array.toList_setIfInBounds, Array.toList_setIfInBounds]
  generalize xs.toList = l at h
  generalize ys.toList = l' at h
  induction h generalizing i with
  | nil => exact .nil
  | cons first rest ih =>
      cases i with
      | zero => exact .cons new rest
      | succ i => exact .cons first (ih i)

end Arrays

section Parts

variable {pairs : Routine → Routine → Prop} {calls : Frame → Frame → Prop} {made : Nat}

theorem tandem_push {v v' : Value} (like : v.Like pairs v') :
    Tandem (Like pairs calls made) (fun _ _ => True) (push v) (push v') := by
  intro m m' h
  have size := size_eq_of_rel h.stack
  unfold push
  by_cases full : m.config.maxStack ≤ m.stack.size
  · rw [if_pos full, if_pos (by rwa [← h.config, ← size])]
    exact .error _ h
  · rw [if_neg full, if_neg (by rwa [← h.config, ← size])]
    exact .ok trivial { h with stack := rel_push h.stack like }

theorem tandem_pop : Tandem (Like pairs calls made) (Value.Like pairs) pop pop := by
  intro m m' h
  have top := rel_array h.stack (m.stack.size - 1)
  unfold pop
  rw [Array.back?_eq_getElem?, Array.back?_eq_getElem?, ← size_eq_of_rel h.stack]
  generalize m.stack[m.stack.size - 1]? = v at top
  generalize m'.stack[m.stack.size - 1]? = v' at top
  cases top with
  | none => exact .error _ h
  | some like => exact .ok like { h with stack := rel_pop h.stack }

theorem tandem_slot (index : Nat) :
    Tandem (Like pairs calls made) (Value.Like pairs) (slot index) (slot index) := by
  intro m m' h
  have there := rel_array h.stack index
  unfold slot
  generalize m.stack[index]? = v at there
  generalize m'.stack[index]? = v' at there
  cases there with
  | none => exact .error _ h
  | some like => exact .ok like h

theorem tandem_peek (distance : Nat) :
    Tandem (Like pairs calls made) (Value.Like pairs) (peek distance) (peek distance) := by
  intro m m' h
  have there := tandem_slot (m.stack.size - (distance + 1)) m m' h
  unfold peek
  rw [← size_eq_of_rel h.stack]
  split
  · exact .error _ h
  · exact there

theorem tandem_truncate (height : Nat) :
    Tandem (Like pairs calls made) (fun _ _ => True) (truncate height) (truncate height) :=
  fun _ _ h => .ok trivial { h with stack := rel_shrink h.stack height }

theorem tandem_drop (count : Nat) :
    Tandem (Like pairs calls made) (fun _ _ => True) (drop count) (drop count) := by
  intro m m' h
  refine .ok trivial { h with stack := ?_ }
  show List.Forall₂ _ (m.stack.shrink _).toList (m'.stack.shrink _).toList
  rw [size_eq_of_rel h.stack]
  exact rel_shrink h.stack _

theorem tandem_setSlot (index : Nat) {v v' : Value} (like : v.Like pairs v') :
    Tandem (Like pairs calls made) (fun _ _ => True) (setSlot index v) (setSlot index v') :=
  fun _ _ h => .ok trivial { h with stack := rel_set h.stack like index }

theorem tandem_globalValue {name name' : Text} (same : name.chars = name'.chars) :
    Tandem (Like pairs calls made) (Value.Like pairs) (globalValue name) (globalValue name') := by
  intro m m' h
  have there := h.globals name.chars
  unfold globalValue global?
  rw [← same]
  generalize m.globals[name.chars]? = g at there
  generalize m'.globals[name.chars]? = g' at there
  cases there with
  | none => exact .error _ h
  | some like => exact .ok like.value h

theorem tandem_setGlobal {name name' : Text} (same : name.chars = name'.chars) {v v' : Value}
    (like : v.Like pairs v') :
    Tandem (Like pairs calls made) (fun _ _ => True) (setGlobal name v) (setGlobal name' v') :=
  fun _ _ h => .ok trivial { h with globals := h.globals.insert same ⟨same, like⟩ }

theorem tandem_intern (chars : String) :
    Tandem (Like pairs calls made) (fun t t' => t.chars = t'.chars) (intern chars) (intern chars) := by
  intro m m' h
  have text : (m.heap.intern chars).1.chars = chars := h.valid.chars_text chars
  have text' : (m'.heap.intern chars).1.chars = chars := h.valid'.chars_text chars
  exact .ok (text.trans text'.symm)
    { h with valid := h.valid.intern chars, valid' := h.valid'.intern chars, routines := h.routines }

theorem tandem_resumeCaller :
    Tandem (Like pairs calls made) (Option.Rel calls) resumeCaller resumeCaller := by
  intro m m' h
  have top := rel_array h.callers (m.callers.size - 1)
  unfold resumeCaller
  rw [Array.back?_eq_getElem?, Array.back?_eq_getElem?, ← size_eq_of_rel h.callers]
  generalize m.callers[m.callers.size - 1]? = f at top
  generalize m'.callers[m.callers.size - 1]? = f' at top
  cases top with
  | none => exact .ok .none h
  | some like => exact .ok (.some like) { h with callers := rel_pop h.callers }

theorem tandem_constant {chunk chunk' : Chunk} {i i' : Nat}
    (there : Option.Rel (Value.Like pairs) chunk.constants[i]? chunk'.constants[i']?)
    (missing : chunk.constants[i]? = none → i = i') :
    Tandem (Like pairs calls made) (Value.Like pairs) (constant chunk i) (constant chunk' i') := by
  unfold constant
  generalize chunk.constants[i]? = v at there missing
  generalize chunk'.constants[i']? = v' at there
  cases there with
  | none =>
      obtain rfl := missing rfl
      exact tandem_throw _
  | some like => exact tandem_pure like

theorem tandem_name {chunk chunk' : Chunk} {i i' : Nat}
    (there : Option.Rel (Value.Like pairs) chunk.constants[i]? chunk'.constants[i']?)
    (missing : chunk.constants[i]?.bind Value.asText? = none → i = i') :
    Tandem (Like pairs calls made) (fun t t' => t.chars = t'.chars) (name chunk i)
      (name chunk' i') := by
  unfold name
  generalize chunk.constants[i]? = v at there missing
  generalize chunk'.constants[i']? = v' at there
  cases there with
  | none =>
      obtain rfl := missing rfl
      exact tandem_throw _
  | @some v v' like =>
      have texts := like.asText?
      rw [Option.bind_some] at missing
      rw [Option.bind_some, Option.bind_some]
      generalize v.asText? = t at texts missing
      generalize v'.asText? = t' at texts
      cases t with
      | none =>
          obtain rfl := missing rfl
          obtain rfl : t' = none := by simpa using texts.symm
          exact tandem_throw _
      | some t =>
          obtain ⟨t', rfl, same⟩ := Option.map_eq_some_iff.mp texts.symm
          exact tandem_pure same.symm

theorem results_withSink {α β : Type} {like : α → β → Prop} {output : Output α} {output' : Output β}
    (fault : String → Fault) {m m' : Machine} (h : Like pairs calls made m m')
    (answers : Output.Answers like (output m.sink) (output' m.sink)) :
    Results (Like pairs calls made) like (withSink output fault m) (withSink output' fault m') := by
  obtain ⟨config, loader, heap, globals, natives, sink, log, stack, callers⟩ := m
  obtain ⟨config', loader', heap', globals', natives', sink', log', stack', callers'⟩ := m'
  obtain rfl : sink = sink' := h.sink
  simp only [withSink]
  generalize output sink = left at answers
  generalize output' sink = right at answers
  cases answers with
  | ok result sink => exact .ok result { h with sink := rfl }
  | error message sink => exact .error _ { h with sink := rfl }

/-! ## Operators -/

theorem tandem_binaryNumber {operator : Float → Float → Datum}
    (number : ∀ x y, (operator x y).Like pairs (operator x y)) :
    Tandem (Like pairs calls made) (fun _ _ => True) (binaryNumber operator) (binaryNumber operator) := by
  refine (tandem_peek 1).bind fun a a' first => (tandem_peek 0).bind fun b b' second => ?_
  rw [first.asNumber?, second.asNumber?]
  cases a'.asNumber? with
  | none => exact tandem_throw _
  | some x =>
      cases b'.asNumber? with
      | none => exact tandem_throw _
      | some y => exact (tandem_drop 2).bind fun _ _ _ => tandem_push (.of (number x y))

theorem tandem_add :
    Tandem (Like pairs calls made) (fun _ _ => True) add add := by
  refine (tandem_peek 1).bind fun a a' first => (tandem_peek 0).bind fun b b' second => ?_
  rw [first.datum.sum second.datum]
  rcases sum a'.datum b'.datum with _ | x | chars
  · exact tandem_throw _
  · exact (tandem_drop 2).bind fun _ _ _ => tandem_push (.number x)
  · exact (tandem_drop 2).bind fun _ _ _ => (tandem_intern chars).bind fun _ _ same =>
      tandem_push (.of (.string same))

theorem tandem_print (respectful : Respectful pairs) {v v' : Value} (like : v.Like pairs v') :
    Tandem (Like pairs calls made) (fun _ _ => True) (withSink (Sink.writeLine v.display) .output)
      (withSink (Sink.writeLine v'.display) .output) := by
  intro m m' h
  refine results_withSink .output h ?_
  rw [like.display respectful.name]
  cases Sink.writeLine v'.display m.sink with
  | ok _ sink => exact .ok trivial sink
  | error message sink => exact .error message sink

/-! ## Calls -/

theorem tandem_applyNative (respectful : Respectful pairs) {n n' : Native} (id : n.id = n'.id)
    (name : n.name.chars = n'.name.chars) (callee : Nat) :
    Tandem (Like pairs calls made) (Value.Like pairs) (applyNative n callee) (applyNative n' callee) := by
  intro m m' h
  unfold applyNative
  dsimp only
  rw [← name, ← id, ← h.natives, ← size_eq_of_rel h.stack]
  refine results_withSink _ h ?_
  cases known : m.natives[n.id]? with
  | none => exact .error _ _
  | some f =>
      refine h.uniform f (Array.mem_of_getElem? known) _ _ _ _ _ _ respectful h.globals ?_
        (rel_extract h.stack _ _)
      exact h.stack.imp fun v v' like => like.imp fun r r' _ paired =>
        ⟨respectful.name paired, respectful.arity paired⟩

/-- The flow of two machines goes on in calls that correspond. -/
inductive FlowLike (calls : Frame → Frame → Prop) : Flow → Flow → Prop where
  | finished : FlowLike calls .finished .finished
  | running {frame frame' : Frame} (like : calls frame frame') :
      FlowLike calls (.running frame) (.running frame')

theorem tandem_running {frame frame' : Frame} (like : calls frame frame') :
    Tandem (Like pairs calls made) (FlowLike calls) (pure (.running frame)) (pure (.running frame')) :=
  tandem_pure (.running like)

/-- A routine that is entered has to correspond to the other one as a call. -/
theorem results_enterRoutine (respectful : Respectful pairs) {frame frame' : Frame} (like : calls frame frame')
    {r r' : Routine} (paired : pairs r r') (callee count : Nat) {m m' : Machine}
    (h : Like pairs calls made m m')
    (enters : (∃ m₁ : Machine, m₁.callers.size = m.callers.size + 1 ∧
      enterRoutine frame r callee count m = .ok (.running (.enter r callee)) m₁) →
        calls (.enter r callee) (.enter r' callee)) :
    Results (Like pairs calls made) (FlowLike calls) (enterRoutine frame r callee count m)
      (enterRoutine frame' r' callee count m') := by
  unfold enterRoutine at enters ⊢
  rw [← respectful.arity paired, ← h.config, ← size_eq_of_rel h.callers]
  split
  · exact .error _ h
  · split
    · exact .error _ h
    · rename_i arity room
      rw [if_neg arity, if_neg room] at enters
      refine .ok (.running (enters ⟨_, ?_, rfl⟩)) { h with config := rfl, callers := rel_push h.callers like }
      rw [Array.size_push]

/-! ## Instructions -/

/-- Operations that do the same with the constants of two routines. -/
inductive Does (pairs : Routine → Routine → Prop) (constants constants' : Array Value) :
    Opcode → Nat → Opcode → Nat → Prop where
  | plain {op : Opcode} (own : op.takesConstant = false) (stays : op.jumps = false) (operand : Nat) :
      Does pairs constants constants' op operand op operand
  | jump {op : Opcode} (jumps : op.jumps = true) (distance distance' : Nat) :
      Does pairs constants constants' op distance op distance'
  /-- Either may be in its short or in its long form. -/
  | constant {op short short' : Opcode} (long : op.longForm ≠ op) (form : short = op ∨ short = op.longForm)
      (form' : short' = op ∨ short' = op.longForm) {i i' : Nat}
      (there : Option.Rel (Value.Like pairs) constants[i]? constants'[i']?)
      (apart : i ≠ i' → ∃ v, constants[i]? = some v ∧ (op ≠ .constant → v.asText?.isSome)) :
      Does pairs constants constants' short i short' i'

/-- Where the operations lead, the calls correspond. -/
structure Onward (calls : Frame → Frame → Prop) (frame frame' : Frame) (op : Opcode)
    (operand operand' : Nat) : Prop where
  next : op ≠ .jump → op ≠ .loop → op ≠ .return → calls frame frame'
  forward : op = .jump ∨ op = .jumpIfFalse →
    calls { frame with ip := frame.ip + operand } { frame' with ip := frame'.ip + operand' }
  back : op = .loop → operand ≤ frame.ip ∧ operand' ≤ frame'.ip ∧
      calls { frame with ip := frame.ip - operand } { frame' with ip := frame'.ip - operand' } ∨
    frame.ip < operand ∧ frame'.ip < operand'

section Instructions

variable {frame frame' : Frame} {op : Opcode} {operand operand' : Nat}

/-- Instructions that take a constant. -/
theorem tandem_constants (long : op.longForm ≠ op) (like : calls frame frame')
    (there : Option.Rel (Value.Like pairs) frame.routine.chunk.constants[operand]?
      frame'.routine.chunk.constants[operand']?)
    (apart : operand ≠ operand' → ∃ v, frame.routine.chunk.constants[operand]? = some v ∧
      (op ≠ .constant → v.asText?.isSome)) :
    Tandem (Like pairs calls made) (FlowLike calls) (executeInstruction frame op operand)
      (executeInstruction frame' op operand') := by
  have on : Tandem (Like pairs calls made) (FlowLike calls) (pure (Flow.running frame))
      (pure (Flow.running frame')) :=
    tandem_running like
  -- Where the indices differ there is a constant on both sides, so a missing one is missing at the
  -- same index, and the faults are the same.
  have value : Tandem (Like pairs calls made) (Value.Like pairs) (constant frame.routine.chunk operand)
      (constant frame'.routine.chunk operand') := by
    refine tandem_constant there fun missing => ?_
    by_contra distinct
    obtain ⟨v, found, -⟩ := apart distinct
    rw [missing] at found
    cases found
  have name (notConstant : op ≠ .constant) : Tandem (Like pairs calls made)
      (fun t t' : Text => t.chars = t'.chars)
      (name frame.routine.chunk operand) (name frame'.routine.chunk operand') := by
    refine tandem_name there fun missing => ?_
    by_contra distinct
    obtain ⟨v, found, text⟩ := apart distinct
    have isText := text notConstant
    rw [found, Option.bind_some] at missing
    rw [missing] at isText
    cases isText
  cases op with
  | constant => exact value.bind fun _ _ same => (tandem_push same).bind fun _ _ _ => on
  | defineGlobal =>
      exact (name (by decide)).bind fun _ _ same => tandem_pop.bind fun _ _ value =>
        (tandem_setGlobal same value).bind fun _ _ _ => on
  | getGlobal =>
      exact (name (by decide)).bind fun _ _ same => (tandem_globalValue same).bind fun _ _ value =>
        (tandem_push value.copy).bind fun _ _ _ => on
  | setGlobal =>
      -- A constant binding refuses the assignment on both sides, with the same name.
      refine (name (by decide)).bind fun t t' same => (tandem_peek 0).bind fun _ _ value =>
        (tandem_globalValue same).bind fun old old' held => ?_
      dsimp only
      rw [held.assignable, same]
      split
      · exact (tandem_throw _ : Tandem _ (fun _ _ => False) _ _).bind fun _ _ => False.elim
      · exact (tandem_setGlobal same value).bind fun _ _ _ => on
  | _ => exact absurd rfl long

/-- Instructions that need nothing but their operand. -/
theorem tandem_plain (respectful : Respectful pairs) (base : frame.base = frame'.base)
    (like : calls frame frame') (own : op.takesConstant = false) (stays : op.jumps = false)
    (notCall : op ≠ .call) (notReturn : op ≠ .return) :
    Tandem (Like pairs calls made) (FlowLike calls) (executeInstruction frame op operand)
      (executeInstruction frame' op operand) := by
  have on : Tandem (Like pairs calls made) (FlowLike calls) (pure (Flow.running frame))
      (pure (Flow.running frame')) :=
    tandem_running like
  have number (operator : Float → Float → Datum)
      (number : ∀ x y, (operator x y).Like pairs (operator x y)) :
      Tandem (Like pairs calls made) (FlowLike calls)
        (binaryNumber operator >>= fun _ => pure (Flow.running frame))
        (binaryNumber operator >>= fun _ => pure (Flow.running frame')) :=
    (tandem_binaryNumber number).bind fun _ _ _ => on
  cases op with
  | call => exact absurd rfl notCall
  | «return» => exact absurd rfl notReturn
  | null | true | false => exact (tandem_push (.of (by constructor))).bind fun _ _ _ => on
  | pop => exact tandem_pop.discard.bind fun _ _ _ => on
  | getLocal =>
      simp only [executeInstruction, base]
      exact (tandem_slot _).bind fun _ _ value => (tandem_push value.copy).bind fun _ _ _ => on
  | setLocal =>
      simp only [executeInstruction, base]
      refine (tandem_peek 0).bind fun _ _ value => (tandem_slot _).bind fun old old' held => ?_
      rw [held.assignable]
      split
      · exact (tandem_throw _ : Tandem _ (fun _ _ => False) _ _).bind fun _ _ => False.elim
      · exact (tandem_setSlot _ value).bind fun _ _ _ => on
  | makeConst => exact tandem_pop.bind fun _ _ value => (tandem_push value.constant).bind fun _ _ _ => on
  | not =>
      refine tandem_pop.bind fun _ _ value => ?_
      rw [value.isFalsey]
      exact (tandem_push (.bool _)).bind fun _ _ _ => on
  | negate =>
      refine (tandem_peek 0).bind fun v v' value => ?_
      rw [value.asNumber?]
      cases v'.asNumber? with
      | none => exact tandem_throw _
      | some x => exact (tandem_drop 1).bind fun _ _ _ => (tandem_push (.number _)).bind fun _ _ _ => on
  | equal =>
      refine tandem_pop.bind fun _ _ second => tandem_pop.bind fun _ _ first => ?_
      rw [first.beq respectful second]
      exact (tandem_push (.bool _)).bind fun _ _ _ => on
  | greater | less => exact number _ fun _ _ => .bool _
  | subtract | multiply | divide => exact number _ fun _ _ => .number _
  | add => exact tandem_add.bind fun _ _ _ => on
  | print =>
      exact tandem_pop.bind fun _ _ value => (tandem_print respectful value).bind fun _ _ _ => on
  -- jumps and instructions with a constant need not agree in their operands
  | jump | jumpIfFalse | loop => cases stays
  | _ => cases own

theorem tandem_jump (jumps : op.jumps = true) (onward : Onward calls frame frame' op operand operand') :
    Tandem (Like pairs calls made) (FlowLike calls) (executeInstruction frame op operand)
      (executeInstruction frame' op operand') := by
  cases op with
  | jump => exact tandem_running (onward.forward (.inl rfl))
  | jumpIfFalse =>
      refine (tandem_peek 0).bind fun _ _ value => ?_
      rw [value.isFalsey]
      split
      · exact tandem_running (onward.forward (.inr rfl))
      · exact tandem_running (onward.next (by decide) (by decide) (by decide))
  | loop =>
      simp only [executeInstruction]
      rcases onward.back rfl with ⟨inside, inside', like⟩ | ⟨before, before'⟩
      · rw [if_neg (Nat.not_lt.mpr inside), if_neg (Nat.not_lt.mpr inside')]
        exact tandem_running like
      · rw [if_pos before, if_pos before']
        exact (tandem_throw _ : Tandem _ (fun _ _ => False) _ _).bind fun _ _ => False.elim
  | _ => cases jumps

theorem tandem_leave (base : frame.base = frame'.base) :
    Tandem (Like pairs calls made) (FlowLike calls) (leave frame) (leave frame') := by
  unfold leave
  rw [base]
  refine tandem_pop.bind fun _ _ result => (tandem_truncate _).bind fun _ _ _ =>
    tandem_resumeCaller.bind fun caller caller' waits => ?_
  cases waits with
  | none => exact tandem_pure .finished
  | some like => exact (tandem_push result).bind fun _ _ _ => tandem_running like

/-- A call, if the routine that it enters, should there be one, corresponds as a call. -/
theorem results_call (respectful : Respectful pairs) (like : calls frame frame') (count : Nat)
    {m m' : Machine} (h : Like pairs calls made m m')
    (enters : ∀ r r' callee, pairs r r' →
      (∃ m₁ : Machine, m₁.callers.size = m.callers.size + 1 ∧
        call frame count m = .ok (.running (.enter r callee)) m₁) →
          calls (.enter r callee) (.enter r' callee)) :
    Results (Like pairs calls made) (FlowLike calls) (call frame count m) (call frame' count m') := by
  have size := size_eq_of_rel h.stack
  by_cases short : m.stack.size < count + 1
  · have fails (frame : Frame) {m : Machine} (short : m.stack.size < count + 1) :
        call frame count m = .error .stackUnderflow m := by
      simp only [call, bind, EStateM.bind, calleeIndex, if_pos short]
    rw [fails frame short, fails frame' (size ▸ short)]
    exact .error _ h
  · have there := rel_array h.stack (m.stack.size - (count + 1))
    have inside : m.stack.size - (count + 1) < m.stack.size := by omega
    rw [Array.getElem?_eq_getElem inside] at there
    generalize callee : m.stack[m.stack.size - (count + 1)] = v at there
    generalize callee' : m'.stack[m.stack.size - (count + 1)]? = v' at there
    cases there with
    | @some _ v' value =>
        have found : m.stack[m.stack.size - (count + 1)]? = some v := by
          rw [← callee, Array.getElem?_eq_getElem]
        rw [size] at callee'
        rw [call_eq m frame found short] at enters ⊢
        rw [call_eq m' frame' callee' (size ▸ short), ← size]
        have data := value.datum
        -- Corresponding values are called alike; only of routines the code may differ.
        generalize v.datum = d at data enters
        generalize v'.datum = d' at data
        cases data with
        | routine paired =>
            exact results_enterRoutine respectful like paired _ _ h (enters _ _ _ paired)
        | native id name =>
            have applies : Tandem (Like pairs calls made) (FlowLike calls)
                (calling frame (m.stack.size - (count + 1)) count (.native _))
                (calling frame' (m.stack.size - (count + 1)) count (.native _)) :=
              (tandem_applyNative respectful id name _).bind fun _ _ result =>
                (tandem_truncate _).bind fun _ _ _ => (tandem_push result).bind fun _ _ _ =>
                  tandem_running like
            exact applies m m' h
        | null | bool | number | string => exact .error _ h

/-- Instructions that do the same do so in tandem. -/
theorem results_executeInstruction (respectful : Respectful pairs) {op' : Opcode}
    (base : frame.base = frame'.base)
    (does : Does pairs frame.routine.chunk.constants frame'.routine.chunk.constants op operand op'
      operand')
    (onward : Onward calls frame frame' op operand operand') {m m' : Machine}
    (h : Like pairs calls made m m')
    (enters : ∀ r r' callee, pairs r r' →
      (∃ m₁ : Machine, m₁.callers.size = m.callers.size + 1 ∧
        executeInstruction frame op operand m = .ok (.running (.enter r callee)) m₁) →
          calls (.enter r callee) (.enter r' callee)) :
    Results (Like pairs calls made) (FlowLike calls) (executeInstruction frame op operand m)
      (executeInstruction frame' op' operand' m') := by
  cases does with
  | plain own stays operand =>
      by_cases isReturn : op = .return
      · subst isReturn
        exact tandem_leave base m m' h
      have like := onward.next (by rintro rfl; cases stays) (by rintro rfl; cases stays) isReturn
      by_cases isCall : op = .call
      · subst isCall
        exact results_call respectful like operand h enters
      exact tandem_plain respectful base like own stays isCall isReturn m m' h
  | jump jumps => exact tandem_jump jumps onward m m' h
  | @constant taken _ _ long form form' _ _ there apart =>
      have same (frame : Frame) (i : Nat) {form : Opcode} (h : form = taken ∨ form = taken.longForm) :
          executeInstruction frame form i = executeInstruction frame taken i := by
        rcases h with rfl | rfl
        · rfl
        · exact executeInstruction_longForm frame taken i
      have apart_of {other : Opcode} (flat : other.longForm = other) (own : other ≠ taken.longForm) :
          op ≠ other := by
        rintro rfl
        rcases form with rfl | rfl
        · exact long flat
        · exact own rfl
      -- Both forms of an instruction do the same with their operands.
      rw [same frame operand form, same frame' operand' form']
      refine tandem_constants long (onward.next ?_ ?_ ?_) there apart m m' h
      all_goals exact apart_of rfl (by cases taken <;> first | decide | exact absurd rfl long)

end Instructions

theorem Like.traced {m m' : Machine} (h : Like pairs calls made m m') (frame frame' : Frame) :
    Like pairs calls made (m.traced frame) (m'.traced frame') := by
  unfold Machine.traced
  rw [← h.config]
  split
  · exact { h with config := h.config, routines := h.routines }
  · exact h

end Parts

end Machine
end StackScript
