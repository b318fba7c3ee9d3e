import StackScript.Proofs.Machine.Instructions

/-!
# Calls that need no other code

A call of a host function, a call of something that is no function, and a call with
the wrong number of arguments or too deep to be made are over in one instruction.
`directCall` says what they do; it leaves the other calls open.
-/

namespace StackScript

/-- The function that a native value stands for. -/
def Host.native (host : Host) (n : Native) : NativeFunction :=
  (host.natives[n.id]?).getD fun _ _ => throw "unknown host function"

/-- The operand stack at a call. -/
def callStack (callee : Value) (arguments stack : List Value) : List Value :=
  arguments.reverse ++ callee :: stack

/-- What a call of a host function does. -/
def nativeCall (host : Host) (n : Native) (callee : Value) (arguments stack : List Value)
    (world : World) : Except Fault Value × World :=
  match host.native n ⟨world.globals, (callStack callee arguments stack).reverse.toArray⟩
      arguments.toArray world.sink with
  | .error message sink => (.error (.native n.name.chars message), { world with sink })
  | .ok v sink =>
      if host.config.maxStack ≤ stack.length then (.error .stackOverflow, { world with sink })
      else (.ok v, { world with sink })

/-- What a call does that is over in one instruction. -/
def directCall (host : Host) (callee : Value) (arguments stack : List Value) (world : World) :
    Option (Except Fault Value × World) :=
  match callee.datum with
  | .routine r =>
      if arguments.length ≠ r.arity then
        some (.error (.arityMismatch r.arity arguments.length), world)
      else if host.config.maxFrames < host.callers.size + 2 then
        some (.error .stackOverflow, world)
      else none
  | .native n => some (nativeCall host n callee arguments stack world)
  | _ => some (.error .notCallable, world)

namespace Machine

variable {host : Host} {a : Activation} {pc next : Nat} {callee v : Value}
  {arguments stack : List Value} {world world' : World} {fault : Fault}

/-- Calling a value of the given kind, whose place on the stack is known. -/
def calling (frame : Frame) (index count : Nat) : Datum → Exec Flow
  | .routine r => enterRoutine frame r index count
  | .native n => do
    let result ← applyNative n index
    truncate index
    push result
    return .running frame
  | _ => throw .notCallable

/-- The callee lies below its arguments. -/
theorem call_assembled (frame : Frame) (log : Log) :
    call frame arguments.length (assembled host world (callStack callee arguments stack) log) =
      calling frame stack.length arguments.length callee.datum
        (assembled host world (callStack callee arguments stack) log) := by
  have size : (callStack callee arguments stack).length = arguments.length + 1 + stack.length := by
    simp only [callStack, List.length_append, List.length_reverse, List.length_cons]
    omega
  have index : calleeIndex arguments.length
      (assembled host world (callStack callee arguments stack) log) =
        .ok stack.length (assembled host world (callStack callee arguments stack) log) := by
    simp only [calleeIndex, size_assembled, size]
    rw [if_neg (by omega), show arguments.length + 1 + stack.length - (arguments.length + 1) =
      stack.length by omega]
  have there : slot stack.length (assembled host world (callStack callee arguments stack) log) =
      .ok callee (assembled host world (callStack callee arguments stack) log) :=
    slot_assembled host world log arguments.reverse stack callee
  simp only [call, bind, EStateM.bind, index, there]
  cases callee.datum <;> rfl

theorem applyNative_assembled (n : Native) (log : Log) :
    applyNative n stack.length (assembled host world (callStack callee arguments stack) log) =
      withSink (host.native n ⟨world.globals, (callStack callee arguments stack).reverse.toArray⟩
        arguments.toArray) (.native n.name.chars)
        (assembled host world (callStack callee arguments stack) log) := by
  have taken : (assembled host world (callStack callee arguments stack) log).stack.extract
      (stack.length + 1) (callStack callee arguments stack).length = arguments.toArray := by
    simp only [assembled, callStack, List.extract_toArray]
    simp [List.extract, List.drop_append, List.take_append]
  simp only [applyNative, size_assembled, taken]
  rfl

/-- A result replaces callee and arguments. -/
theorem truncate_callStack (log : Log) :
    truncate stack.length (assembled host world (callStack callee arguments stack) log) =
      .ok () (assembled host world stack log) := by
  have cut := truncate_assembled host world (arguments.reverse ++ [callee]) log stack.length stack
    rfl
  rwa [List.append_assoc, List.singleton_append] at cut

section Direct

variable (code : a.routine.chunk.decode pc = .ok ⟨.call, arguments.length, next⟩)
include code

theorem goes_nativeCall {n : Native} (native : callee.datum = .native n)
    (h : nativeCall host n callee arguments stack world = (.ok v, world')) :
    Goes host a 1 pc (callStack callee arguments stack) world next (v :: stack) world' := by
  refine goes_step code fun log => ?_
  show call (a.frame next pc) arguments.length _ = _
  rw [call_assembled, native]
  simp only [calling, bind, EStateM.bind, applyNative_assembled, withSink_assembled]
  unfold nativeCall at h
  split at h
  · cases h
  · rename_i result sink returned
    split at h
    · cases h
    · rename_i room
      cases h
      simp only [returned, truncate_callStack, push_of_room _ _ _ _ (Nat.lt_of_not_le room)]
      rfl

theorem stops_nativeCall {n : Native} (native : callee.datum = .native n)
    (h : nativeCall host n callee arguments stack world = (.error fault, world')) :
    Stops host a pc (callStack callee arguments stack) world fault world' := by
  refine stops_step code fun log => ?_
  show ∃ m, _ ∧ call (a.frame next pc) arguments.length _ = _
  rw [call_assembled, native]
  simp only [calling, bind, EStateM.bind, applyNative_assembled, withSink_assembled]
  unfold nativeCall at h
  split at h
  · rename_i message sink failed
    cases h
    refine ⟨assembled host { world with sink } (callStack callee arguments stack) log, rfl, ?_⟩
    simp only [failed]
  · rename_i result sink returned
    split at h
    · rename_i full
      cases h
      refine ⟨assembled host { world with sink } stack log, rfl, ?_⟩
      simp only [returned, truncate_callStack, push_assembled, if_pos full]
    · cases h

/-- A call that gives a result at once. -/
theorem goes_directCall
    (h : directCall host callee arguments stack world = some (.ok v, world')) :
    Goes host a 1 pc (callStack callee arguments stack) world next (v :: stack) world' := by
  unfold directCall at h
  split at h
  · split at h
    · cases h
    · split at h <;> cases h
  · rename_i n native
    exact goes_nativeCall code native (Option.some.inj h)
  · cases h

/-- A call that fails at once. -/
theorem stops_directCall
    (h : directCall host callee arguments stack world = some (.error fault, world')) :
    Stops host a pc (callStack callee arguments stack) world fault world' := by
  unfold directCall at h
  split at h
  · rename_i r routine
    refine stops_step code fun log =>
      ⟨assembled host world (callStack callee arguments stack) log, ?_, ?_⟩
    · split at h
      · cases h
        rfl
      · split at h
        · cases h
          rfl
        · cases h
    · show call (a.frame next pc) arguments.length _ = _
      rw [call_assembled, routine]
      simp only [calling, enterRoutine]
      split at h
      · rename_i count
        cases h
        rw [if_pos count]
      · rename_i count
        split at h
        · rename_i deep
          cases h
          rw [if_neg count]
          exact if_pos deep
        · cases h
  · rename_i n native
    exact stops_nativeCall code native (Option.some.inj h)
  -- nothing else can be called
  · rename_i notRoutine notNative
    cases h
    refine stops_step code fun log =>
      ⟨assembled host world (callStack callee arguments stack) log, rfl, ?_⟩
    show call (a.frame next pc) arguments.length _ = _
    rw [call_assembled]
    cases kind : callee.datum with
    | routine r => exact (notRoutine r kind).elim
    | native n => exact (notNative n kind).elim
    | null | bool | number | string => rfl

end Direct

end Machine
end StackScript
