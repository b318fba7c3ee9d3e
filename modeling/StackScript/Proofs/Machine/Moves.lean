import Mathlib
import StackScript.Machine.Run

/-!
# Runs of the machine

A machine is seen as four things: a host, which calls and instructions of one
activation leave alone; a world, which outlives a run; the operand stack, written
with its top first; and a log, on which nothing depends.  `Moves` says that
execution gets from one place with its stack and world to another, `Stops` that it
ends in a fault, and `Lasts` that it is still going on.
-/

namespace StackScript

/-- What the code of one activation cannot change. -/
structure Host where
  config : MachineConfig
  loader : ModuleLoader
  natives : Array NativeFunction
  callers : Array Frame

/-- What outlives a run and takes part in it. -/
structure World where
  heap : Heap
  globals : Globals
  sink : Sink

/-- An activation: its routine, and where its part of the stack begins. -/
structure Activation where
  routine : Routine
  base : Nat

namespace Activation

/-- A frame of an activation. -/
def frame (a : Activation) (pc start : Nat) : Frame := ⟨a.routine, pc, start, a.base⟩

end Activation

namespace Machine

/-- The machine with the given parts. -/
def assembled (host : Host) (world : World) (stack : List Value) (log : Log) : Machine :=
  ⟨host.config, host.loader, world.heap, world.globals, host.natives, world.sink, log,
    stack.reverse.toArray, host.callers⟩

/-- The host part of a machine. -/
def host (m : Machine) : Host := ⟨m.config, m.loader, m.natives, m.callers⟩

/-- The world part of a machine. -/
def world (m : Machine) : World := ⟨m.heap, m.globals, m.sink⟩

/-- The operand stack, the top first. -/
def operands (m : Machine) : List Value := m.stack.toList.reverse

/-- Every machine has these parts. -/
theorem assembled_parts (m : Machine) : assembled m.host m.world m.operands m.log = m := by
  obtain ⟨config, loader, heap, globals, natives, sink, log, stack, callers⟩ := m
  simp [assembled, host, world, operands]

section Operands

variable (host : Host) (world : World) (stack : List Value) (log : Log)

@[simp] theorem world_assembled : (assembled host world stack log).world = world := rfl

@[simp] theorem operands_assembled : (assembled host world stack log).operands = stack := by
  simp [operands, assembled]

@[simp] theorem size_assembled : (assembled host world stack log).stack.size = stack.length := by
  simp [assembled]

theorem push_assembled (v : Value) :
    push v (assembled host world stack log) =
      if host.config.maxStack ≤ stack.length then
        .error .stackOverflow (assembled host world stack log)
      else .ok () (assembled host world (v :: stack) log) := by
  simp only [push, size_assembled]
  split <;> simp_all [assembled]

theorem push_of_room {v : Value} (room : stack.length < host.config.maxStack) :
    push v (assembled host world stack log) = .ok () (assembled host world (v :: stack) log) := by
  rw [push_assembled, if_neg (by omega)]

theorem pop_assembled (v : Value) :
    pop (assembled host world (v :: stack) log) = .ok v (assembled host world stack log) := by
  simp [pop, assembled]

theorem peek_assembled {distance : Nat} {v : Value} (there : stack[distance]? = some v) :
    peek distance (assembled host world stack log) = .ok v (assembled host world stack log) := by
  have bound := (List.getElem?_eq_some_iff.mp there).1
  have found : (assembled host world stack log).stack[stack.length - (distance + 1)]? = some v := by
    simp only [assembled, List.getElem?_toArray]
    rw [List.getElem?_reverse (by omega), ← there]
    congr 1
    omega
  simp only [peek, size_assembled, found]
  rw [if_neg (by omega)]

theorem peek_top (v : Value) :
    peek 0 (assembled host world (v :: stack) log) =
      .ok v (assembled host world (v :: stack) log) :=
  peek_assembled host world (v :: stack) log rfl

theorem peek_second (x y : Value) :
    peek 1 (assembled host world (y :: x :: stack) log) =
      .ok x (assembled host world (y :: x :: stack) log) :=
  peek_assembled host world (y :: x :: stack) log rfl

theorem drop_assembled (count : Nat) :
    drop count (assembled host world stack log) =
      .ok () (assembled host world (stack.drop count) log) := by
  have kept : stack.drop (stack.length - (stack.length - count)) = stack.drop count := by
    rw [show stack.length - (stack.length - count) = min count stack.length by omega]
    exact (List.drop_eq_drop_min ..).symm
  simp [drop, assembled, Array.shrink_eq_take, List.take_reverse, kept]

theorem truncate_assembled (height : Nat) (below : List Value) (h : below.length = height) :
    truncate height (assembled host world (stack ++ below) log) =
      .ok () (assembled host world below log) := by
  subst h
  simp [truncate, assembled, Array.shrink_eq_take]

theorem slot_assembled (above below : List Value) (v : Value) :
    slot below.length (assembled host world (above ++ v :: below) log) =
      .ok v (assembled host world (above ++ v :: below) log) := by
  simp [slot, assembled]

theorem setSlot_assembled (above below : List Value) (v v' : Value) :
    setSlot below.length v' (assembled host world (above ++ v :: below) log) =
      .ok () (assembled host world (above ++ v' :: below) log) := by
  simp [setSlot, assembled]

end Operands

/-! ## Execution -/

/-- Executing a number of instructions leads from one place to another. -/
def Goes (host : Host) (a : Activation) (count : Nat) (pc : Nat) (stack : List Value)
    (world : World) (pc' : Nat) (stack' : List Value) (world' : World) : Prop :=
  ∀ start log, ∃ start' log', ∀ limit,
    execute (count + limit) (a.frame pc start) (assembled host world stack log) =
      execute limit (a.frame pc' start') (assembled host world' stack' log')

/-- Execution leads from one place to another. -/
def Moves (host : Host) (a : Activation) (pc : Nat) (stack : List Value) (world : World)
    (pc' : Nat) (stack' : List Value) (world' : World) : Prop :=
  ∃ count, Goes host a count pc stack world pc' stack' world'

/-- Execution leads from one place to another, and not in no time. -/
def Advances (host : Host) (a : Activation) (pc : Nat) (stack : List Value) (world : World)
    (pc' : Nat) (stack' : List Value) (world' : World) : Prop :=
  ∃ count, Goes host a (count + 1) pc stack world pc' stack' world'

/-- Execution ends in a fault, and leaves the given world behind. -/
def Stops (host : Host) (a : Activation) (pc : Nat) (stack : List Value) (world : World)
    (fault : Fault) (world' : World) : Prop :=
  ∃ count, ∀ start log, ∃ frame m, m.world = world' ∧ ∀ limit,
    execute (count + limit) (a.frame pc start) (assembled host world stack log) =
      (.faulted frame fault, m)

/-- Execution is still going on after a number of instructions. -/
def Lasts (host : Host) (a : Activation) (pc : Nat) (stack : List Value) (world : World)
    (count : Nat) : Prop :=
  ∀ start log, ∃ frame m,
    execute count (a.frame pc start) (assembled host world stack log) = (.unfinished frame, m)

section Execution

variable {host : Host} {a : Activation} {pc pc' pc'' : Nat} {stack stack' stack'' : List Value}
  {world world' world'' : World} {fault : Fault}

theorem Goes.refl : Goes host a 0 pc stack world pc stack world :=
  fun start log => ⟨start, log, fun limit => by rw [Nat.zero_add]⟩

theorem Goes.trans {m n : Nat} (h : Goes host a m pc stack world pc' stack' world')
    (h' : Goes host a n pc' stack' world' pc'' stack'' world'') :
    Goes host a (m + n) pc stack world pc'' stack'' world'' := by
  intro start log
  obtain ⟨start', log', first⟩ := h start log
  obtain ⟨start'', log'', second⟩ := h' start' log'
  refine ⟨start'', log'', fun limit => ?_⟩
  rw [Nat.add_assoc, first, second]

theorem Moves.refl : Moves host a pc stack world pc stack world := ⟨0, Goes.refl⟩

theorem Moves.trans (h : Moves host a pc stack world pc' stack' world')
    (h' : Moves host a pc' stack' world' pc'' stack'' world'') :
    Moves host a pc stack world pc'' stack'' world'' := by
  obtain ⟨m, first⟩ := h
  obtain ⟨n, second⟩ := h'
  exact ⟨m + n, first.trans second⟩

theorem Advances.after (h : Moves host a pc stack world pc' stack' world')
    (h' : Advances host a pc' stack' world' pc'' stack'' world'') :
    Advances host a pc stack world pc'' stack'' world'' := by
  obtain ⟨m, first⟩ := h
  obtain ⟨n, second⟩ := h'
  exact ⟨m + n, first.trans second⟩

theorem Advances.moves (h : Advances host a pc stack world pc' stack' world') :
    Moves host a pc stack world pc' stack' world' := by
  obtain ⟨n, moved⟩ := h
  exact ⟨n + 1, moved⟩

theorem Moves.stops (h : Moves host a pc stack world pc' stack' world')
    (h' : Stops host a pc' stack' world' fault world'') :
    Stops host a pc stack world fault world'' := by
  obtain ⟨m, first⟩ := h
  obtain ⟨n, second⟩ := h'
  refine ⟨m + n, fun start log => ?_⟩
  obtain ⟨start', log', moved⟩ := first start log
  obtain ⟨frame, final, same, stopped⟩ := second start' log'
  refine ⟨frame, final, same, fun limit => ?_⟩
  rw [Nat.add_assoc, moved, stopped]

/-- What lasts longer lasts. -/
theorem execute_unfinished_of_le {m n : Nat} (le : m ≤ n) {frame last : Frame} {s s' : Machine}
    (h : execute n frame s = (.unfinished last, s')) :
    ∃ last' s'', execute m frame s = (.unfinished last', s'') := by
  induction m generalizing n frame s with
  | zero => exact ⟨frame, s, rfl⟩
  | succ m ih =>
      obtain ⟨n, rfl⟩ : ∃ k, n = k + 1 := ⟨n - 1, by omega⟩
      unfold execute at h ⊢
      dsimp only at h ⊢
      split at h
      · cases h
      · exact ih (by omega) h
      · cases h

theorem Goes.lasts {m n : Nat} (h : Goes host a m pc stack world pc' stack' world')
    (h' : Lasts host a pc' stack' world' n) : Lasts host a pc stack world (m + n) := by
  intro start log
  obtain ⟨start', log', moved⟩ := h start log
  obtain ⟨frame, final, unfinished⟩ := h' start' log'
  exact ⟨frame, final, by rw [moved, unfinished]⟩

theorem Lasts.of_le {m n : Nat} (le : m ≤ n) (h : Lasts host a pc stack world n) :
    Lasts host a pc stack world m := by
  intro start log
  obtain ⟨frame, final, unfinished⟩ := h start log
  exact execute_unfinished_of_le le unfinished

theorem Moves.lasts {n : Nat} (h : Moves host a pc stack world pc' stack' world')
    (h' : Lasts host a pc' stack' world' n) : Lasts host a pc stack world n := by
  obtain ⟨m, moved⟩ := h
  exact (moved.lasts h').of_le (by omega)

/-- What lasts after some instruction lasts longer. -/
theorem Advances.lasts {n : Nat} (h : Advances host a pc stack world pc' stack' world')
    (h' : Lasts host a pc' stack' world' n) : Lasts host a pc stack world (n + 1) := by
  obtain ⟨m, moved⟩ := h
  exact (moved.lasts h').of_le (by omega)

end Execution

end Machine
end StackScript
