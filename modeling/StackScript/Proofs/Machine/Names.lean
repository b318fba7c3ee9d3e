import StackScript.Proofs.Machine.Memory
import StackScript.Proofs.Recognition.Names

/-!
# Identifiers at run time

The slot to which an identifier has been resolved holds at run time what was last given to
the declared variable: by its initializer, by the argument of a call, or by an assignment to
this variable.  Together with what the compiler makes of identifiers, and with what it
refuses, this says that scopes are lexical (`names_resolve_lexically`).
-/

namespace StackScript
namespace Machine

/-- What an instruction on an identifier finds in a state of a run, given the scenes before it,
the latest first. -/
structure Scene.Finds (past : List Scene) (s : Scene) (m : Machine) (o : Occurrence) : Prop where
  /-- The instruction is the right one for the identifier. -/
  resolves : s.running.part.Resolves s.running.layout s.running.frame.ip o
  /-- A variable of the function is in its slot, and what is there is what it was given last. -/
  slot : ∀ k, o.slot? = some k → ∃ b v, b.name = o.name ∧
    s.meant? o.name = some (.local (s.running.frame.base + k) b) ∧
      m.stack[s.running.frame.base + k]? = some v ∧
        Since (fun t t' => t.Gives t' v (.local (s.running.frame.base + k) b))
          (fun t => t.Holds v (.local (s.running.frame.base + k) b)) past s

section

variable {natives : Array NativeFunction} {first s : Scene} {past : List Scene} {frame : Frame}
  {m : Machine}

/-- A script has no variables of its own where it begins. -/
theorem Scene.name_of_opening {layout : Layout} {tree : Statement} {heap : Heap} {world : World}
    {i : Nat} {b : Binding} {v : Value}
    (holds : (Scene.opening layout (Part.script tree heap) world).Holds v (.local i b)) :
    b.name = "" := by
  have mem := List.mem_reverse.mp (List.mem_of_getElem? holds.1)
  obtain rfl : b = ⟨"", true, 0⟩ := by
    simpa [Scene.slots, Scene.opening, slotsOf, Part.entry, Part.view, Part.script, Place.script]
      using mem
  rfl

/-- An identifier finds the variable that it refers to. -/
theorem Scene.Plays.finds {layout : Layout} {tree : Statement} {heap : Heap} {world : World}
    (plays : (Scene.opening layout (Part.script tree heap) world).Plays .written natives past s)
    (sound : (Scene.opening layout (Part.script tree heap) world).Sound .written)
    (trustworthy : Trustworthy .written natives) (shows : s.Shows frame m) {o : Occurrence}
    (mem : (s.running.frame.ip, o) ∈ s.running.part.accesses s.running.layout) :
    s.Finds past m o := by
  have now := plays.sound sound trustworthy
  have held : s.running.part.Written s.running.layout := now.running.held
  have fine : s.running.part.Fine s.running.layout := Library.written.fine held
  have occurs : o ∈ s.running.part.occurrences := by
    rw [← Part.occurrences_accesses fine]
    exact List.mem_map_of_mem mem
  refine ⟨Part.resolves fine held.settled held.sound mem, fun k slot => ?_⟩
  obtain ⟨note, here, about⟩ := Part.noteAt_of_access mem
  replace here : s.running.view s.running.frame.ip = some note := here
  rw [Note.slot_of_occurrence about] at slot
  obtain ⟨⟨k', b⟩, found, rfl⟩ := Option.map_eq_some_iff.mp slot
  obtain ⟨v, there⟩ : ∃ v, slotOf s.running.values k' = some v := by
    refine exists_slotOf_innermost ?_ found
    rw [now.running.length, now.shape_eq here]
  have holds : s.Holds v (.local (s.running.frame.base + k') b) := by
    refine (Scene.holds_above now).mpr ⟨?_, there⟩
    rw [now.shape_eq here]
    exact Note.slot_of_scope (innermost_slot found)
  have name := name_of_innermost found
  refine ⟨b, v, name, ?_, (shows.getElem?_stack _).trans holds.2, ?_⟩
  · simp [Scene.meant?, Scene.note?, here, found]
  · refine (plays.recalls sound trustworthy holds).resolve_right fun always => ?_
    have unnamed := Scene.name_of_opening (always _ plays.first_mem)
    exact held.settled.named.occurrences o occurs (name ▸ unnamed)

/-- An instruction on a variable that is about to be executed is that of an identifier, or it
defines a global variable. -/
theorem Scene.Sound.mentions (now : s.Sound .written) {op : Opcode} {operand next : Nat}
    (code : s.running.frame.routine.chunk.decode s.running.frame.ip = .ok ⟨op, operand, next⟩)
    (access : op.isAccess = true) :
    (∃ o, (s.running.frame.ip, o) ∈ s.running.part.accesses s.running.layout) ∨
      op = .defineGlobal ∨ op = .defineGlobalLong := by
  obtain ⟨note, here, -⟩ := now.noted
  obtain ⟨a, same, obeys⟩ := (Library.written.fine now.running.held).follows _ _ here
  rw [now.running.routine, same] at code
  cases code
  exact (obeys.tells.occurrence access).imp_left
    (Exists.imp fun o about => Part.access_of_noteAt here about)

end

/-- The tree of a block with a function that refers to itself. -/
def selfReference (name : String) : Statement :=
  .next (.block (.next (.define name [] (.next (.expression (.variable name)) .done)) .done)) .done

end Machine
end StackScript
