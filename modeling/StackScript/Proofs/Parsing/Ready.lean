import StackScript.Proofs.Code.Constants
import StackScript.Proofs.Code.Emission

/-!
# States that the compiler can be in

Whatever has been read, no routine under construction has more locals than slots,
and every constant is one that the compiler makes from the strings of its heap.
No step destroys this, so it holds of every state that is reached.
-/

namespace StackScript

/-- A routine under construction has not too many locals, and its constants are
made from the strings of a heap. -/
structure Body.Ready (heap : Heap) (body : Body) : Prop where
  locals : body.locals.length ≤ Body.maxLocals
  constants : ∀ v ∈ body.chunk.constants, heap.Made v

namespace Body

theorem Ready.mono {heap heap' : Heap} {body : Body} (le : heap.Le heap')
    (h : body.Ready heap) : body.Ready heap' :=
  ⟨h.locals, fun v mem => (h.constants v mem).mono le⟩

theorem ready_start (heap : Heap) (name : Option Text) : (Body.start name).Ready heap :=
  ⟨by simp [Body.start, maxLocals], by simp [Body.start, Chunk.empty]⟩

theorem grounded_start (name : Option Text) : (Body.start name).Grounded := nofun

end Body

namespace Compiler

/-- What holds of every state that the compiler reaches. -/
structure Ready (c : Compiler) : Prop where
  heap : c.heap.Valid
  body : c.body.Ready c.heap
  enclosing : ∀ outer ∈ c.enclosing, outer.Ready c.heap

theorem ready_start (tokens : List Token) {heap : Heap} (valid : heap.Valid) :
    (start tokens heap).Ready :=
  ⟨valid, Body.ready_start heap none, by simp [start]⟩

namespace Ready

variable {c c' : Compiler}

/-- A step that touches neither routines nor strings. -/
theorem silent (h : c.Ready) (body : c'.body = c.body) (heap : c'.heap = c.heap)
    (enclosing : c'.enclosing = c.enclosing) : c'.Ready := by
  refine ⟨?_, ?_, ?_⟩
  · rw [heap]
    exact h.heap
  · rw [body, heap]
    exact h.body
  · rw [enclosing, heap]
    exact h.enclosing

/-- The pool of a state that is reached was filled by the compiler. -/
theorem sound (h : c.Ready) : c.pool.Sound := ⟨h.heap, h.body.constants⟩

theorem intern (h : c.Ready) (chars : String) : (c.intern chars).2.Ready :=
  have le := c.heap.le_intern chars
  ⟨h.heap.intern chars, h.body.mono le, fun outer mem => (h.enclosing outer mem).mono le⟩

theorem constant (h : c.Ready) {value : Value} (made : c.heap.Made value) :
    (c.mapBody (·.mapChunk fun _ => (c.body.chunk.addConstant value).2)).Ready := by
  refine ⟨h.heap, ⟨h.body.locals, fun v mem => ?_⟩, h.enclosing⟩
  have old := h.body.constants
  replace mem : v ∈ (c.body.chunk.addConstant value).2.constants := mem
  unfold Chunk.addConstant at mem
  split at mem
  · exact old v mem
  · rcases Array.mem_push.mp mem with mem | rfl
    · exact old v mem
    · exact made

/-- Completing a routine goes back to the one around it. -/
theorem endRoutine (h : c.Ready) : c.endRoutine.2.Ready := by
  have le (heap : Heap) (same : heap.texts = c.heap.texts) : c.heap.Le heap := by
    intro chars text found
    rw [same]
    exact found
  rw [endRoutine_eq]
  refine ⟨h.heap, ?_, fun outer mem => ?_⟩
  · cases around : c.enclosing with
    | nil => exact Body.ready_start _ _
    | cons first others =>
        exact (h.enclosing first (by rw [around]; exact List.mem_cons_self ..)).mono (le _ rfl)
  · exact (h.enclosing outer (List.mem_of_mem_tail mem)).mono (le _ rfl)

end Ready

/-- No step leads out of these states. -/
theorem Step.ready {reading : Bool} {c c' : Compiler} (step : Step reading c c') (h : c.Ready) :
    c'.Ready := by
  cases step with
  | read => exact h.silent (advance_body c) (advance_heap c) (advance_enclosing c)
  | report => exact h.silent (reportAt_body ..) (reportAt_heap ..) (reportAt_enclosing ..)
  | giveUp | recover => exact h.silent rfl rfl rfl
  | intern _ chars => exact h.intern chars
  | constant _ made => exact h.constant made
  | work _ constants locals =>
      exact ⟨h.heap, ⟨locals h.body.locals, constants ▸ h.body.constants⟩, h.enclosing⟩
  | beginRoutine _ name =>
      refine ⟨h.heap, Body.ready_start _ _, fun outer mem => ?_⟩
      rcases List.mem_cons.mp mem with rfl | mem
      · exact h.body
      · exact h.enclosing outer mem
  | endRoutine => exact h.endRoutine

theorem Steps.ready {reading : Bool} {c c' : Compiler} (h : Steps reading c c') :
    c.Ready → c'.Ready := h.preserve Step.ready

/-! ## What only acts keep -/

/-- No jump has been patched to lead behind the code, in any routine. -/
structure Grounded (c : Compiler) : Prop where
  body : c.body.Grounded
  enclosing : ∀ outer ∈ c.enclosing, outer.Grounded

theorem Act.grounded {reading : Bool} {c c' : Compiler} (act : Act reading c c')
    (h : c.Grounded) : c'.Grounded := by
  cases act with
  | read => exact ⟨by rw [advance_body]; exact h.body, by rw [advance_enclosing]; exact h.enclosing⟩
  | report | complain =>
      exact ⟨by rw [reportAt_body]; exact h.body, by rw [reportAt_enclosing]; exact h.enclosing⟩
  | giveUp | recover | intern => exact ⟨h.body, h.enclosing⟩
  | constant _ made =>
      refine ⟨h.body.grow rfl (Nat.le_of_eq ?_), h.enclosing⟩
      show c.body.chunk.code.size = (c.body.chunk.addConstant _).2.code.size
      unfold Chunk.addConstant
      split <;> rfl
  | work _ _ _ grounded => exact ⟨grounded h.body, h.enclosing⟩
  | beginRoutine _ name =>
      refine ⟨Body.grounded_start name, fun outer mem => ?_⟩
      rcases List.mem_cons.mp mem with rfl | mem
      · exact h.body
      · exact h.enclosing outer mem
  | endRoutine =>
      rw [endRoutine_eq]
      refine ⟨?_, fun outer mem => h.enclosing outer (List.mem_of_mem_tail mem)⟩
      cases around : c.enclosing with
      | nil => exact Body.grounded_start none
      | cons first others =>
          exact h.enclosing first (by rw [around]; exact List.mem_cons_self ..)

theorem Acts.grounded {reading : Bool} {c c' : Compiler} (h : Acts reading c c') :
    c.Grounded → c'.Grounded := h.preserve Act.grounded

/-- No completed routine is forgotten. -/
theorem Acts.completed {reading : Bool} {c c' : Compiler} (h : Acts reading c c') :
    ∀ r ∈ c.completed, r ∈ c'.completed := by
  refine h.lift (R := fun c c' => ∀ r ∈ c.completed, r ∈ c'.completed) (fun _ _ => id)
    (fun hab hbc r mem => hbc r (hab r mem)) fun {c c'} act r mem => ?_
  cases act with
  | read => rw [advance_completed]; exact mem
  | report | complain => rw [reportAt_completed]; exact mem
  | giveUp | recover | intern | constant | work | beginRoutine => exact mem
  | endRoutine =>
      rw [endRoutine_eq]
      exact Array.mem_push.mpr (.inl mem)

/-- Completed routines are told apart by their identities, and those still to come will
be too. -/
structure Numbered (c : Compiler) : Prop where
  given : ∀ r ∈ c.completed, r.id < c.heap.routines
  apart : ∀ r ∈ c.completed, ∀ r' ∈ c.completed, r.id = r'.id → r = r'

theorem Numbered.silent {c c' : Compiler} (h : c.Numbered) (completed : c'.completed = c.completed)
    (routines : c'.heap.routines = c.heap.routines) : c'.Numbered :=
  ⟨by rw [completed, routines]; exact h.given, by rw [completed]; exact h.apart⟩

theorem numbered_start (tokens : List Token) (heap : Heap) : (start tokens heap).Numbered :=
  ⟨by simp [start], by simp [start]⟩

theorem Act.numbered {reading : Bool} {c c' : Compiler} (act : Act reading c c')
    (h : c.Numbered) : c'.Numbered := by
  cases act with
  | read => exact h.silent (advance_completed c) (by rw [advance_heap])
  | report | complain => exact h.silent (reportAt_completed ..) (by rw [reportAt_heap])
  | giveUp | recover | intern | constant | work | beginRoutine => exact h.silent rfl rfl
  | endRoutine =>
      rw [endRoutine_eq]
      refine ⟨fun r mem => ?_, fun r mem r' mem' same => ?_⟩
      · rcases Array.mem_push.mp mem with mem | rfl
        · exact Nat.lt_succ_of_lt (h.given r mem)
        · exact Nat.lt_succ_self _
      · rcases Array.mem_push.mp mem with mem | rfl <;>
          rcases Array.mem_push.mp mem' with mem' | rfl
        · exact h.apart r mem r' mem' same
        · exact absurd same (Nat.ne_of_lt (h.given r mem))
        · exact absurd same (Nat.ne_of_gt (h.given r' mem'))
        · rfl

theorem Acts.numbered {reading : Bool} {c c' : Compiler} (h : Acts reading c c') :
    c.Numbered → c'.Numbered := h.preserve Act.numbered

end Compiler
end StackScript
