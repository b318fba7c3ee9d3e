import StackScript.Proofs.Code.Constants
import StackScript.Proofs.Code.Statement

/-!
# What a statement leaves behind

A statement that is compiled in its place declares locals of the innermost scope
only, so leaving a scope or a loop drops exactly the locals declared inside it.  To
the pool it only adds.
-/

namespace StackScript

namespace Place

/-- The locals are on the stack and belong to scopes around the place, and so does
the innermost loop. -/
structure Scoped (place : Place) : Prop where
  locals : ∀ var ∈ place.locals, ∃ d, var.depth = some d ∧ d ≤ place.depth
  loop : ∀ d ∈ place.loop, d ≤ place.depth

/-- A declaration may stand here: the innermost loop is outside the scope. -/
def Open (place : Place) : Prop := ∀ d ∈ place.loop, d < place.depth

/-- Number of locals that are left when `break` or `continue` leads out of here. -/
def floor (place : Place) : Nat :=
  place.locals.length - (deeper place.locals (place.loop.getD 0)).length

variable {place : Place}

theorem Scoped.inner (h : place.Scoped) : place.inner.Scoped where
  locals var mem := by
    obtain ⟨d, known, le⟩ := h.locals var mem
    exact ⟨d, known, Nat.le_succ_of_le le⟩
  loop d mem := Nat.le_succ_of_le (h.loop d mem)

/-- Inside a scope of its own a declaration may stand. -/
theorem Scoped.open (h : place.Scoped) : place.inner.Open :=
  fun d mem => Nat.lt_succ_of_le (h.loop d mem)

theorem Scoped.looped (h : place.Scoped) : place.looped.Scoped where
  locals := h.locals
  loop d mem := by
    obtain rfl : place.depth = d := by simpa [Place.looped] using mem
    exact Nat.le_refl _

/-- After declarations in the innermost scope. -/
theorem Scoped.knowing (h : place.Scoped) {declared : List LocalVariable}
    (depth : ∀ var ∈ declared, var.depth = some place.depth) :
    (place.knowing (declared ++ place.locals)).Scoped where
  locals var mem := by
    rcases List.mem_append.mp mem with mem | mem
    · exact ⟨_, depth var mem, Nat.le_refl _⟩
    · exact h.locals var mem
  loop := h.loop

/-- No local lies deeper than the place. -/
theorem Scoped.deeper_eq_nil (h : place.Scoped) : deeper place.locals place.depth = [] := by
  cases known : place.locals with
  | nil => rfl
  | cons var older =>
      obtain ⟨d, there, le⟩ := h.locals var (by rw [known]; exact List.mem_cons_self ..)
      have outside : ¬ place.depth < d := by omega
      simp [deeper, LocalVariable.isDeeperThan, there, outside]

end Place

/-- Newer locals that lie deeper come on top of those that did before. -/
theorem deeper_append {declared locals : List LocalVariable} {depth inside : Nat}
    (lt : depth < inside) (new : ∀ var ∈ declared, var.depth = some inside) :
    deeper (declared ++ locals) depth = declared ++ deeper locals depth := by
  refine List.takeWhile_append_of_pos fun var mem => ?_
  simpa [LocalVariable.isDeeperThan, new var mem] using lt

/-- Leaving a scope drops the locals declared in it. -/
theorem Place.Scoped.deeper_inner {place : Place} (h : place.Scoped)
    {declared : List LocalVariable} (new : ∀ var ∈ declared, var.depth = some (place.depth + 1)) :
    deeper (declared ++ place.locals) place.depth = declared := by
  rw [deeper_append (Nat.lt_succ_self _) new, h.deeper_eq_nil, List.append_nil]

namespace Place

variable {place : Place}

theorem floor_le (place : Place) : place.floor ≤ place.locals.length := Nat.sub_le _ _

/-- Inside a loop, what is left is all that is there outside of it. -/
theorem Scoped.floor_looped (h : place.Scoped) : place.looped.floor = place.locals.length := by
  show place.locals.length - (deeper place.locals place.depth).length = _
  rw [h.deeper_eq_nil]
  rfl

/-- Declarations do not change what is left outside the loop. -/
theorem floor_knowing (isOpen : place.Open) {declared : List LocalVariable}
    (depth : ∀ var ∈ declared, var.depth = some place.depth)
    (global : place.depth = 0 → declared = []) :
    (place.knowing (declared ++ place.locals)).floor = place.floor := by
  rcases Nat.eq_zero_or_pos place.depth with outside | inside
  · rw [global outside]
    rfl
  · have lt : place.loop.getD 0 < place.depth := by
      cases loop : place.loop with
      | none => exact inside
      | some d => exact isOpen d loop
    simp only [floor, knowing_locals, knowing_loop]
    rw [deeper_append lt depth, List.length_append, List.length_append]
    omega

end Place

/-- What a statement declares belongs to the innermost scope. -/
theorem Statement.depth_declared {depth : Nat} (s : Statement) :
    ∀ var ∈ s.declared depth, var.depth = some depth := by
  induction s with
  | next a b first rest =>
      intro var mem
      rcases List.mem_append.mp mem with mem | mem
      · exact rest var mem
      · exact first var mem
  | declare _ name | define name =>
      intro var mem
      simp only [Statement.declared, declaredName] at mem
      split at mem
      · cases mem
      · rw [List.mem_singleton.mp mem]
  | _ => exact nofun

/-- A statement that is no declaration declares nothing. -/
theorem Statement.Flat.declared {s : Statement} (flat : s.Flat) (depth : Nat) :
    s.declared depth = [] := by
  cases s with
  | next | declare | define => exact flat.elim
  | _ => rfl

/-- Outside every scope there are no locals to declare. -/
theorem Statement.declared_zero (s : Statement) : s.declared 0 = [] := by
  induction s with
  | next a b first rest => rw [Statement.declared, first, rest, List.append_nil]
  | _ => rfl

/-- A statement adds the locals that it declares. -/
theorem Statement.locals_code (layout : Layout) (s : Statement) (proper : s.Proper)
    {place : Place} (pool : Pool) (fits : place.Scoped) :
    (s.code layout place pool).locals = s.declared place.depth ++ place.locals := by
  induction s generalizing place pool with
  | done | print | expression | leave | again | giveBack => rfl
  | next a b first rest =>
      have locals := first proper.1 pool fits
      have after := fits.knowing a.depth_declared
      rw [← locals] at after
      show (b.code layout (place.knowing _) _).locals = _
      rw [rest proper.2 (a.code layout place pool).pool after, Place.knowing_locals, locals,
        ← List.append_assoc]
      rfl
  | declare assignable name init =>
      simp only [Statement.code, Statement.declared, declaredName]
      split <;> rfl
  | define name parameters s =>
      simp only [Statement.code, Statement.declared, declaredName]
      split <;> rfl
  | block body ih =>
      -- the locals that the block declared are the innermost ones, and just these are dropped
      have locals := ih proper pool fits.inner
      show (body.code layout place.inner pool).locals.drop (deeper _ place.depth).length =
        place.locals
      rw [locals, show place.inner.locals = place.locals from rfl,
        show place.inner.depth = place.depth + 1 from rfl, fits.deeper_inner body.depth_declared]
      exact List.drop_left' rfl
  | choose c yes no first second =>
      obtain ⟨-, left, right, flat, flat'⟩ := proper
      have locals := first left (c.code place.locals pool).2 fits
      rw [flat.declared, List.nil_append] at locals
      have locals' := second right
        (yes.code layout place (c.code place.locals pool).2).pool fits
      rw [flat'.declared, List.nil_append] at locals'
      show (no.code layout (place.knowing _) _).locals = place.locals
      rw [locals, Place.knowing_self, locals']
  | loop test step body ih =>
      obtain ⟨-, -, inside, flat⟩ := proper
      have locals := ih inside
        (clauseCode place.locals step (clauseCode place.locals test pool).2).2 fits.looped
      rw [flat.declared, List.nil_append] at locals
      exact locals

/-! ## The pool -/

theorem le_initialCode (locals : List LocalVariable) (init : Option Expression) (pool : Pool) :
    pool.Le (initialCode locals init pool).2 := by
  cases init with
  | none => exact .refl pool
  | some e => exact e.le_code locals pool

theorem sound_initialCode (locals : List LocalVariable) {init : Option Expression}
    (genuine : ∀ e ∈ init, e.Genuine) {pool : Pool} (sound : pool.Sound) :
    (initialCode locals init pool).2.Sound := by
  cases init with
  | none => exact sound
  | some e => exact e.sound_code locals (genuine e rfl) pool sound

theorem le_clauseCode (locals : List LocalVariable) (clause : Option Expression) (pool : Pool) :
    pool.Le (clauseCode locals clause pool).2 := by
  cases clause with
  | none => exact .refl pool
  | some e => exact e.le_code locals pool

theorem sound_clauseCode (locals : List LocalVariable) {clause : Option Expression}
    (genuine : ∀ e ∈ clause, e.Genuine) {pool : Pool} (sound : pool.Sound) :
    (clauseCode locals clause pool).2.Sound := by
  cases clause with
  | none => exact sound
  | some e => exact e.sound_code locals (genuine e rfl) pool sound

namespace Pool

theorem le_declare (pool : Pool) (depth : Nat) (name : String) :
    pool.Le (pool.declare depth name).2 := by
  unfold declare
  split
  · exact pool.le_addString name
  · exact .refl pool

theorem Sound.declare {pool : Pool} (sound : pool.Sound) (depth : Nat) (name : String) :
    (pool.declare depth name).2.Sound := by
  unfold Pool.declare
  split
  · exact sound.addString name
  · exact sound

variable {layout : Layout} {name : Option Text} {arity : Nat} {ending : Ending} {body : Coded}

/-- A routine gets its identity from the heap, and no string changes. -/
theorem Le.routine {pool : Pool} {constants : Array Value} (heap : pool.heap.Le body.pool.heap)
    (kept : ∀ (i : Nat) (v : Value), pool.constants[i]? = some v → constants[i]? = some v) :
    pool.Le ⟨(body.routine layout name arity ending).2, constants⟩ := ⟨heap, kept⟩

theorem Sound.routine {pool : Pool} (sound : pool.Sound) (valid : body.pool.heap.Valid)
    (heap : pool.heap.Le body.pool.heap) :
    Sound ⟨(body.routine layout name arity ending).2, pool.constants⟩ :=
  ⟨valid, fun v mem => Heap.Made.mono
    (show pool.heap.Le (body.routine layout name arity ending).2 from heap) (sound.constants v mem)⟩

theorem Sound.function {pool : Pool} (sound : pool.Sound) (name : String) :
    (pool.function name).Sound := ⟨sound.heap.intern name, by simp [Pool.function]⟩

end Pool

theorem Statement.le_code (layout : Layout) (s : Statement) (place : Place) (pool : Pool) :
    pool.Le (s.code layout place pool).pool := by
  induction s generalizing place pool with
  | done | leave | again => exact .refl pool
  | giveBack value => exact le_initialCode _ _ _
  | define name parameters s body =>
      have known := ((pool.le_declare place.depth name).heap.trans (Heap.le_intern _ name)).trans
        (body (.function parameters) ((pool.declare place.depth name).2.function name)).heap
      simp only [Statement.code]
      split
      · exact (Pool.Le.routine known (pool.le_declare place.depth name).constants).trans
          (Pool.le_add _ _)
      · exact (Pool.Le.routine known (pool.le_declare place.depth name).constants).trans
          (Pool.le_add _ _)
  | next a b first rest => exact (first _ _).trans (rest _ _)
  | print e | expression e => exact e.le_code _ _
  | declare assignable name init =>
      simp only [Statement.code]
      split
      · exact (pool.le_addString name).trans (le_initialCode _ _ _)
      · exact le_initialCode _ _ _
  | block body ih => exact ih _ _
  | choose c yes no first second => exact ((c.le_code _ _).trans (first _ _)).trans (second _ _)
  | loop test step body ih =>
      exact ((le_clauseCode _ _ _).trans (le_clauseCode _ _ _)).trans (ih _ _)

theorem Statement.sound_code (layout : Layout) (s : Statement) (proper : s.Proper) (place : Place)
    {pool : Pool} (sound : pool.Sound) : (s.code layout place pool).pool.Sound := by
  induction s generalizing place pool with
  | done | leave | again => exact sound
  | giveBack value => exact sound_initialCode _ proper sound
  | define name parameters s body =>
      have named := sound.declare place.depth name
      have inside := body proper (.function parameters) (named.function name)
      have known := (Heap.le_intern _ name).trans (s.le_code layout (.function parameters)
        ((pool.declare place.depth name).2.function name)).heap
      simp only [Statement.code]
      split
      · exact (named.routine inside.heap known).add (.routine _)
      · exact (named.routine inside.heap known).add (.routine _)
  | next a b first rest => exact rest proper.2 _ (first proper.1 _ sound)
  | print e | expression e => exact e.sound_code _ proper _ sound
  | declare assignable name init =>
      simp only [Statement.code]
      split
      · exact sound_initialCode _ proper (sound.addString name)
      · exact sound_initialCode _ proper sound
  | block body ih => exact ih proper _ sound
  | choose c yes no first second =>
      obtain ⟨test, left, right, -⟩ := proper
      exact second right _ (first left _ (c.sound_code _ test _ sound))
  | loop test step body ih =>
      obtain ⟨tested, stepped, inside, -⟩ := proper
      exact ih inside _ (sound_clauseCode _ stepped (sound_clauseCode _ tested sound))

end StackScript
