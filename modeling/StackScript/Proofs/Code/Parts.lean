import StackScript.Proofs.Code.Checks

/-!
# The routines of a program

A program is compiled to one routine for the script and one for each function declared
anywhere in it.  A `Part` is what the tree knows of one of them; `Part.inner` gives the
functions declared in it.  The constants of a routine are literals and the routines of
its inner parts, so all routines that a script can get hold of are those of its parts.
-/

namespace StackScript

/-- A routine of a program, and where it stands. -/
structure Part where
  name : Option Text
  arity : Nat
  /-- Locals of the routines around. -/
  outer : List (List LocalVariable)
  place : Place
  body : Statement
  /-- The pool in which the body begins. -/
  pool : Pool

/-- The functions declared in a statement, but not those declared in them. -/
def Statement.parts (layout : Layout) (outer : List (List LocalVariable)) :
    Statement → Place → Pool → List Part
  | .next a b, place, pool =>
      let first := a.code layout place pool
      a.parts layout outer place pool ++
        b.parts layout outer (place.knowing first.locals) first.pool
  | .block s, place, pool => s.parts layout outer place.inner pool
  | .choose c s t, place, pool =>
      let test := c.code place.locals pool
      let yes := s.code layout place test.2
      s.parts layout outer place test.2 ++
        t.parts layout outer (place.knowing yes.locals) yes.pool
  | .loop test step s, place, pool =>
      s.parts layout outer place.looped
        (clauseCode place.locals step (clauseCode place.locals test pool).2).2
  | .define name parameters s, place, pool =>
      let global := pool.declare place.depth name
      [{ name := some (global.2.heap.intern name).1
         arity := parameters.length
         outer := (declaredName place.depth name ++ place.locals) :: outer
         place := .function parameters
         body := s
         pool := global.2.function name }]
  | _, _, _ => []

namespace Part

/-- A script. -/
def script (body : Statement) (heap : Heap) : Part := ⟨none, 0, [], .script, body, ⟨heap, #[]⟩⟩

variable (layout : Layout) (p : Part)

/-- How the code of the body ends. -/
def ending : Ending := p.body.ending p.place.depth

/-- What the body leads to. -/
def coded : Coded := p.body.code layout p.place p.pool

/-- The code of the routine. -/
def code : List Asm := draft (p.coded layout).cells ++ p.ending.closing

/-- The routine. -/
def routine : Routine := ((p.coded layout).routine layout p.name p.arity p.ending).1

/-- The functions declared in the routine. -/
def inner : List Part := p.body.parts layout p.outer p.place p.pool

/-- The routine can be compiled as it is. -/
structure Fine : Prop where
  proper : p.body.Proper
  closed : p.body.Closed
  allowed : p.body.Allowed p.outer p.place.locals p.place.depth
  narrow : p.body.Narrow layout p.place p.pool
  fits : ∀ a ∈ draft (p.coded layout).cells, a.Fits
  placed : p.place.Scoped
  outside : p.place.loop = none
  slots : p.place.locals.length = p.arity + 1
  fresh : p.pool.constants = #[]

/-- The part is the given one, or is declared inside it at any depth. -/
inductive Within (whole : Part) : Part → Prop where
  | self : Within whole whole
  | inner {p q : Part} (h : Within whole p) (mem : q ∈ p.inner layout) : Within whole q

end Part

/-! ## Functions inside -/

theorem Place.scoped_function (parameters : List String) : (Place.function parameters).Scoped where
  locals var mem := by
    rcases List.mem_append.mp mem with mem | mem
    · obtain ⟨name, -, rfl⟩ := List.mem_map.mp mem
      exact ⟨1, rfl, Nat.le_refl _⟩
    · obtain rfl := List.mem_singleton.mp mem
      exact ⟨0, rfl, Nat.zero_le _⟩
  loop d mem := by cases mem

/-- Functions declared in a statement can be compiled if the statement can be. -/
theorem Statement.fine_of_mem_parts {layout : Layout} {outer : List (List LocalVariable)}
    {s : Statement} (proper : s.Proper) {place : Place} {pool : Pool} (placed : place.Scoped)
    (allowed : s.Allowed outer place.locals place.depth) (narrow : s.Narrow layout place pool)
    {p : Part} (mem : p ∈ s.parts layout outer place pool) : p.Fine layout := by
  induction s generalizing place pool with
  | next a b first rest =>
      have locals := a.locals_code layout proper.1 pool placed
      have after := placed.knowing a.depth_declared
      rw [← locals] at after
      rcases List.mem_append.mp mem with mem | mem
      · exact first proper.1 placed allowed.1 narrow.1 mem
      · refine rest proper.2 after ?_ narrow.2 mem
        rw [Place.knowing_locals, locals]
        exact allowed.2
  | block s ih => exact ih proper placed.inner allowed narrow mem
  | choose c s t yes no =>
      obtain ⟨-, left, right, flat, -⟩ := proper
      have locals := s.locals_code layout left (c.code place.locals pool).2 placed
      rw [flat.declared, List.nil_append] at locals
      rcases List.mem_append.mp mem with mem | mem
      · exact yes left placed allowed.2.1 narrow.1 mem
      · simp only [Statement.Narrow, locals, Place.knowing_self] at narrow mem
        exact no right placed allowed.2.2 narrow.2 mem
  | loop test step s ih => exact ih proper.2.2.1 placed.looped allowed.2.2 narrow mem
  | define name parameters s =>
      obtain rfl := List.mem_singleton.mp mem
      exact ⟨proper, allowed.1, allowed.2, narrow.2, narrow.1, Place.scoped_function _, rfl,
        by simp [Place.function], rfl⟩
  | _ => cases mem

theorem Part.Fine.inner {layout : Layout} {p q : Part} (h : p.Fine layout)
    (mem : q ∈ p.inner layout) : q.Fine layout :=
  Statement.fine_of_mem_parts h.proper h.placed h.allowed h.narrow mem

theorem Part.Fine.within {layout : Layout} {whole p : Part} (h : whole.Fine layout)
    (within : whole.Within layout p) : p.Fine layout := by
  induction within with
  | self => exact h
  | inner _ mem ih => exact ih.inner mem

/-- Functions declared in a statement begin with a pool that the compiler filled. -/
theorem Statement.sound_of_mem_parts {layout : Layout} {outer : List (List LocalVariable)}
    {s : Statement} (proper : s.Proper) {place : Place} {pool : Pool} (sound : pool.Sound)
    {p : Part} (mem : p ∈ s.parts layout outer place pool) : p.pool.Sound := by
  induction s generalizing place pool with
  | next a b first rest =>
      rcases List.mem_append.mp mem with mem | mem
      · exact first proper.1 sound mem
      · exact rest proper.2 (a.sound_code layout proper.1 place sound) mem
  | block s ih => exact ih proper sound mem
  | choose c s t yes no =>
      obtain ⟨test, left, right, -⟩ := proper
      have tested := c.sound_code place.locals test pool sound
      rcases List.mem_append.mp mem with mem | mem
      · exact yes left tested mem
      · exact no right (s.sound_code layout left place tested) mem
  | loop test step s ih =>
      obtain ⟨tested, stepped, inside, -⟩ := proper
      exact ih inside (sound_clauseCode _ stepped (sound_clauseCode _ tested sound)) mem
  | define name parameters s =>
      obtain rfl := List.mem_singleton.mp mem
      exact (sound.declare place.depth name).function name
  | _ => cases mem

theorem Part.Fine.sound_inner {layout : Layout} {p q : Part} (h : p.Fine layout)
    (sound : p.pool.Sound) (mem : q ∈ p.inner layout) : q.pool.Sound :=
  Statement.sound_of_mem_parts h.proper sound mem

/-- So does what a routine is compiled to. -/
theorem Part.Fine.sound_coded {layout : Layout} {p : Part} (h : p.Fine layout)
    (sound : p.pool.Sound) : (p.coded layout).pool.Sound :=
  p.body.sound_code layout h.proper p.place sound

/-! ## Constants -/

/-- A number or a string. -/
inductive Value.Literal : Value → Prop where
  | number (x : Float) : Literal (.number x)
  | string (text : Text) : Literal (.string text)

namespace Pool

/-- Adding one of the new values preserves what is said of the constants. -/
def Keeps (new : Value → Prop) (P : Array Value → Prop) : Prop :=
  ∀ (heap : Heap) (constants : Array Value) (v : Value), new v → P constants →
    P (add ⟨heap, constants⟩ v).2.constants

namespace Keeps

variable {new : Value → Prop} {P : Array Value → Prop} (keeps : Keeps new P)
  (literal : ∀ v : Value, v.Literal → new v) {pool : Pool} (h : P pool.constants)

include keeps literal h

theorem addString (chars : String) : P (pool.addString chars).2.constants :=
  keeps _ _ _ (literal _ (.string _)) h

theorem declare (depth : Nat) (name : String) : P (pool.declare depth name).2.constants := by
  unfold Pool.declare
  split
  · exact keeps.addString literal h name
  · exact h

theorem resolve (locals : List LocalVariable) (name : String) : P (pool.resolve locals name).2.constants := by
  unfold Pool.resolve
  split
  · exact h
  · exact keeps.addString literal h name

end Keeps

end Pool

section

variable {new : Value → Prop} {P : Array Value → Prop}

mutual

/-- An expression adds literals only. -/
theorem Expression.kept_code (keeps : Pool.Keeps new P) (literal : ∀ v : Value, v.Literal → new v)
    (locals : List LocalVariable) : (e : Expression) → {pool : Pool} → P pool.constants →
      P (e.code locals pool).2.constants
  | .null, _, h | .boolean _, _, h => h
  | .number x, _, h => keeps _ _ _ (literal _ (.number x)) h
  | .string chars, _, h => keeps.addString literal h chars
  | .variable name, _, h => keeps.resolve literal h locals name
  | .grouping e, _, h | .unary _ e, _, h => e.kept_code keeps literal locals h
  | .binary _ a b, _, h | .and a b, _, h | .or a b, _, h =>
      b.kept_code keeps literal locals (a.kept_code keeps literal locals h)
  | .assign name e, _, h => e.kept_code keeps literal locals (keeps.resolve literal h locals name)
  | .call f es, _, h =>
      Expression.kept_listCode keeps literal locals es (f.kept_code keeps literal locals h)

theorem Expression.kept_listCode (keeps : Pool.Keeps new P) (literal : ∀ v : Value, v.Literal → new v)
    (locals : List LocalVariable) : (es : List Expression) → {pool : Pool} → P pool.constants →
      P (Expression.listCode locals es pool).2.constants
  | [], _, h => h
  | e :: es, _, h => Expression.kept_listCode keeps literal locals es (e.kept_code keeps literal locals h)

end

variable (keeps : Pool.Keeps new P) (literal : ∀ v : Value, v.Literal → new v)

include keeps literal

section

variable (locals : List LocalVariable) {pool : Pool} (h : P pool.constants)

include h

theorem kept_initialCode (init : Option Expression) : P (initialCode locals init pool).2.constants := by
  cases init with
  | none => exact h
  | some e => exact e.kept_code keeps literal locals h

theorem kept_clauseCode (clause : Option Expression) : P (clauseCode locals clause pool).2.constants := by
  cases clause with
  | none => exact h
  | some e => exact e.kept_code keeps literal locals h

end

/-- A statement adds literals, and the routines of the functions declared in it. -/
theorem Statement.kept_code {layout : Layout} {outer : List (List LocalVariable)} (s : Statement)
    {place : Place} {pool : Pool}
    (parts : ∀ p ∈ s.parts layout outer place pool, new (.routine (p.routine layout)))
    (h : P pool.constants) : P (s.code layout place pool).pool.constants := by
  induction s generalizing place pool with
  | done | leave | again => exact h
  | next a b first rest =>
      rw [Statement.parts, List.forall_mem_append] at parts
      exact rest parts.2 (first parts.1 h)
  | print e | expression e => exact e.kept_code keeps literal place.locals h
  | declare assignable name init =>
      simp only [Statement.code]
      split
      · exact kept_initialCode keeps literal place.locals (keeps.addString literal h name) init
      · exact kept_initialCode keeps literal place.locals h init
  | block s ih => exact ih parts h
  | choose c s t yes no =>
      rw [Statement.parts, List.forall_mem_append] at parts
      exact no parts.2 (yes parts.1 (c.kept_code keeps literal place.locals h))
  | loop test step s ih =>
      exact ih parts (kept_clauseCode keeps literal place.locals
        (kept_clauseCode keeps literal place.locals h test) step)
  | giveBack value => exact kept_initialCode keeps literal place.locals h value
  | define name parameters s =>
      have routine := parts _ (List.mem_singleton_self _)
      have declared := keeps.declare literal h place.depth name
      simp only [Statement.code]
      split
      · exact keeps _ _ _ routine declared
      · exact keeps _ _ _ routine declared

end

/-- What is true of new values is true of all constants, if it was true before. -/
theorem Pool.keeps_all (new : Value → Prop) : Keeps new fun constants => ∀ v ∈ constants, new v := by
  intro heap constants v one h w mem
  unfold add at mem
  split at mem
  · exact h w mem
  · rcases Array.mem_push.mp mem with old | rfl
    · exact h w old
    · exact one

/-- The constants of a routine are literals and the routines inside it. -/
theorem Part.Fine.constants {layout : Layout} {p : Part} (h : p.Fine layout) :
    ∀ v ∈ (p.routine layout).chunk.constants,
      v.Literal ∨ ∃ q ∈ p.inner layout, v = .routine (q.routine layout) := by
  refine p.body.kept_code (Pool.keeps_all _) (fun v literal => .inl literal)
    (fun q mem => .inr ⟨q, mem, rfl⟩) ?_
  rw [h.fresh]
  exact fun v mem => absurd mem (Array.not_mem_empty v)

/-! ## Routines -/

/-- A routine that another can get hold of: it is the routine itself, or a constant of one
of these routines. -/
inductive Routine.Within (whole : Routine) : Routine → Prop where
  | self : Within whole whole
  | constant {r q : Routine} {v : Value} (h : Within whole r) (mem : v ∈ r.chunk.constants)
      (same : v.datum = .routine q) : Within whole q

/-- The routine is that of one of the given parts. -/
def Routine.OneOf (holds : Layout → Part → Prop) (r : Routine) : Prop :=
  ∃ layout p, holds layout p ∧ r = p.routine layout

/-- Parts of programs, together with all that their routines can get hold of. -/
structure Library where
  holds : Layout → Part → Prop
  fine : ∀ {layout p}, holds layout p → p.Fine layout
  closed : ∀ {layout p}, holds layout p → ∀ v ∈ (p.routine layout).chunk.constants,
    ∀ r, v.datum = .routine r → r.OneOf holds

/-- A routine among the constants of a part is that of a part inside. -/
theorem Part.Fine.inner_of_constant {layout : Layout} {p : Part} (h : p.Fine layout) {v : Value}
    (mem : v ∈ (p.routine layout).chunk.constants) {r : Routine} (same : v.datum = .routine r) :
    ∃ q ∈ p.inner layout, r = q.routine layout := by
  rcases h.constants v mem with literal | ⟨q, declared, rfl⟩
  · cases literal <;> cases same
  · exact ⟨q, declared, (Datum.routine.inj same).symm⟩

namespace Library

/-- All parts of all programs. -/
def all : Library where
  holds layout p := p.Fine layout
  fine h := h
  closed h v mem r same := by
    obtain ⟨q, declared, rfl⟩ := h.inner_of_constant mem same
    exact ⟨_, q, h.inner declared, rfl⟩

/-- The parts of one program. -/
def program {layout : Layout} {whole : Part} (fine : whole.Fine layout) : Library where
  holds other p := other = layout ∧ whole.Within layout p
  fine h := by
    obtain ⟨rfl, within⟩ := h
    exact Part.Fine.within fine within
  closed h v mem r same := by
    obtain ⟨rfl, within⟩ := h
    obtain ⟨q, declared, rfl⟩ := (fine.within within).inner_of_constant mem same
    exact ⟨_, q, ⟨rfl, .inner within declared⟩, rfl⟩

/-- What a routine of a library can get hold of is in the library. -/
theorem within (lib : Library) {whole r : Routine} (h : whole.OneOf lib.holds)
    (within : whole.Within r) : r.OneOf lib.holds := by
  induction within with
  | self => exact h
  | constant _ mem same ih =>
      obtain ⟨layout, p, held, rfl⟩ := ih
      exact lib.closed held _ mem _ same

end Library

end StackScript
