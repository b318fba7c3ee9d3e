import StackScript.Proofs.Code.Moved

/-!
# Functions in the order of their declaration

`Part.all` lists a part and all parts declared inside it, each before those inside it, and
`Routine.all` lists a routine and all routines among its constants and theirs in the same way.  A
routine is new when it is put into the pool, so the constants of a routine hold those of its inner
parts once each and in order, and both lists go together (`Part.Fine.all_routine`).  The parts are
those of the declarations in the tree, one for each (`Statement.declared_allParts`), and no two have the
same identity (`Part.ids_all`).
-/

namespace StackScript

/-! ## Routines inside routines -/

/-- The routines among some constants. -/
def routinesOf (constants : Array Value) : List Routine := constants.toList.filterMap Value.asRoutine?

mutual

/-- A routine, and all routines that it can get hold of, depth first. -/
def Routine.all : Routine → List Routine
  | ⟨id, name, arity, ⟨code, ⟨constants⟩, lines⟩⟩ =>
      ⟨id, name, arity, ⟨code, ⟨constants⟩, lines⟩⟩ :: Value.allRoutines constants

/-- All routines that some values lead to. -/
def Value.allRoutines : List Value → List Routine
  | [] => []
  | ⟨.routine r, _⟩ :: rest => r.all ++ Value.allRoutines rest
  | _ :: rest => Value.allRoutines rest

end

theorem Value.allRoutines_eq (vs : List Value) :
    Value.allRoutines vs = (vs.filterMap Value.asRoutine?).flatMap Routine.all := by
  induction vs with
  | nil => rfl
  | cons v vs ih =>
      obtain ⟨datum, assignable⟩ := v
      cases datum with
      | routine r =>
          rw [Value.allRoutines, ih]
          rfl
      | null | bool | number | string | native =>
          rw [Value.allRoutines, ih]
          · rfl
          · exact fun r flag same => by cases same

theorem Routine.all_eq (r : Routine) : r.all = r :: (routinesOf r.chunk.constants).flatMap Routine.all := by
  obtain ⟨id, name, arity, ⟨code, ⟨constants⟩, lines⟩⟩ := r
  rw [Routine.all, Value.allRoutines_eq]
  rfl

theorem Routine.self_mem_all (r : Routine) : r ∈ r.all := by
  rw [Routine.all_eq]
  exact List.mem_cons_self ..

theorem mem_routinesOf {constants : Array Value} {v : Value} {r : Routine} (mem : v ∈ constants)
    (same : v.datum = .routine r) : r ∈ routinesOf constants := by
  refine List.mem_filterMap.mpr ⟨v, Array.mem_toList_iff.mpr mem, ?_⟩
  rw [Value.asRoutine?, same]

mutual

theorem Routine.within_of_mem_all {whole q : Routine} :
    (r : Routine) → whole.Within r → q ∈ r.all → whole.Within q
  | ⟨id, name, arity, ⟨code, ⟨constants⟩, lines⟩⟩, within, mem => by
      rcases List.mem_cons.mp mem with rfl | mem
      · exact within
      · exact Value.within_of_mem_allRoutines constants
          (fun v mem r same => .constant within (Array.mem_def.mpr mem) same) mem

theorem Value.within_of_mem_allRoutines {whole q : Routine} :
    (vs : List Value) → (∀ v ∈ vs, ∀ r, v.datum = .routine r → whole.Within r) →
      q ∈ Value.allRoutines vs → whole.Within q
  | [], _, mem => absurd mem List.not_mem_nil
  | ⟨datum, assignable⟩ :: vs, within, mem => by
      have others := fun v mem => within v (List.mem_cons_of_mem _ mem)
      cases datum with
      | routine r =>
          rcases List.mem_append.mp mem with mem | mem
          · exact Routine.within_of_mem_all r (within _ (List.mem_cons_self ..) r rfl) mem
          · exact Value.within_of_mem_allRoutines vs others mem
      | null | bool | number | string | native => exact Value.within_of_mem_allRoutines vs others mem

end

mutual

/-- Routines among the constants of a listed routine are listed as well. -/
theorem Routine.mem_all_of_constant {q inner : Routine} {v : Value} (constant : v ∈ q.chunk.constants)
    (same : v.datum = .routine inner) : (r : Routine) → q ∈ r.all → inner ∈ r.all
  | ⟨id, name, arity, ⟨code, ⟨constants⟩, lines⟩⟩, mem => by
      rcases List.mem_cons.mp mem with rfl | mem
      · rw [Routine.all_eq]
        exact List.mem_cons_of_mem _
          (List.mem_flatMap.mpr ⟨inner, mem_routinesOf constant same, inner.self_mem_all⟩)
      · exact List.mem_cons_of_mem _ (Value.mem_allRoutines_of_constant constant same constants mem)

theorem Value.mem_allRoutines_of_constant {q inner : Routine} {v : Value} (constant : v ∈ q.chunk.constants)
    (same : v.datum = .routine inner) : (vs : List Value) → q ∈ Value.allRoutines vs →
      inner ∈ Value.allRoutines vs
  | [], mem => absurd mem List.not_mem_nil
  | ⟨datum, assignable⟩ :: vs, mem => by
      cases datum with
      | routine r =>
          refine List.mem_append.mpr ((List.mem_append.mp mem).imp ?_ ?_)
          · exact Routine.mem_all_of_constant constant same r
          · exact Value.mem_allRoutines_of_constant constant same vs
      | null | bool | number | string | native => exact Value.mem_allRoutines_of_constant constant same vs mem

end

/-- Exactly the routines that a routine can get hold of are listed. -/
theorem Routine.mem_all {r q : Routine} : q ∈ r.all ↔ r.Within q := by
  constructor
  · exact Routine.within_of_mem_all r .self
  · intro within
    induction within with
    | self => exact r.self_mem_all
    | constant _ mem same ih => exact Routine.mem_all_of_constant mem same r ih

/-! ## Parts inside parts -/

/-- All functions declared in a statement, each before those declared in it. -/
def Statement.allParts (layout : Layout) (outer : List (List LocalVariable)) :
    Statement → Place → Pool → List Part
  | .next a b, place, pool =>
      let first := a.code layout place pool
      a.allParts layout outer place pool ++
        b.allParts layout outer (place.knowing first.locals) first.pool
  | .block s, place, pool => s.allParts layout outer place.inner pool
  | .choose c s t, place, pool =>
      let test := c.code place.locals pool
      let yes := s.code layout place test.2
      s.allParts layout outer place test.2 ++
        t.allParts layout outer (place.knowing yes.locals) yes.pool
  | .loop test step s, place, pool =>
      s.allParts layout outer place.looped
        (clauseCode place.locals step (clauseCode place.locals test pool).2).2
  | .define name parameters s, place, pool =>
      let global := pool.declare place.depth name
      let outer := (declaredName place.depth name ++ place.locals) :: outer
      let inside := global.2.function name
      ⟨some (global.2.heap.intern name).1, parameters.length, outer, .function parameters, s, inside⟩ ::
        s.allParts layout outer (.function parameters) inside
  | _, _, _ => []

namespace Part

variable (layout : Layout)

/-- A part and all parts inside it, each before those inside it. -/
def all (p : Part) : List Part := p :: p.body.allParts layout p.outer p.place p.pool

end Part

/-! ## Routines in the pool -/

/-- Literals are no routines. -/
theorem keeps_routinesOf (routines : List Routine) :
    Pool.Keeps Value.Literal fun constants => routinesOf constants = routines := by
  intro heap constants v literal h
  unfold Pool.add
  split
  · exact h
  · show routinesOf (constants.push v) = routines
    rw [routinesOf, Array.toList_push, List.filterMap_append]
    cases literal <;> exact (List.append_nil _).trans h

/-- A statement puts the routines of the functions declared in it behind those in the pool. -/
theorem Statement.routinesOf_code (layout : Layout) (outer : List (List LocalVariable)) (s : Statement)
    (place : Place) {pool : Pool} (dated : pool.Dated) :
    routinesOf (s.code layout place pool).pool.constants =
      routinesOf pool.constants ++ (s.parts layout outer place pool).map (Part.routine layout) := by
  have literal : ∀ v : Value, v.Literal → v.Literal := fun _ => id
  induction s generalizing place pool with
  | done | leave | again => exact (List.append_nil _).symm
  | print e | expression e =>
      exact (e.kept_code (keeps_routinesOf _) literal place.locals rfl).trans (List.append_nil _).symm
  | giveBack value =>
      exact (kept_initialCode (keeps_routinesOf _) literal place.locals rfl value).trans (List.append_nil _).symm
  | declare assignable name init =>
      refine Eq.trans ?_ (List.append_nil _).symm
      simp only [Statement.code]
      split
      · exact kept_initialCode (keeps_routinesOf _) literal place.locals
          ((keeps_routinesOf _).addString literal rfl name) init
      · exact kept_initialCode (keeps_routinesOf _) literal place.locals rfl init
  | next a b first rest =>
      rw [Statement.parts, List.map_append, ← List.append_assoc, ← first place dated]
      exact rest _ (a.dated_code layout place dated)
  | block s ih => exact ih _ dated
  | choose c s t yes no =>
      have dates := dated.code place.locals c
      have same : routinesOf (c.code place.locals pool).2.constants = routinesOf pool.constants :=
        c.kept_code (keeps_routinesOf _) literal place.locals rfl
      rw [Statement.parts, List.map_append, ← List.append_assoc, ← same, ← yes place dates]
      exact no _ (s.dated_code layout place dates)
  | loop test step s ih =>
      have dates := (dated.clauseCode place.locals test).clauseCode place.locals step
      have same : routinesOf (clauseCode place.locals step (clauseCode place.locals test pool).2).2.constants =
          routinesOf pool.constants :=
        kept_clauseCode (keeps_routinesOf _) literal place.locals
          (kept_clauseCode (keeps_routinesOf _) literal place.locals rfl test) step
      rw [← same]
      exact ih _ dates
  | define name parameters s =>
      have dates := dated.declare place.depth name
      have same : routinesOf (pool.declare place.depth name).2.constants = routinesOf pool.constants :=
        (keeps_routinesOf _).declare literal rfl place.depth name
      have pushed (r : Routine) : routinesOf ((pool.declare place.depth name).2.constants.push (.routine r)) =
          routinesOf pool.constants ++ [r] := by
        rw [← same, routinesOf, Array.toList_push, List.filterMap_append]
        rfl
      -- a new routine is equal to none of the constants, so it is put behind them
      rw [Statement.parts, List.map_singleton]
      simp only [Statement.code]
      split
      · rw [dates.add_routine (s.later_function ..)]
        exact pushed _
      · rw [dates.add_routine (s.later_function ..)]
        exact pushed _

/-- A routine leads to the routines of the parts inside it, as nothing else was in its pool before. -/
theorem Part.all_routine_eq (layout : Layout) {p : Part} (fresh : p.pool.constants = #[]) :
    (p.routine layout).all =
      p.routine layout :: (p.inner layout).flatMap fun q => (q.routine layout).all := by
  have constants : routinesOf (p.routine layout).chunk.constants = (p.inner layout).map (Part.routine layout) := by
    have all := p.body.routinesOf_code layout p.outer p.place (Pool.dated_of_fresh fresh)
    rw [fresh] at all
    exact all
  rw [Routine.all_eq, constants, List.flatMap_map]

/-- The routines that the inner parts of a statement lead to are those of all its parts. -/
theorem Statement.all_routines (layout : Layout) (outer : List (List LocalVariable)) (s : Statement)
    (place : Place) (pool : Pool) :
    (s.parts layout outer place pool).flatMap (fun p => (p.routine layout).all) =
      (s.allParts layout outer place pool).map (Part.routine layout) := by
  induction s generalizing outer place pool with
  | next a b first rest =>
      rw [Statement.allParts, Statement.parts, List.flatMap_append, List.map_append, first, rest]
  | choose c s t yes no =>
      rw [Statement.allParts, Statement.parts, List.flatMap_append, List.map_append, yes, no]
  | block s ih => exact ih ..
  | loop test step s ih => exact ih ..
  | define name parameters s ih =>
      rw [Statement.parts, List.flatMap_singleton, Statement.allParts, List.map_cons, Part.all_routine_eq]
      · exact congrArg (_ :: ·) (ih ..)
      · rfl
  | _ => rfl

theorem Part.Fine.all_routine {layout : Layout} {p : Part} (h : p.Fine layout) :
    (p.routine layout).all = (p.all layout).map (Part.routine layout) :=
  (p.all_routine_eq layout h.fresh).trans (congrArg (_ :: ·) (p.body.all_routines ..))

/-! ## What the parts are -/

/-- A function as it is declared. -/
structure Declaration where
  name : String
  parameters : List String
  body : Statement

/-- The functions declared in a statement, each before those declared in it. -/
def Statement.declarations : Statement → List Declaration
  | .next a b => a.declarations ++ b.declarations
  | .block s => s.declarations
  | .choose _ s t => s.declarations ++ t.declarations
  | .loop _ _ s => s.declarations
  | .define name parameters s => ⟨name, parameters, s⟩ :: s.declarations
  | _ => []

theorem Statement.functions_eq (s : Statement) : s.functions = s.declarations.map Declaration.name := by
  induction s with
  | next a b first rest => rw [functions, declarations, List.map_append, first, rest]
  | choose c s t yes no => rw [functions, declarations, List.map_append, yes, no]
  | block s ih | loop test step s ih => exact ih
  | define name parameters s ih => exact congrArg (name :: ·) ih
  | _ => rfl

/-- The part is that of the declared function. -/
structure Declaration.Leads (d : Declaration) (p : Part) : Prop where
  name : p.name.map Text.chars = some d.name
  arity : p.arity = d.parameters.length
  place : p.place = .function d.parameters
  body : p.body = d.body

/-- Every declaration leads to a part of its own. -/
theorem Statement.declared_allParts (layout : Layout) (outer : List (List LocalVariable)) (s : Statement)
    (proper : s.Proper) (place : Place) {pool : Pool} (sound : pool.Sound) :
    List.Forall₂ Declaration.Leads s.declarations (s.allParts layout outer place pool) := by
  induction s generalizing outer place pool with
  | next a b first rest =>
      exact List.rel_append (first outer proper.1 place sound)
        (rest outer proper.2 _ (a.sound_code layout proper.1 place sound))
  | choose c s t yes no =>
      obtain ⟨test, left, right, -⟩ := proper
      have tested := c.sound_code place.locals test pool sound
      exact List.rel_append (yes outer left place tested)
        (no outer right _ (s.sound_code layout left place tested))
  | block s ih => exact ih outer proper _ sound
  | loop test step s ih =>
      obtain ⟨tested, stepped, inside, -⟩ := proper
      exact ih outer inside _ (sound_clauseCode _ stepped (sound_clauseCode _ tested sound))
  | define name parameters s ih =>
      have declared := sound.declare place.depth name
      exact .cons ⟨congrArg some (declared.heap.chars_text name), rfl, rfl, rfl⟩
        (ih _ proper _ (declared.function name))
  | _ => exact .nil

theorem Part.id_routine (layout : Layout) (p : Part) :
    (p.routine layout).id = p.pool.heap.routines + p.body.functions.length := p.body.routines_code ..

/-- Every part has an identity of its own: a function has the one after those of the functions
declared in it. -/
theorem Statement.ids_allParts (layout : Layout) (outer : List (List LocalVariable)) (s : Statement)
    (place : Place) (pool : Pool) :
    ((s.allParts layout outer place pool).map fun p => (p.routine layout).id).Perm
      (List.range' pool.heap.routines s.functions.length) := by
  induction s generalizing outer place pool with
  | next a b first rest =>
      have others := rest outer (place.knowing (a.code layout place pool).locals) (a.code layout place pool).pool
      rw [a.routines_code] at others
      rw [allParts, functions, List.map_append, List.length_append, ← List.range'_append_1]
      exact (first ..).append others
  | choose c s t yes no =>
      have first := yes outer place (c.code place.locals pool).2
      have others := no outer (place.knowing (s.code layout place (c.code place.locals pool).2).locals)
        (s.code layout place (c.code place.locals pool).2).pool
      rw [s.routines_code, c.routines_code] at others
      rw [c.routines_code] at first
      rw [allParts, functions, List.map_append, List.length_append, ← List.range'_append_1]
      exact first.append others
  | block s ih => exact ih ..
  | loop test step s ih =>
      have inside := ih outer place.looped (clauseCode place.locals step (clauseCode place.locals test pool).2).2
      rw [routines_clauseCode, routines_clauseCode] at inside
      exact inside
  | define name parameters s ih =>
      have inside := ih ((declaredName place.depth name ++ place.locals) :: outer) (.function parameters)
        ((pool.declare place.depth name).2.function name)
      rw [Pool.routines_function, Pool.routines_declare] at inside
      rw [allParts, functions, List.map_cons, Part.id_routine, List.length_cons, List.range'_concat, Nat.one_mul]
      dsimp only
      rw [Pool.routines_function, Pool.routines_declare]
      -- the function is the first of the list, and the last one to get its identity
      exact (inside.cons _).trans (List.perm_append_singleton ..).symm
  | _ => exact .nil

/-- No two routines of a part and the parts inside it have the same identity. -/
theorem Part.ids_all (layout : Layout) (p : Part) :
    ((p.all layout).map fun q => (q.routine layout).id).Nodup := by
  have inside := p.body.ids_allParts layout p.outer p.place p.pool
  rw [all, List.map_cons, p.id_routine, List.nodup_cons]
  constructor
  · rw [inside.mem_iff, List.mem_range'_1]
    exact fun within => Nat.lt_irrefl _ within.2
  · exact inside.nodup_iff.mpr List.nodup_range'

end StackScript
