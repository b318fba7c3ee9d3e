import StackScript.Proofs.Code.Checks
import StackScript.Proofs.Value.Twins

/-!
# The code of one tree in two heaps

A tree is compiled to the same code in any heap, and to constants that differ in identities
only, if the compiler begins with such constants.  In particular the routines of a function
declaration are twins wherever the declaration stands.  Identities are given out one after
the other, so they differ by how many there were before.
-/

namespace StackScript

/-! ## Identities -/

@[simp] theorem Heap.routines_intern (heap : Heap) (chars : String) :
    (heap.intern chars).2.routines = heap.routines := rfl

namespace Pool

@[simp] theorem routines_add (pool : Pool) (v : Value) :
    (pool.add v).2.heap.routines = pool.heap.routines := by rw [heap_add]

@[simp] theorem routines_addString (pool : Pool) (chars : String) :
    (pool.addString chars).2.heap.routines = pool.heap.routines := routines_add ..

@[simp] theorem routines_resolve (pool : Pool) (locals : List LocalVariable) (name : String) :
    (pool.resolve locals name).2.heap.routines = pool.heap.routines := by
  unfold resolve
  split <;> simp

@[simp] theorem routines_declare (pool : Pool) (depth : Nat) (name : String) :
    (pool.declare depth name).2.heap.routines = pool.heap.routines := by
  unfold declare
  split <;> simp

@[simp] theorem routines_function (pool : Pool) (name : String) :
    (pool.function name).heap.routines = pool.heap.routines := rfl

end Pool

mutual

/-- No routines are made for an expression. -/
@[simp] theorem Expression.routines_code (locals : List LocalVariable) :
    (e : Expression) → (pool : Pool) → (e.code locals pool).2.heap.routines = pool.heap.routines
  | .null, _ | .boolean _, _ => rfl
  | .number _, pool => pool.routines_add _
  | .string _, pool => pool.routines_addString _
  | .variable name, pool => pool.routines_resolve locals name
  | .grouping e, pool | .unary _ e, pool => e.routines_code locals pool
  | .binary _ a b, pool | .and a b, pool | .or a b, pool =>
      (b.routines_code locals _).trans (a.routines_code locals pool)
  | .assign name e, pool => (e.routines_code locals _).trans (pool.routines_resolve locals name)
  | .call f es, pool => (Expression.routines_listCode locals es _).trans (f.routines_code locals pool)

@[simp] theorem Expression.routines_listCode (locals : List LocalVariable) :
    (es : List Expression) → (pool : Pool) →
      (Expression.listCode locals es pool).2.heap.routines = pool.heap.routines
  | [], _ => rfl
  | e :: es, pool => (Expression.routines_listCode locals es _).trans (e.routines_code locals pool)

end

@[simp] theorem routines_initialCode (locals : List LocalVariable) (init : Option Expression) (pool : Pool) :
    (initialCode locals init pool).2.heap.routines = pool.heap.routines := by
  cases init with
  | none => rfl
  | some e => exact e.routines_code locals pool

@[simp] theorem routines_clauseCode (locals : List LocalVariable) (clause : Option Expression) (pool : Pool) :
    (clauseCode locals clause pool).2.heap.routines = pool.heap.routines := by
  cases clause with
  | none => rfl
  | some e => exact e.routines_code locals pool

/-- A statement makes one routine for each function declared in it. -/
theorem Statement.routines_code (layout : Layout) (s : Statement) (place : Place) (pool : Pool) :
    (s.code layout place pool).pool.heap.routines = pool.heap.routines + s.functions.length := by
  induction s generalizing place pool with
  | done | leave | again => rfl
  | print | expression | giveBack => simp [Statement.code, Statement.functions]
  | next a b first rest =>
      simp only [Statement.code, rest, first, Statement.functions, List.length_append, Nat.add_assoc]
  | declare assignable name init =>
      simp only [Statement.code]
      split <;> simp [Statement.functions]
  | block s ih => exact ih place.inner pool
  | choose c s t yes no =>
      simp only [Statement.code, no, yes, Expression.routines_code, Statement.functions,
        List.length_append, Nat.add_assoc]
  | loop test step s ih => simp only [Statement.code, ih, routines_clauseCode, Statement.functions]
  | define name parameters s ih =>
      have made (layout : Layout) (name : Option Text) (arity : Nat) (ending : Ending) (body : Coded) :
          (body.routine layout name arity ending).2.routines = body.pool.heap.routines + 1 := rfl
      simp only [Statement.code]
      split <;> simp [made, ih, Statement.functions, Nat.add_assoc]

/-- The routine of a function is made after all that are there where its body begins. -/
theorem Statement.later_function (layout : Layout) (s : Statement) (place : Place) (pool : Pool)
    (name : String) :
    pool.heap.routines ≤ (s.code layout place (pool.function name)).pool.heap.routines := by
  rw [s.routines_code, Pool.routines_function]
  exact Nat.le_add_right _ _

/-- The locals after a statement do not depend on its constants. -/
theorem Statement.locals_eq (layout layout' : Layout) (s : Statement) (place : Place) (pool pool' : Pool) :
    (s.code layout place pool).locals = (s.code layout' place pool').locals := by
  induction s generalizing place pool pool' with
  | next a b first rest =>
      simp only [Statement.code]
      rw [first place pool pool']
      exact rest _ _ _
  | block s ih => simp only [Statement.code, ih place.inner pool pool']
  | choose c s t yes no =>
      simp only [Statement.code]
      rw [yes place _ (c.code place.locals pool').2]
      exact no _ _ _
  | loop test step s ih => exact ih _ _ _
  | declare | define => simp only [Statement.code]; split <;> rfl
  | _ => rfl

/-! ## Pools -/

/-- Strings are listed under their own characters, and the constants are the same apart from
identities. -/
structure Pool.Twin (ids : Nat → Nat → Prop) (p q : Pool) : Prop where
  heap : p.heap.Valid
  heap' : q.heap.Valid
  constants : List.Forall₂ (Value.Like (Routine.Twin ids)) p.constants.toList q.constants.toList

theorem findIdx?_of_rel {α β : Type} {like : α → β → Prop} {l : List α} {l' : List β} {p : α → Bool}
    {q : β → Bool} (h : List.Forall₂ like l l') (same : ∀ a b, like a b → p a = q b) :
    l.findIdx? p = l'.findIdx? q := by
  induction h with
  | nil => rfl
  | cons first _ ih => rw [List.findIdx?_cons, List.findIdx?_cons, same _ _ first, ih]

section

variable {ids : Nat → Nat → Prop} {p q : Pool}

namespace Pool.Twin

theorem intern (h : p.Twin ids q) (chars : String) :
    Pool.Twin ids ⟨(p.heap.intern chars).2, p.constants⟩ ⟨(q.heap.intern chars).2, q.constants⟩ :=
  ⟨h.heap.intern chars, h.heap'.intern chars, h.constants⟩

theorem function (h : p.Twin ids q) (name : String) : (p.function name).Twin ids (q.function name) :=
  ⟨h.heap.intern name, h.heap'.intern name, .nil⟩

end Pool.Twin

/-- The string objects of the same characters. -/
theorem Heap.Valid.like_string {pairs : Routine → Routine → Prop} {heap heap' : Heap} (h : heap.Valid)
    (h' : heap'.Valid) (chars : String) :
    (Value.string (heap.intern chars).1).Like pairs (.string (heap'.intern chars).1) :=
  .of (.string ((h.chars_text chars).trans (h'.chars_text chars).symm))

variable (one : OneToOne ids)

include one

namespace Pool.Twin

theorem add (h : p.Twin ids q) {v v' : Value} (like : v.Like (Routine.Twin ids) v') :
    (p.add v).1 = (q.add v').1 ∧ (p.add v).2.Twin ids (q.add v').2 := by
  have constants := h.constants
  have found : p.constants.findIdx? (· == v) = q.constants.findIdx? (· == v') := by
    have listed (vs : Array Value) (v : Value) : vs.findIdx? (· == v) = vs.toList.findIdx? (· == v) := by
      obtain ⟨vs⟩ := vs
      exact List.findIdx?_toArray ..
    rw [listed, listed]
    exact findIdx?_of_rel constants fun w w' there => there.beq (Routine.Twin.respectful one) like
  have size : p.constants.size = q.constants.size := by simpa using constants.length_eq
  unfold Pool.add
  rw [← found]
  cases p.constants.findIdx? (· == v) with
  | some index => exact ⟨rfl, h⟩
  | none =>
      refine ⟨size, h.heap, h.heap', ?_⟩
      rw [Array.toList_push, Array.toList_push]
      exact List.rel_append constants (.cons like .nil)

theorem addString (h : p.Twin ids q) (chars : String) :
    (p.addString chars).1 = (q.addString chars).1 ∧
      (p.addString chars).2.Twin ids (q.addString chars).2 :=
  (h.intern chars).add one (h.heap.like_string h.heap' chars)

theorem resolve (h : p.Twin ids q) (locals : List LocalVariable) (name : String) :
    (p.resolve locals name).1 = (q.resolve locals name).1 ∧
      (p.resolve locals name).2.Twin ids (q.resolve locals name).2 := by
  unfold Pool.resolve
  split
  · exact ⟨rfl, h⟩
  · obtain ⟨same, twins⟩ := h.addString one name
    exact ⟨congrArg Compiler.Target.global same, twins⟩

theorem declare (h : p.Twin ids q) (depth : Nat) (name : String) :
    (p.declare depth name).1 = (q.declare depth name).1 ∧
      (p.declare depth name).2.Twin ids (q.declare depth name).2 := by
  unfold Pool.declare
  split
  · exact h.addString one name
  · exact ⟨rfl, h⟩

end Pool.Twin

end

/-! ## Trees -/

section

variable {ids : Nat → Nat → Prop}

mutual

/-- An expression has the same code in pools that are twins. -/
theorem Expression.twins (one : OneToOne ids) (locals : List LocalVariable) : (e : Expression) → {p q : Pool} →
    p.Twin ids q → (e.code locals p).1 = (e.code locals q).1 ∧
      (e.code locals p).2.Twin ids (e.code locals q).2
  | .null, _, _, h | .boolean _, _, _, h => ⟨rfl, h⟩
  | .number x, _, _, h => (h.add one (.number x)).imp_left fun same => by simp only [Expression.code, same]
  | .string chars, _, _, h =>
      (h.addString one chars).imp_left fun same => by simp only [Expression.code, same]
  | .variable name, _, _, h =>
      (h.resolve one locals name).imp_left fun same => by simp only [Expression.code, same]
  | .grouping e, _, _, h => e.twins one locals h
  | .unary op e, _, _, h => (e.twins one locals h).imp_left fun same => by simp only [Expression.code, same]
  | .binary _ a b, _, _, h | .and a b, _, _, h | .or a b, _, _, h =>
      have left := a.twins one locals h
      (b.twins one locals left.2).imp_left fun same => by simp only [Expression.code, left.1, same]
  | .assign name e, _, _, h =>
      have target := h.resolve one locals name
      (e.twins one locals target.2).imp_left fun same => by simp only [Expression.code, target.1, same]
  | .call f es, _, _, h =>
      have callee := f.twins one locals h
      (Expression.twins_list one locals es callee.2).imp_left fun same => by
        simp only [Expression.code, callee.1, same]

theorem Expression.twins_list (one : OneToOne ids) (locals : List LocalVariable) : (es : List Expression) → {p q : Pool} →
    p.Twin ids q → (Expression.listCode locals es p).1 = (Expression.listCode locals es q).1 ∧
      (Expression.listCode locals es p).2.Twin ids (Expression.listCode locals es q).2
  | [], _, _, h => ⟨rfl, h⟩
  | e :: es, _, _, h =>
      have first := e.twins one locals h
      (Expression.twins_list one locals es first.2).imp_left fun same => by
        simp only [Expression.listCode, first.1, same]

end

theorem twins_initialCode (one : OneToOne ids) (locals : List LocalVariable) (init : Option Expression)
    {p q : Pool} (h : p.Twin ids q) : (initialCode locals init p).1 = (initialCode locals init q).1 ∧
      (initialCode locals init p).2.Twin ids (initialCode locals init q).2 := by
  cases init with
  | none => exact ⟨rfl, h⟩
  | some e => exact e.twins one locals h

theorem twins_clauseCode (one : OneToOne ids) (locals : List LocalVariable) (clause : Option Expression)
    {p q : Pool} (h : p.Twin ids q) : (clauseCode locals clause p).1 = (clauseCode locals clause q).1 ∧
      (clauseCode locals clause p).2.Twin ids (clauseCode locals clause q).2 := by
  cases clause with
  | none => exact ⟨rfl, h⟩
  | some e => exact (e.twins one locals h).imp_left (congrArg some)

/-- The identities that two pools give out next belong together. -/
def Fresh (ids : Nat → Nat → Prop) (count : Nat) (p q : Pool) : Prop :=
  ∀ j < count, ids (p.heap.routines + j) (q.heap.routines + j)

theorem Fresh.le {count more : Nat} {p q : Pool} (h : Fresh ids more p q) (le : count ≤ more) :
    Fresh ids count p q := fun j below => h j (by omega)

/-- After some have been given out the others are still to be given out. -/
theorem Fresh.after {made count : Nat} {p q p' q' : Pool} (h : Fresh ids (made + count) p q)
    (left : p'.heap.routines = p.heap.routines + made)
    (right : q'.heap.routines = q.heap.routines + made) : Fresh ids count p' q' := by
  intro j below
  rw [left, right, Nat.add_assoc, Nat.add_assoc]
  exact h (made + j) (by omega)

section

variable {layout layout' : Layout} {arity : Nat} {ending : Ending} {text text' : Text}
  {body body' : Coded} (name : text.chars = text'.chars) (cells : body.cells = body'.cells)
  (pools : body.pool.Twin ids body'.pool) (id : ids body.pool.heap.routines body'.pool.heap.routines)

include name cells pools id

/-- The routines of two bodies with the same code are twins. -/
theorem Coded.twins : (body.routine layout (some text) arity ending).1.Twin ids
    (body'.routine layout' (some text') arity ending).1 :=
  .of_constants id (congrArg some name) rfl
    (congrArg (fun cells => (assemble (draft cells ++ ending.closing)).toArray) cells) pools.constants

/-- So are the pools that hold them. -/
theorem Pool.Twin.addRoutine (one : OneToOne ids) {p q : Pool} (h : p.Twin ids q) :
    let made := body.routine layout (some text) arity ending
    let made' := body'.routine layout' (some text') arity ending
    (Pool.add ⟨made.2, p.constants⟩ (.routine made.1)).1 =
        (Pool.add ⟨made'.2, q.constants⟩ (.routine made'.1)).1 ∧
      (Pool.add ⟨made.2, p.constants⟩ (.routine made.1)).2.Twin ids
        (Pool.add ⟨made'.2, q.constants⟩ (.routine made'.1)).2 := by
  intro made made'
  have before : Pool.Twin ids ⟨made.2, p.constants⟩ ⟨made'.2, q.constants⟩ :=
    ⟨pools.heap, pools.heap', h.constants⟩
  exact before.add one (.of (.routine (Coded.twins name cells pools id)))

end

/-- A statement has the same code in pools that are twins. -/
theorem Statement.twins (one : OneToOne ids) (layout layout' : Layout) (s : Statement) {place : Place}
    {p q : Pool} (h : p.Twin ids q) (fresh : Fresh ids s.functions.length p q) :
    (s.code layout place p).cells = (s.code layout' place q).cells ∧
      (s.code layout place p).pool.Twin ids (s.code layout' place q).pool := by
  induction s generalizing place p q with
  | done | leave | again => exact ⟨rfl, h⟩
  | print e | expression e =>
      exact (e.twins one place.locals h).imp_left fun same => by simp only [Statement.code, same]
  | giveBack value =>
      exact (twins_initialCode one place.locals value h).imp_left fun same => by
        simp only [Statement.code, same]
  | next a b first rest =>
      rw [Statement.functions, List.length_append] at fresh
      obtain ⟨same, pools⟩ := @first place _ _ h (fresh.le (Nat.le_add_right _ _))
      have others := @rest (place.knowing (a.code layout place p).locals) _ _ pools
        (fresh.after (a.routines_code ..) (a.routines_code ..))
      simp only [Statement.code]
      rw [a.locals_eq layout' layout place q p, same]
      exact others.imp_left fun same => by rw [same]
  | declare assignable name init =>
      simp only [Statement.code]
      split
      · have global := h.addString one name
        exact (twins_initialCode one place.locals init global.2).imp_left fun same => by rw [global.1, same]
      · exact (twins_initialCode one place.locals init h).imp_left fun same => by rw [same]
  | block s ih =>
      simp only [Statement.code]
      rw [s.locals_eq layout' layout place.inner q p]
      exact (ih h fresh).imp_left fun same => by rw [same]
  | choose c s t yes no =>
      rw [Statement.functions, List.length_append] at fresh
      have test := c.twins one place.locals h
      have tested : Fresh ids (s.functions.length + t.functions.length) (c.code place.locals p).2
          (c.code place.locals q).2 := by simpa [Fresh] using fresh
      obtain ⟨left, pools⟩ := @yes place _ _ test.2 (tested.le (Nat.le_add_right _ _))
      have others := @no (place.knowing (s.code layout place (c.code place.locals p).2).locals) _ _ pools
        (tested.after (s.routines_code ..) (s.routines_code ..))
      simp only [Statement.code]
      rw [s.locals_eq layout' layout place _ (c.code place.locals p).2, test.1, left]
      exact others.imp_left fun same => by rw [same]
  | loop test step s ih =>
      have tested := twins_clauseCode one place.locals test h
      have stepped := twins_clauseCode one place.locals step tested.2
      simp only [Statement.code]
      rw [tested.1, stepped.1]
      exact (ih stepped.2 (by simpa [Fresh, Statement.functions] using fresh)).imp_left fun same => by rw [same]
  | define name parameters s ih =>
      -- inside the function the pools start empty on both sides, so they are twins again
      have global := h.declare one place.depth name
      have begun : Fresh ids (s.functions.length + 1) ((p.declare place.depth name).2.function name)
          ((q.declare place.depth name).2.function name) := by
        simpa [Fresh, Statement.functions] using fresh
      obtain ⟨same, pools⟩ := @ih (.function parameters) _ _ (global.2.function name)
        (begun.le (Nat.le_succ _))
      have id := begun s.functions.length (Nat.lt_succ_self _)
      rw [← s.routines_code layout (.function parameters), ← s.routines_code layout' (.function parameters)] at id
      have text : ((p.declare place.depth name).2.heap.intern name).1.chars =
          ((q.declare place.depth name).2.heap.intern name).1.chars :=
        (global.2.heap.chars_text name).trans (global.2.heap'.chars_text name).symm
      simp only [Statement.code]
      split
      · refine ⟨?_, (Pool.Twin.addRoutine text same pools id one global.2).2⟩
        rw [global.1]
        exact congrArg (fun index => ops [.indexed .constant index, _])
          (Pool.Twin.addRoutine text same pools id one global.2).1
      · refine ⟨?_, (Pool.Twin.addRoutine text same pools id one global.2).2⟩
        exact congrArg (fun index => ops [.indexed .constant index])
          (Pool.Twin.addRoutine text same pools id one global.2).1

end

end StackScript
