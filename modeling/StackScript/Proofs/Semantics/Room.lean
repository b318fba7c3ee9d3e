import StackScript.Proofs.Semantics.Frame

/-!
# Room on the stack

An expression needs a number of places on the operand stack that can be read off
its tree.  Where there are as many, the reference with limited room does what the
reference without limit does.
-/

namespace StackScript

mutual

/-- Number of places that an expression needs, apart from those of its calls. -/
def Expression.room : Expression → Nat
  | .null | .boolean _ | .number _ | .string _ | .variable _ => 1
  | .grouping e | .unary _ e | .assign _ e => e.room
  | .binary _ a b => max a.room (1 + b.room)
  | .and a b | .or a b => max a.room b.room
  | .call f es => max f.room (1 + Expression.listRoom es)

/-- Number of places that expressions need which are evaluated one after the other. -/
def Expression.listRoom : List Expression → Nat
  | [] => 0
  | e :: es => max e.room (1 + Expression.listRoom es)

end

namespace Setting

/-- The setting without a limit. -/
def unlimited (s : Setting) : Setting := { s with limit := none }

variable {s : Setting} {waiting : List Value} {store store' : Store} {v w : Value}

theorem produce_of_room {most : Nat} (limit : s.limit = some most)
    (room : (store.stack waiting s.below).length + 1 ≤ most) :
    s.produce waiting store v = s.unlimited.produce waiting store v := by
  unfold produce
  rw [limit]
  exact if_neg (by omega)

theorem read_of_room {most : Nat} {name : String} (limit : s.limit = some most)
    (room : (store.stack waiting s.below).length + 1 ≤ most) :
    s.read waiting store name = s.unlimited.read waiting store name := by
  unfold read
  split
  · exact produce_of_room limit room
  · split
    · exact produce_of_room limit room
    · rfl

end Setting

theorem Outcome.bind_congr {α β : Type} {o o' : Outcome α} {next next' : α → Store → Outcome β}
    (same : o = o') (later : ∀ result store, o = .value result store →
      next result store = next' result store) : o.bind next = o'.bind next' := by
  subst same
  cases o with
  | value result store => exact later result store rfl
  | fault | unfinished | unknown => rfl

section Room

variable {s : Setting} {most : Nat}

mutual

/-- Where there is room enough, the limit does not matter. -/
theorem Expression.evaluate_of_room (limit : s.limit = some most) :
    (e : Expression) → (waiting : List Value) → (store : Store) →
      (store.stack waiting s.below).length + e.room ≤ most →
      e.evaluate s waiting store = e.evaluate s.unlimited waiting store
  | .null, _, _, room | .boolean _, _, _, room | .number _, _, _, room
  | .string _, _, _, room => Setting.produce_of_room limit room
  | .variable _, _, _, room => Setting.read_of_room limit room
  | .grouping e, waiting, store, room => e.evaluate_of_room limit waiting store room
  | .unary _ e, waiting, store, room =>
      Outcome.bind_congr (e.evaluate_of_room limit waiting store room) fun _ _ _ => rfl
  | .binary _ a b, waiting, store, room => by
      simp only [Expression.room] at room
      refine Outcome.bind_congr (a.evaluate_of_room limit waiting store (by omega))
        fun v mid left => ?_
      have height := Store.length_stack_of_names (Expression.names_evaluate left) waiting s.below
      -- the left value takes a slot while the right operand is evaluated
      refine Outcome.bind_congr (b.evaluate_of_room limit (v :: waiting) mid ?_) fun _ _ _ => rfl
      show (mid.stack waiting s.below).length + 1 + b.room ≤ most
      omega
  | .and a b, waiting, store, room => by
      simp only [Expression.room] at room
      refine Outcome.bind_congr (a.evaluate_of_room limit waiting store (by omega))
        fun v mid left => ?_
      have height := Store.length_stack_of_names (Expression.names_evaluate left) waiting s.below
      rw [b.evaluate_of_room limit waiting mid (by omega)]
  | .or a b, waiting, store, room => by
      simp only [Expression.room] at room
      refine Outcome.bind_congr (a.evaluate_of_room limit waiting store (by omega))
        fun v mid left => ?_
      have height := Store.length_stack_of_names (Expression.names_evaluate left) waiting s.below
      rw [b.evaluate_of_room limit waiting mid (by omega)]
  | .assign _ e, waiting, store, room =>
      Outcome.bind_congr (e.evaluate_of_room limit waiting store room) fun _ _ _ => rfl
  | .call f es, waiting, store, room => by
      simp only [Expression.room] at room
      refine Outcome.bind_congr (f.evaluate_of_room limit waiting store (by omega))
        fun v mid callee => ?_
      have height := Store.length_stack_of_names (Expression.names_evaluate callee) waiting s.below
      refine Outcome.bind_congr (Expression.evaluateList_of_room limit es (v :: waiting) mid ?_)
        fun _ _ _ => rfl
      show (mid.stack waiting s.below).length + 1 + Expression.listRoom es ≤ most
      omega

theorem Expression.evaluateList_of_room (limit : s.limit = some most) :
    (es : List Expression) → (waiting : List Value) → (store : Store) →
      (store.stack waiting s.below).length + Expression.listRoom es ≤ most →
      Expression.evaluateList s es waiting store =
        Expression.evaluateList s.unlimited es waiting store
  | [], _, _, _ => rfl
  | e :: es, waiting, store, room => by
      simp only [Expression.listRoom] at room
      refine Outcome.bind_congr (e.evaluate_of_room limit waiting store (by omega))
        fun v mid first => ?_
      have height := Store.length_stack_of_names (Expression.names_evaluate first) waiting s.below
      refine Outcome.bind_congr (Expression.evaluateList_of_room limit es (v :: waiting) mid ?_)
        fun _ _ _ => rfl
      show (mid.stack waiting s.below).length + 1 + Expression.listRoom es ≤ most
      omega

end

end Room

end StackScript
