import StackScript.Proofs.Semantics.Frame
import StackScript.Proofs.Syntax.Statement

/-!
# What statements mean

`Statement.execute` is the reference: structured execution without code, jumps or
slots.  A statement is left normally, by `break` or by `continue`; the innermost
loop ends the first and goes on with its step after the second.  Blocks forget their
variables however they are left.

A loop may go on for ever, so the reference is given an amount of time, which is how
many turns any loop may take.  Functions are left open, and so is what follows a
return.
-/

namespace StackScript

/-- How a statement is left. -/
inductive Completion where
  | normal
  /-- By `break`. -/
  | leave
  /-- By `continue`. -/
  | again
deriving DecidableEq, Repr

namespace Store

/-- The store without the newest variables, so that a number of them are left. -/
def keep (store : Store) (count : Nat) : Store :=
  { store with bindings := store.bindings.drop (store.bindings.length - count) }

@[simp] theorem keep_world (store : Store) (count : Nat) :
    (store.keep count).world = store.world := rfl

theorem names_keep (store : Store) (count : Nat) :
    (store.keep count).names = store.names.drop (store.names.length - count) := by
  simp [keep, names, List.map_drop]

theorem keep_all {store : Store} {count : Nat} (h : store.bindings.length = count) :
    store.keep count = store := by
  simp [keep, h]

theorem keep_keep (store : Store) {count fewer : Nat} (le : fewer ≤ count) :
    (store.keep count).keep fewer = store.keep fewer := by
  simp only [keep, List.length_drop, List.drop_drop, Store.mk.injEq, and_true]
  congr 1
  omega

/-- What was there before newer variables is left when they go. -/
theorem names_keep_of_suffix {store store' : Store} (h : store.names <:+ store'.names) :
    (store'.keep store.bindings.length).names = store.names := by
  obtain ⟨newer, same⟩ := h
  rw [names_keep, ← same, List.length_append, length_names, Nat.add_sub_cancel]
  exact List.drop_left' rfl

/-- Prints a value. -/
def print (store : Store) (v : Value) : Outcome Completion :=
  match Sink.writeLine v.display store.world.sink with
  | .ok _ sink => .value .normal { store with world := { store.world with sink } }
  | .error message sink => .fault (.output message) { store.world with sink }

end Store

namespace Setting

variable (s : Setting)

/-- The initial value of a variable. -/
def initial : Option Expression → Store → Outcome Value
  | none, store => s.produce [] store .null
  | some e, store => e.evaluate s [] store

/-- Declares a variable: a global one outside every scope. -/
def declare (assignable : Bool) (name : String) (depth : Nat) (v : Value) (store : Store) :
    Store :=
  let v := if assignable then v else v.constant
  if depth = 0 then
    { store with world := { store.world with
      globals := store.world.globals.insert name ⟨s.text name, v⟩ } }
  else { store with bindings := (name, v) :: store.bindings }

/-- Whether a loop goes on. -/
def test : Option Expression → Store → Outcome Bool
  | none, store => .value true store
  | some e, store => (e.evaluate s [] store).bind fun v store => .value (!v.isFalsey) store

/-- The step of a loop. -/
def step : Option Expression → Store → Outcome Unit
  | none, store => .value () store
  | some e, store => (e.evaluate s [] store).bind fun _ store => .value () store

/-- Executes a loop for so many turns at most. -/
def iterate (test step : Option Expression) (body : Store → Outcome Completion) :
    (time : Nat) → Store → Outcome Completion
  | 0, _ => .unfinished
  | time + 1, store =>
      (s.test test store).bind fun goesOn store =>
        if goesOn then
          (body store).bind fun completion store =>
            match completion with
            | .leave => .value .normal store
            | .normal | .again =>
                (s.step step store).bind fun _ store => iterate test step body time store
        else .value .normal store

end Setting

/-- Executes a statement in a scope of the given depth. -/
def Statement.execute (s : Setting) (time : Nat) :
    Statement → (depth : Nat) → Store → Outcome Completion
  | .done, _, store => .value .normal store
  | .next a b, depth, store =>
      (a.execute s time depth store).bind fun completion store =>
        match completion with
        | .normal => b.execute s time depth store
        | _ => .value completion store
  | .print e, _, store => (e.evaluate s [] store).bind fun v store => store.print v
  | .expression e, _, store => (e.evaluate s [] store).bind fun _ store => .value .normal store
  | .declare assignable name init, depth, store =>
      (s.initial init store).bind fun v store =>
        .value .normal (s.declare assignable name depth v store)
  | .block body, depth, store =>
      (body.execute s time (depth + 1) store).bind fun completion store' =>
        .value completion (store'.keep store.bindings.length)
  | .choose c yes no, depth, store =>
      (c.evaluate s [] store).bind fun v store =>
        if v.isFalsey then no.execute s time depth store else yes.execute s time depth store
  | .loop test step body, depth, store =>
      s.iterate test step (body.execute s time depth) time store
  | .leave, _, store => .value .leave store
  | .again, _, store => .value .again store
  | .giveBack _, _, _ | .define .., _, _ => .unknown

/-! ## Variables -/

section Names

variable {s : Setting} {time : Nat} {store store' : Store}

theorem Setting.names_test {test : Option Expression} {goesOn : Bool}
    (h : s.test test store = .value goesOn store') : store'.names = store.names := by
  cases test with
  | none =>
      cases h
      rfl
  | some e =>
      obtain ⟨v, mid, value, last⟩ := Outcome.bind_eq_value.mp h
      cases last
      exact Expression.names_evaluate value

theorem Setting.names_step {step : Option Expression}
    (h : s.step step store = .value () store') : store'.names = store.names := by
  cases step with
  | none =>
      cases h
      rfl
  | some e =>
      obtain ⟨v, mid, value, last⟩ := Outcome.bind_eq_value.mp h
      cases last
      exact Expression.names_evaluate value

theorem Setting.names_initial {init : Option Expression} {v : Value}
    (h : s.initial init store = .value v store') : store'.names = store.names := by
  cases init with
  | none => rw [Setting.produce_eq_value h]
  | some e => exact Expression.names_evaluate h

theorem Store.names_print {v : Value} {completion : Completion}
    (h : store.print v = .value completion store') : store'.names = store.names := by
  unfold Store.print at h
  split at h
  · cases h
    rfl
  · cases h

/-- A loop is left normally, and with the same variables as its body. -/
theorem Setting.names_iterate {test step : Option Expression}
    {body : Store → Outcome Completion} {completion : Completion}
    (kept : ∀ {store store' completion}, body store = .value completion store' →
      store'.names = store.names)
    (h : s.iterate test step body time store = .value completion store') :
    completion = .normal ∧ store'.names = store.names := by
  induction time generalizing store with
  | zero => cases h
  | succ time ih =>
      obtain ⟨goesOn, mid, tested, h⟩ := Outcome.bind_eq_value.mp h
      have before := names_test tested
      cases goesOn with
      | false =>
          cases h
          exact ⟨rfl, before⟩
      | true =>
          obtain ⟨left, mid', ran, h⟩ := Outcome.bind_eq_value.mp h
          have during := (kept ran).trans before
          have further (h : ((s.step step mid').bind fun _ store =>
              s.iterate test step body time store) = .value completion store') :
              completion = .normal ∧ store'.names = store.names := by
            obtain ⟨⟨⟩, mid'', stepped, h⟩ := Outcome.bind_eq_value.mp h
            obtain ⟨normal, after⟩ := ih h
            exact ⟨normal, after.trans ((names_step stepped).trans during)⟩
          cases left with
          | leave =>
              cases h
              exact ⟨rfl, during⟩
          | normal | again => exact further h

/-- The variables from before a statement stay, and those it declares come on top; a
statement that is no declaration leaves none. -/
theorem Statement.names_execute (t : Statement) (proper : t.Proper) {depth : Nat}
    {completion : Completion} {store store' : Store}
    (h : t.execute s time depth store = .value completion store') :
    store.names <:+ store'.names ∧ (t.Flat → store'.names = store.names) := by
  have same {store store' : Store} {P : Prop} (h : store'.names = store.names) :
      store.names <:+ store'.names ∧ (P → store'.names = store.names) :=
    ⟨h ▸ List.suffix_refl _, fun _ => h⟩
  induction t generalizing depth completion store store' with
  | done | leave | again =>
      cases h
      exact same rfl
  | giveBack | define => cases h
  | next a b first rest =>
      refine ⟨?_, nofun⟩
      obtain ⟨left, mid, ran, h⟩ := Outcome.bind_eq_value.mp h
      have before := (first proper.1 ran).1
      cases left with
      | normal => exact before.trans (rest proper.2 h).1
      | leave | again =>
          cases h
          exact before
  | print e =>
      obtain ⟨v, mid, value, h⟩ := Outcome.bind_eq_value.mp h
      exact same ((Store.names_print h).trans (Expression.names_evaluate value))
  | expression e =>
      obtain ⟨v, mid, value, h⟩ := Outcome.bind_eq_value.mp h
      cases h
      exact same (Expression.names_evaluate value)
  | declare assignable name init =>
      refine ⟨?_, nofun⟩
      obtain ⟨v, mid, value, h⟩ := Outcome.bind_eq_value.mp h
      cases h
      rw [← Setting.names_initial value]
      unfold Setting.declare
      dsimp only
      split
      · exact List.suffix_refl _
      · exact List.suffix_cons _ _
  -- what a block declares is gone behind it
  | block body ih =>
      obtain ⟨left, mid, ran, h⟩ := Outcome.bind_eq_value.mp h
      cases h
      exact same (Store.names_keep_of_suffix (ih proper ran).1)
  | choose c yes no first second =>
      obtain ⟨test, left, right, flat, flat'⟩ := proper
      obtain ⟨v, mid, value, h⟩ := Outcome.bind_eq_value.mp h
      have before := Expression.names_evaluate value
      split at h
      · exact same (((second right h).2 flat').trans before)
      · exact same (((first left h).2 flat).trans before)
  | loop test step body ih =>
      obtain ⟨-, -, inner, flat⟩ := proper
      exact same (Setting.names_iterate (fun ran => (ih inner ran).2 flat) h).2

end Names

end StackScript
