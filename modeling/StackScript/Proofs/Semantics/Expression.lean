import StackScript.Proofs.Machine.Moves
import StackScript.Proofs.Syntax.Expression

/-!
# What expressions mean

`Expression.evaluate` is the reference: it evaluates a tree from left to right, by
the names of variables, without code or jumps.  Operations on numbers are those of
the machine.  Calls are arbitrary: a setting says what they change and what they
give, and may leave some of them open.

Calls may look at the whole operand stack, and a machine may have little room on
it, so the reference is told which values wait there to be used.
-/

namespace StackScript

/-- The variables of one activation, the newest first, and the world. -/
structure Store where
  bindings : List (String × Value)
  world : World

/-- How evaluation ends. -/
inductive Outcome (α : Type) where
  | value (result : α) (store : Store)
  | fault (f : Fault) (world : World)
  /-- Still going on when the given amount of time is over. -/
  | unfinished
  /-- Left open by the calls. -/
  | unknown

/-- Goes on with a result. -/
def Outcome.bind {α β : Type} (o : Outcome α) (next : α → Store → Outcome β) : Outcome β :=
  match o with
  | .value result store => next result store
  | .fault f world => .fault f world
  | .unfinished => .unfinished
  | .unknown => .unknown

/-- What an outcome says: `after` of a result, `stop` of a fault, and `late` if it
was still going on. -/
def Outcome.Describes {α : Type} (o : Outcome α) (after : α → Store → Prop)
    (stop : Fault → World → Prop) (late : Prop) : Prop :=
  match o with
  | .value result store => after result store
  | .fault f world => stop f world
  | .unfinished => late
  | .unknown => True

theorem Outcome.bind_eq_value {α β : Type} {o : Outcome α} {next : α → Store → Outcome β}
    {result : β} {store : Store} :
    o.bind next = .value result store ↔
      ∃ first mid, o = .value first mid ∧ next first mid = .value result store := by
  cases o <;> simp [Outcome.bind]

theorem Outcome.Describes.mono {α : Type} {o : Outcome α} {after after' : α → Store → Prop}
    {stop stop' : Fault → World → Prop} {late late' : Prop} (h : o.Describes after stop late)
    (hafter : ∀ result store, after result store → after' result store)
    (hstop : ∀ f world, stop f world → stop' f world) (hlate : late → late') :
    o.Describes after' stop' late' := by
  cases o with
  | value result store => exact hafter _ _ h
  | fault f world => exact hstop _ _ h
  | unfinished => exact hlate h
  | unknown => trivial

/-- What evaluation depends on, apart from the store. -/
structure Setting where
  /-- The string objects of literals and names. -/
  text : String → Text
  /-- Number of values for which the stack has room, if that is limited. -/
  limit : Option Nat
  /-- The stack below the variables. -/
  below : List Value
  /-- What a call changes and gives: from the callee, the arguments, the stack below
  the callee, and the world. -/
  call : (callee : Value) → (arguments : List Value) → (stack : List Value) → World →
    Option (Except Fault Value × World)

/-! ## Variables -/

/-- Value of the newest variable of a name. -/
def lookup (name : String) : List (String × Value) → Option Value
  | [] => none
  | (other, v) :: older => if other = name then some v else lookup name older

/-- The variables after an assignment to the newest of a name. -/
def update (name : String) (v : Value) : List (String × Value) → List (String × Value)
  | [] => []
  | (other, old) :: older =>
      if other = name then (other, v) :: older else (other, old) :: update name v older

namespace Store

/-- Value of a global variable. -/
def global? (store : Store) (name : String) : Option Value :=
  (store.world.globals[name]?).map Global.value

/-- The names of the variables. -/
def names (store : Store) : List String := store.bindings.map Prod.fst

/-- The stack with the given values above the variables. -/
def stack (store : Store) (waiting below : List Value) : List Value :=
  waiting ++ (store.bindings.map Prod.snd ++ below)

theorem length_stack (store : Store) (waiting below : List Value) :
    (store.stack waiting below).length =
      waiting.length + store.bindings.length + below.length := by
  simp [stack, Nat.add_assoc]

theorem length_names (store : Store) : store.names.length = store.bindings.length := by
  simp [names]

/-- Stores of the same variables have stacks of the same height. -/
theorem length_stack_of_names {store store' : Store} (h : store'.names = store.names)
    (waiting below : List Value) :
    (store'.stack waiting below).length = (store.stack waiting below).length := by
  have := congrArg List.length h
  rw [length_names, length_names] at this
  rw [length_stack, length_stack, this]

end Store

section Slots

variable {name : String} {locals : List LocalVariable} {bindings : List (String × Value)}

/-- A name without local is not the name of a variable. -/
theorem lookup_of_findLocal_none (same : locals.map LocalVariable.name = bindings.map Prod.fst)
    (h : Body.findLocal name locals = none) : lookup name bindings = none := by
  induction locals generalizing bindings with
  | nil =>
      cases bindings with
      | nil => rfl
      | cons => cases same
  | cons var older ih =>
      cases bindings with
      | nil => cases same
      | cons newest rest =>
          simp only [List.map_cons, List.cons.injEq] at same
          simp only [Body.findLocal] at h
          split at h
          · cases h
          · rename_i different
            simp only [lookup, ← same.1, different, if_false]
            exact ih same.2 h

/-- The slot of a local is the number of variables older than the one of its name. -/
theorem split_of_findLocal {slot : Nat} {var : LocalVariable}
    (same : locals.map LocalVariable.name = bindings.map Prod.fst)
    (h : Body.findLocal name locals = some (slot, var)) :
    ∃ newer v older, bindings = newer ++ (name, v) :: older ∧ older.length = slot ∧
      lookup name bindings = some v ∧ ∀ w, update name w bindings = newer ++ (name, w) :: older := by
  induction locals generalizing bindings with
  | nil => cases h
  | cons local_ rest ih =>
      cases bindings with
      | nil => cases same
      | cons newest older =>
          obtain ⟨other, v⟩ := newest
          simp only [List.map_cons, List.cons.injEq] at same
          simp only [Body.findLocal] at h
          split at h
          · rename_i found
            obtain rfl : other = name := same.1.symm.trans found
            simp only [Option.some.injEq, Prod.mk.injEq] at h
            have length : older.length = rest.length := by
              simpa using congrArg List.length same.2.symm
            exact ⟨[], v, older, rfl, length.trans h.1, by simp [lookup], fun w => by simp [update]⟩
          · rename_i different
            rw [same.1] at different
            obtain ⟨newer, w, older', rfl, length, found, updated⟩ := ih same.2 h
            refine ⟨(other, v) :: newer, w, older', rfl, length, ?_, fun w => ?_⟩
            · simp [lookup, different, found]
            · simp [update, different, updated]

end Slots

namespace Setting

variable (s : Setting)

/-- A value that needs a place on the stack. -/
def produce (waiting : List Value) (store : Store) (v : Value) : Outcome Value :=
  match s.limit with
  | none => .value v store
  | some most =>
      if most ≤ (store.stack waiting s.below).length then .fault .stackOverflow store.world
      else .value v store

/-- Reads a variable. -/
def read (waiting : List Value) (store : Store) (name : String) : Outcome Value :=
  match lookup name store.bindings with
  | some v => s.produce waiting store v.copy
  | none =>
      match store.global? name with
      | some v => s.produce waiting store v.copy
      | none => .fault (.undefinedVariable name) store.world

/-- Assigns to a variable. -/
def write (store : Store) (name : String) (v : Value) : Outcome Value :=
  match lookup name store.bindings with
  | some old =>
      if old.assignable then .value v { store with bindings := update name v store.bindings }
      else .fault (.assignToConstant none) store.world
  | none =>
      match store.global? name with
      | some old =>
          if old.assignable then
            .value v { store with world := { store.world with
              globals := store.world.globals.insert name ⟨s.text name, v⟩ } }
          else .fault (.assignToConstant (some name)) store.world
      | none => .fault (.undefinedVariable name) store.world

/-- Calls a value. -/
def apply (waiting : List Value) (store : Store) (callee : Value) (arguments : List Value) :
    Outcome Value :=
  match s.call callee arguments (store.stack waiting s.below) store.world with
  | none => .unknown
  | some (.error f, world) => .fault f world
  | some (.ok v, world) => .value v { store with world }

end Setting

/-! ## Operators -/

/-- Applies an operator to a value. -/
def UnaryOperator.apply (op : UnaryOperator) (v : Value) : Except Fault Value :=
  match op with
  | .not => .ok (.bool v.isFalsey)
  | .negate =>
      match v.asNumber? with
      | some x => .ok (.number (-x))
      | none => .error .operandMustBeNumber

/-- Applies an operation on numbers to two values. -/
def arithmetic (operation : Float → Float → Datum) (v w : Value) : Except Fault Value :=
  match v.asNumber?, w.asNumber? with
  | some x, some y => .ok (.of (operation x y))
  | _, _ => .error .operandsMustBeNumbers

/-- The sum of two values.  Joined texts enter the heap. -/
def join (v w : Value) (world : World) : Except Fault (Value × World) :=
  match Machine.sum v.datum w.datum with
  | some (.inl x) => .ok (.number x, world)
  | some (.inr chars) =>
      .ok (.string (world.heap.intern chars).1, { world with heap := (world.heap.intern chars).2 })
  | none => .error .operandsMustBeNumbers

/-- Applies an operator to two values.  The comparisons with equality are the
negations of the strict ones. -/
def BinaryOperator.apply (op : BinaryOperator) (v w : Value) (world : World) :
    Except Fault (Value × World) :=
  match op with
  | .equal => .ok (.bool (v == w), world)
  | .notEqual => .ok (.bool !(v == w), world)
  | .greater => (arithmetic (fun x y => .bool (x > y)) v w).map (·, world)
  | .greaterEqual => (arithmetic (fun x y => .bool !(x < y)) v w).map (·, world)
  | .less => (arithmetic (fun x y => .bool (x < y)) v w).map (·, world)
  | .lessEqual => (arithmetic (fun x y => .bool !(x > y)) v w).map (·, world)
  | .add => join v w world
  | .subtract => (arithmetic (fun x y => .number (x - y)) v w).map (·, world)
  | .multiply => (arithmetic (fun x y => .number (x * y)) v w).map (·, world)
  | .divide => (arithmetic (fun x y => .number (x / y)) v w).map (·, world)

/-- The result of an operator as an outcome. -/
def Outcome.ofResult (store : Store) : Except Fault (Value × World) → Outcome Value
  | .ok (v, world) => .value v { store with world }
  | .error f => .fault f store.world

/-! ## Expressions -/

mutual

/-- Evaluates an expression while the given values wait on the stack. -/
def Expression.evaluate (s : Setting) : Expression → List Value → Store → Outcome Value
  | .null, waiting, store => s.produce waiting store .null
  | .boolean b, waiting, store => s.produce waiting store (.bool b)
  | .number x, waiting, store => s.produce waiting store (.number x)
  | .string chars, waiting, store => s.produce waiting store (.string (s.text chars))
  | .variable name, waiting, store => s.read waiting store name
  | .grouping e, waiting, store => e.evaluate s waiting store
  | .unary op e, waiting, store =>
      (e.evaluate s waiting store).bind fun v store =>
        .ofResult store ((op.apply v).map (·, store.world))
  | .binary op a b, waiting, store =>
      (a.evaluate s waiting store).bind fun v store =>
        (b.evaluate s (v :: waiting) store).bind fun w store =>
          .ofResult store (op.apply v w store.world)
  | .and a b, waiting, store =>
      (a.evaluate s waiting store).bind fun v store =>
        if v.isFalsey then .value v store else b.evaluate s waiting store
  | .or a b, waiting, store =>
      (a.evaluate s waiting store).bind fun v store =>
        if v.isFalsey then b.evaluate s waiting store else .value v store
  | .assign name e, waiting, store =>
      (e.evaluate s waiting store).bind fun v store => s.write store name v
  | .call f es, waiting, store =>
      (f.evaluate s waiting store).bind fun callee store =>
        (Expression.evaluateList s es (callee :: waiting) store).bind fun arguments store =>
          s.apply waiting store callee arguments

/-- Evaluates expressions from left to right. -/
def Expression.evaluateList (s : Setting) :
    List Expression → List Value → Store → Outcome (List Value)
  | [], _, store => .value [] store
  | e :: es, waiting, store =>
      (e.evaluate s waiting store).bind fun v store =>
        (Expression.evaluateList s es (v :: waiting) store).bind fun vs store =>
          .value (v :: vs) store

end

/-- Every expression of a list gives one value. -/
theorem Expression.length_evaluateList (s : Setting) (es : List Expression)
    (waiting : List Value) (store : Store) {vs : List Value} {store' : Store}
    (h : Expression.evaluateList s es waiting store = .value vs store') :
    vs.length = es.length := by
  induction es generalizing waiting store vs store' with
  | nil =>
      simp only [Expression.evaluateList, Outcome.value.injEq] at h
      simp [← h.1]
  | cons e es ih =>
      simp only [Expression.evaluateList, Outcome.bind_eq_value] at h
      obtain ⟨v, mid, -, others, last, found, made⟩ := h
      simp only [Outcome.value.injEq] at made
      simp [← made.1, ih _ _ found]

end StackScript
