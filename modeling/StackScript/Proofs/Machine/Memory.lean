import StackScript.Proofs.Machine.Compiled
import StackScript.Proofs.Shape.Lawful

/-!
# What variables hold

A local variable is a slot of the stack for as long as the notes say so, and a global
variable is an entry in the table of globals.  A step gives a variable a value where the
variable is declared, where a routine is called whose parameter it is, and where there
is an assignment to it (`Scene.Gives`); all other steps leave variables alone
(`Scene.Proceeds.gives`).  So what a variable holds in a run is what the latest of these
steps gave it.
-/

namespace StackScript

/-- The slot is that of a variable. -/
def Slot.isBound : Slot → Bool
  | .bound _ => true
  | _ => false

section Lists

variable {α : Type} {above below : List α} {i : Nat}

/-- Entries of a list are counted from the end, so those below stay where they are. -/
theorem getElem?_reverse_below (above : List α) (h : i < below.length) :
    (above ++ below).reverse[i]? = below.reverse[i]? := by
  rw [List.reverse_append, List.getElem?_append_left (by simpa using h)]

theorem getElem?_reverse_cons (a : α) (h : i < below.length) :
    (a :: below).reverse[i]? = below.reverse[i]? := getElem?_reverse_below [a] h

theorem getElem?_reverse_above (above below : List α) (k : Nat) :
    (above ++ below).reverse[below.length + k]? = above.reverse[k]? := by
  simp [List.getElem?_append]

theorem lt_of_getElem?_reverse {a : α} (h : below.reverse[i]? = some a) : i < below.length := by
  simpa using (List.getElem?_eq_some_iff.mp h).1

/-- The last of the entries is the first of the list. -/
theorem head?_of_getElem?_reverse {a : α} (h : below.reverse[i]? = some a)
    (top : i + 1 = below.length) : below.head? = some a := by
  cases below with
  | nil => cases h
  | cons b below =>
      obtain rfl : i = below.length := by simpa using top
      simpa using h

end Lists

/-- Below a value that is not that of a variable. -/
theorem lt_of_bound {x : Slot} {rest : List Slot} {k : Nat} {b : Binding} (other : x.isBound = false)
    (there : (x :: rest).reverse[k]? = some (.bound b)) : k < rest.length := by
  by_contra upper
  obtain ⟨j, rfl⟩ := Nat.exists_eq_add_of_le (Nat.le_of_not_lt upper)
  rw [show x :: rest = [x] ++ rest from rfl, getElem?_reverse_above] at there
  obtain rfl := List.mem_singleton.mp (List.mem_reverse.mp (List.mem_of_getElem? there))
  cases other

/-- A slot that the notes give to a variable is that of a variable already, or it is on top
and held a temporary value. -/
theorem Becomes.slot {before after : List Slot} (h : Becomes before after) {k : Nat} {b : Binding}
    (there : after.reverse[k]? = some (.bound b)) :
    before.reverse[k]? = some (.bound b) ∨
      (k + 1 = after.length ∧ ∃ x, before.reverse[k]? = some x ∧ x.isBound = false) := by
  have fresh {x : Slot} {b' : Binding} {rest : List Slot} (other : x.isBound = false)
      (there : (Slot.bound b' :: rest).reverse[k]? = some (.bound b)) :
      (x :: rest).reverse[k]? = some (.bound b) ∨
        (k + 1 = (Slot.bound b' :: rest).length ∧
          ∃ y, (x :: rest).reverse[k]? = some y ∧ y.isBound = false) := by
    have bound := lt_of_getElem?_reverse there
    rw [List.length_cons] at bound ⊢
    rcases Nat.lt_or_ge k rest.length with lower | upper
    · rw [getElem?_reverse_cons _ lower] at there ⊢
      exact .inl there
    · obtain rfl : k = rest.length := by omega
      exact .inr ⟨rfl, x, by simp, other⟩
  cases h with
  | same => exact .inl there
  | bind | freeze => exact fresh rfl there

theorem Becomes.append {before after : List Slot} (h : Becomes before after) (below : List Slot) :
    Becomes (before ++ below) (after ++ below) := by
  cases h with
  | same => exact .same _
  | bind assignable rest => exact .bind assignable (rest ++ below)
  | freeze constant rest => exact .freeze constant (rest ++ below)

/-- A result replaces what a call has taken, and may become the value of a variable. -/
theorem Becomes.landed {rest after : List Slot} (h : Becomes (.temporary :: rest) after) {k : Nat}
    {b : Binding} (there : after.reverse[k]? = some (.bound b)) :
    rest.reverse[k]? = some (.bound b) ∨ k + 1 = after.length := by
  rcases h.slot there with old | ⟨top, -⟩
  · rw [getElem?_reverse_cons _ (lt_of_bound rfl old)] at old
    exact .inl old
  · exact .inr top

/-- A variable in scope has its slot in what stands on the stack. -/
theorem Note.slot_of_scope {note : Note} {k : Nat} {b : Binding}
    (there : note.scope.reverse[k]? = some b) : note.shape.reverse[k]? = some (.bound b) := by
  have inside : k < (note.scope.map Slot.bound).length := by
    simpa using lt_of_getElem?_reverse there
  rw [Note.shape, getElem?_reverse_below _ inside, ← List.map_reverse, List.getElem?_map, there]
  rfl

namespace Machine

/-! ## Instructions -/

section Effect

variable {op : Opcode} {pool : Pool} {note : Note} {shape : List Slot} {vs vs' : List Value}
  {world world' : World}

/-- An instruction takes what is on top and puts something else there, which is not the
value of a variable yet. -/
theorem Effect.split (h : Effect op pool note shape vs world vs' world') :
    ∃ taken given rest, note.shape = taken ++ rest ∧ shape = given ++ rest ∧
      (∀ x ∈ given, x.isBound = false) ∧ (given ≠ [] → ∀ x ∈ taken, x.isBound = false) := by
  have temporary : ∀ x ∈ [Slot.temporary], x.isBound = false := by simp [Slot.isBound]
  cases h with
  | stays | writesLocal | writesGlobal => exact ⟨[], [], _, rfl, rfl, by simp, by simp⟩
  | drops _ _ _ _ _ top | defines _ _ _ _ top => exact ⟨[_], [], shape, top, rfl, by simp, by simp⟩
  | @computes rest _ taken _ _ _ _ top =>
      refine ⟨_, [.temporary], rest, top, rfl, temporary, fun _ x mem => ?_⟩
      rw [List.eq_of_mem_replicate mem]
      rfl
  | loads | readsLocal | readsGlobal => exact ⟨[], [.temporary], _, rfl, rfl, temporary, by simp⟩
  | @seals rest _ _ _ _ _ top =>
      exact ⟨[.temporary], [.sealed], rest, top, rfl, by simp [Slot.isBound], fun _ => temporary⟩

variable (h : Effect op pool note shape vs world vs' world') {k : Nat}

include h

/-- A variable that is there after an instruction was there before. -/
theorem Effect.bound {b : Binding} (there : shape.reverse[k]? = some (.bound b)) :
    note.shape.reverse[k]? = some (.bound b) := by
  obtain ⟨taken, given, rest, before, rfl, new, -⟩ := h.split
  have lower : k < rest.length := by
    by_contra upper
    obtain ⟨j, rfl⟩ := Nat.exists_eq_add_of_le (Nat.le_of_not_lt upper)
    rw [getElem?_reverse_above] at there
    cases new _ (List.mem_reverse.mp (List.mem_of_getElem? there))
  rw [getElem?_reverse_below _ lower] at there
  rw [before, getElem?_reverse_below _ lower, there]

/-- Where there is another value after an instruction there was no variable before. -/
theorem Effect.fresh {x : Slot} (there : shape.reverse[k]? = some x) (other : x.isBound = false)
    (b : Binding) : note.shape.reverse[k]? ≠ some (.bound b) := by
  obtain ⟨taken, given, rest, before, rfl, -, old⟩ := h.split
  intro same
  rw [before] at same
  rcases Nat.lt_or_ge k rest.length with lower | upper
  · rw [getElem?_reverse_below _ lower] at there same
    rw [there] at same
    cases same
    cases other
  · obtain ⟨j, rfl⟩ := Nat.exists_eq_add_of_le upper
    rw [getElem?_reverse_above] at there same
    have some : given ≠ [] := by
      rintro rfl
      cases there
    cases old some _ (List.mem_reverse.mp (List.mem_of_getElem? same))

/-- An instruction changes what a variable holds only by an assignment to it. -/
theorem Effect.value (length : vs.length = note.shape.length) {b : Binding} {v : Value}
    (there : shape.reverse[k]? = some (.bound b)) (holds : slotOf vs' k = some v) :
    slotOf vs k = some v ∨ ∃ name, note.mention = some (.write name) ∧
      innermost name note.scope = some (k, b) ∧ vs.head? = some v := by
  have bound := h.bound there
  have inside : k < vs.length := length ▸ lt_of_getElem?_reverse bound
  cases h with
  | stays | writesGlobal => exact .inl holds
  | drops w | defines w =>
      exact .inl ((getElem?_reverse_cons w (lt_of_getElem?_reverse holds)).trans holds)
  | @computes rest w taken kept _ _ _ top =>
      rw [top, List.length_append, List.length_append, List.length_replicate] at length
      have lower : k < kept.length := by
        have := lt_of_bound rfl there
        omega
      rw [slotOf, getElem?_reverse_cons _ lower] at holds
      exact .inl ((getElem?_reverse_below taken lower).trans holds)
  | @loads w _ | @readsLocal _ _ _ w _ | @readsGlobal _ _ w _ =>
      exact .inl ((getElem?_reverse_cons _ inside).symm.trans holds)
  | @writesLocal name k' b' old _ w kept _ mention found _ _ _ =>
      -- the slot written to is the one asked about, or the value is as it was
      by_cases same : k' = k
      · subst same
        rw [Note.slot_of_scope (innermost_slot found)] at bound
        cases bound
        rw [slotOf, withSlot, List.reverse_reverse,
          List.getElem?_set_self (by simpa using inside)] at holds
        exact .inr ⟨name, mention, found, holds⟩
      · rw [slotOf, withSlot, List.reverse_reverse, List.getElem?_set_ne same] at holds
        exact .inl holds
  | @seals rest w kept _ _ _ top =>
      rw [top, List.length_cons, List.length_cons] at length
      have lower : k < kept.length := Nat.succ.inj length ▸ lt_of_bound rfl there
      rw [slotOf, getElem?_reverse_cons _ lower] at holds
      exact .inl ((getElem?_reverse_cons w lower).trans holds)

/-- An instruction changes what a global variable holds only if it is about this variable. -/
theorem Effect.global (valid : pool.heap.Valid) {name : String} {g : Global}
    (holds : world'.globals[name]? = some g) :
    world.globals[name]? = some g ∨ vs.head? = some g.value ∧
      ((∃ assignable, note.mention = some (.define name assignable)) ∨
        note.mention = some (.write name) ∧ innermost name note.scope = none) := by
  cases h with
  | stays | drops | computes | loads | readsLocal | readsGlobal | writesLocal | seals =>
      exact .inl holds
  | @writesGlobal other text _ _ v _ _ mention missing _ same =>
      obtain rfl := same valid
      rcases entry_of_insert holds with ⟨rfl, rfl⟩ | old
      · exact .inr ⟨rfl, .inr ⟨mention, missing⟩⟩
      · exact .inl old
  | @defines other assignable text _ v _ _ mention _ same =>
      obtain rfl := same valid
      rcases entry_of_insert holds with ⟨rfl, rfl⟩ | old
      · exact .inr ⟨rfl, .inl ⟨assignable, mention⟩⟩
      · exact .inl old

end Effect

/-! ## Variables -/

/-- A variable of a call, or one that is known everywhere. -/
inductive Variable where
  /-- The entry of the stack, counted from the bottom, and the declaration. -/
  | «local» (i : Nat) (b : Binding)
  | global (name : String)

/-- The slots of some calls, the innermost of which comes first. -/
def slotsOf (calls : List Active) : List Slot := calls.flatMap Active.shape

@[simp] theorem slotsOf_cons (a : Active) (others : List Active) :
    slotsOf (a :: others) = a.shape ++ slotsOf others := rfl

theorem Waiting.length {lib : Library} {calls : List Active} (h : Waiting lib calls) :
    (slotsOf calls).length = (stackOf calls).length := by
  induction h with
  | nil => rfl
  | cons sound _ _ _ ih => simp [sound.length, ih]

namespace Scene

variable (s : Scene)

/-- The note on the instruction to be executed next. -/
def note? : Option Note := s.running.view s.running.frame.ip

/-- Which variable the instruction to be executed next is about. -/
def mention? : Option Mention := s.note?.bind Note.mention

/-- What each entry of the stack is there for, the top first. -/
def slots : List Slot := s.running.shape ++ slotsOf s.waiting

/-- What an entry of the stack is there for; entries are counted from the bottom. -/
def slot? (i : Nat) : Option Slot := s.slots.reverse[i]?

/-- The variable that a name means where the instruction to be executed next stands. -/
def meant? (name : String) : Option Variable :=
  s.note?.map fun note =>
    match innermost name note.scope with
    | some (k, b) => .local (s.running.frame.base + k) b
    | none => .global name

/-- The variable is there, and its value is this. -/
def Holds (v : Value) : Variable → Prop
  | .local i b => s.slot? i = some (.bound b) ∧ slotOf s.stack i = some v
  | .global name => s.world.globals[name]?.map Global.value = some v

/-- The step from one scene to the next gives a variable a value. -/
inductive Gives (s s' : Scene) (v : Value) : Variable → Prop where
  /-- A routine is called, and the variable is a parameter of it. -/
  | argument {i : Nat} {b : Binding} (called : s'.waiting.length = s.waiting.length + 1)
      (own : s'.running.frame.base ≤ i) (given : slotOf s.stack i = some v) : Gives s s' v (.local i b)
  /-- The value on top becomes that of a variable that was not there before.  If a call
  returns, what was there belonged to this call. -/
  | declares {b : Binding} {rest : List Slot} (top : s'.running.shape = .bound b :: rest)
      (value : s'.stack.head? = some v)
      (new : s.slot? (s'.running.frame.base + rest.length) ≠ some (.bound b) ∨
        s'.waiting.length < s.waiting.length) :
      Gives s s' v (.local (s'.running.frame.base + rest.length) b)
  | defines {name : String} {assignable : Bool}
      (mention : s.mention? = some (.define name assignable)) (top : s.stack.head? = some v) :
      Gives s s' v (.global name)
  | assigns {name : String} {x : Variable} (mention : s.mention? = some (.write name))
      (target : s.meant? name = some x) (top : s.stack.head? = some v) : Gives s s' v x

end Scene

section Steps

variable {lib : Library} {natives : Array NativeFunction} {s s' : Scene} {note : Note}

theorem Scene.mention?_eq (here : s.running.view s.running.frame.ip = some note) :
    s.mention? = note.mention := by
  rw [Scene.mention?, Scene.note?, here]
  rfl

theorem Scene.Sound.shape_eq (sound : s.Sound lib)
    (here : s.running.view s.running.frame.ip = some note) : s.running.shape = note.shape := by
  obtain ⟨other, there, shape⟩ := sound.noted
  obtain rfl : note = other := Option.some.inj (here.symm.trans there)
  exact shape.symm

theorem Scene.Sound.below (sound : s.Sound lib) :
    (slotsOf s.waiting).length = s.running.frame.base :=
  sound.waiting.length.trans sound.base.symm

theorem Scene.Sound.length (sound : s.Sound lib) : s.slots.length = s.stack.length := by
  rw [Scene.slots, Scene.stack, List.length_append, List.length_append, sound.running.length,
    sound.waiting.length]

theorem Scene.Shows.getElem?_stack {frame : Frame} {m : Machine} (shows : s.Shows frame m) (i : Nat) :
    m.stack[i]? = slotOf s.stack i := by
  rw [shows.stack]
  simp [slotOf]

/-- What is below the running call. -/
theorem Scene.holds_below (sound : s.Sound lib) {i : Nat} (lower : i < s.running.frame.base)
    {v : Value} {b : Binding} : s.Holds v (.local i b) ↔
      (slotsOf s.waiting).reverse[i]? = some (.bound b) ∧ slotOf (stackOf s.waiting) i = some v := by
  simp only [Scene.Holds, Scene.slot?, Scene.slots, Scene.stack, slotOf]
  rw [getElem?_reverse_below _ (sound.below ▸ lower), getElem?_reverse_below _ (sound.base ▸ lower)]

/-- What belongs to the running call. -/
theorem Scene.holds_above (sound : s.Sound lib) {k : Nat} {v : Value} {b : Binding} :
    s.Holds v (.local (s.running.frame.base + k) b) ↔
      s.running.shape.reverse[k]? = some (.bound b) ∧ slotOf s.running.values k = some v := by
  simp only [Scene.Holds, Scene.slot?, Scene.slots, Scene.stack]
  rw [← sound.below, getElem?_reverse_above, sound.below, sound.base, slotOf_append]

/-- The slot of an entry of the running call. -/
theorem Scene.slot?_above (sound : s.Sound lib) (k : Nat) :
    s.slot? (s.running.frame.base + k) = s.running.shape.reverse[k]? := by
  simp only [Scene.slot?, Scene.slots]
  rw [← sound.below, getElem?_reverse_above]

theorem Scene.head?_stack {v : Value} (top : s.running.values.head? = some v) :
    s.stack.head? = some v := by
  rw [Scene.stack, List.head?_append, top]
  rfl

/-- A variable on top is the newest of the running call. -/
theorem Scene.Sound.top (sound : s.Sound lib) {y : Slot} {rest : List Slot} {i : Nat} {v : Value}
    {b : Binding} (shape : s.running.shape = y :: rest) (holds : s.Holds v (.local i b))
    (last : i + 1 = s.slots.length) : s.running.shape = .bound b :: rest ∧
      i = s.running.frame.base + rest.length ∧ s.stack.head? = some v := by
  have slot : s.slots.head? = some (.bound b) := head?_of_getElem?_reverse holds.1 last
  have value : s.stack.head? = some v :=
    head?_of_getElem?_reverse holds.2 (last.trans sound.length)
  have below := sound.below
  rw [Scene.slots, shape] at slot last
  rw [List.length_append, List.length_cons] at last
  obtain rfl := Option.some.inj slot
  exact ⟨shape, by omega, value⟩

variable {v : Value} {x : Variable}

/-- The running call goes on. -/
theorem Scene.gives_works {next : Note} {shape : List Slot} {op : Opcode} {pc : Nat}
    {vs : List Value} {world : World} (sound : s.Sound lib)
    (after : Scene.Sound lib ⟨s.running.moved pc next.shape vs, s.waiting, world⟩)
    (valid : s.running.pool.heap.Valid) (here : s.running.view s.running.frame.ip = some note)
    (effect : Effect op s.running.pool note shape s.running.values s.world vs world)
    (becomes : Becomes shape next.shape)
    (holds : Scene.Holds ⟨s.running.moved pc next.shape vs, s.waiting, world⟩ v x) :
    s.Gives ⟨s.running.moved pc next.shape vs, s.waiting, world⟩ v x ∨ s.Holds v x := by
  have shaped := sound.shape_eq here
  have mentions := s.mention?_eq here
  cases x with
  | global name =>
      obtain ⟨g, found, rfl⟩ := Option.map_eq_some_iff.mp holds
      rcases effect.global valid found with same | ⟨first, ⟨assignable, mention⟩ | ⟨mention, missing⟩⟩
      · exact .inr (Option.map_eq_some_iff.mpr ⟨g, same, rfl⟩)
      · exact .inl (.defines (mentions.trans mention) (Scene.head?_stack first))
      · refine .inl (.assigns (mentions.trans mention) ?_ (Scene.head?_stack first))
        simp [Scene.meant?, Scene.note?, here, missing]
  | «local» i b =>
      -- slots below the running call belong to callers, and the instruction leaves them alone
      rcases Nat.lt_or_ge i s.running.frame.base with lower | upper
      · exact .inr ((Scene.holds_below sound lower).mpr ((Scene.holds_below after lower).mp holds))
      obtain ⟨k, rfl⟩ := Nat.exists_eq_add_of_le upper
      obtain ⟨there, value⟩ := (Scene.holds_above after).mp holds
      -- a slot of the new shape was there before, or it is the temporary that has become a local
      rcases becomes.slot there with old | ⟨last, x, old, other⟩
      · have bound := effect.bound old
        rcases effect.value (shaped ▸ sound.running.length) old value with
          same | ⟨name, mention, found, first⟩
        · exact .inr ((Scene.holds_above sound).mpr ⟨shaped ▸ bound, same⟩)
        · refine .inl (.assigns (mentions.trans mention) ?_ (Scene.head?_stack first))
          simp [Scene.meant?, Scene.note?, here, found]
      · obtain ⟨y, rest, shape⟩ := List.exists_cons_of_length_eq_add_one last.symm
        obtain ⟨top, same, value⟩ := after.top shape holds (by
          rw [Scene.slots, List.length_append, after.below]
          show s.running.frame.base + k + 1 = next.shape.length + s.running.frame.base
          omega)
        rw [same]
        refine .inl (.declares top value (.inl ?_))
        rw [← same, Scene.slot?_above sound, shaped]
        exact effect.fresh old other b

/-- If a step changes what a variable holds, it gives the variable its value. -/
theorem Scene.Proceeds.gives (proceeds : s.Proceeds lib natives s') (sound : s.Sound lib)
    (after : s'.Sound lib) (valid : s.running.pool.heap.Valid) (holds : s'.Holds v x) :
    s.Gives s' v x ∨ s.Holds v x := by
  cases proceeds with
  | works here code notCall effect there becomes =>
      exact Scene.gives_works sound after valid here effect becomes holds
  | @enters note rest pc callee arguments kept layout part here silent code top values =>
      cases x with
      | global name => exact .inr holds
      | «local» i b =>
          obtain ⟨slot, value⟩ := holds
          have same : s.stack = arguments.reverse ++ [callee] ++ (kept ++ stackOf s.waiting) := by
            simp [Scene.stack, values]
          have slots : s.slots = List.replicate (arguments.length + 1) .temporary ++
              (rest ++ slotsOf s.waiting) := by
            rw [Scene.slots, sound.shape_eq here, top, List.append_assoc]
          -- an entry of the new call is an argument; what lies below is as it was
          rcases Nat.lt_or_ge i (kept ++ stackOf s.waiting).length with lower | upper
          · have below := after.below
            refine .inr ⟨?_, same ▸ value⟩
            rw [Scene.slot?, Scene.slots, getElem?_reverse_below _ (below ▸ lower)] at slot
            rw [Scene.slot?, slots, getElem?_reverse_below _ (below ▸ lower)]
            exact slot
          · exact .inl (.argument rfl upper (same ▸ value))
  | @hosts note next rest pc callee w arguments kept n f sink here silent code top values callable
      known returned there becomes =>
      cases x with
      | global name => exact .inr holds
      | «local» i b =>
          have stack : s.stack = arguments.reverse ++ [callee] ++ (kept ++ stackOf s.waiting) := by
            simp [Scene.stack, values]
          have slots : s.slots = List.replicate (arguments.length + 1) .temporary ++
              (rest ++ slotsOf s.waiting) := by
            rw [Scene.slots, sound.shape_eq here, top, List.append_assoc]
          obtain ⟨slot, value⟩ := holds
          have lands : Becomes (.temporary :: (rest ++ slotsOf s.waiting))
              (next.shape ++ slotsOf s.waiting) := becomes.append _
          rcases lands.landed slot with old | last
          · have inside := lt_of_getElem?_reverse old
            have length : (kept ++ stackOf s.waiting).length = (rest ++ slotsOf s.waiting).length := by
              rw [List.length_append, List.length_append, (sound.split here top values).1,
                sound.waiting.length]
            refine .inr ⟨?_, ?_⟩
            · rw [Scene.slot?, slots, getElem?_reverse_below _ inside, old]
            · rw [slotOf, stack, getElem?_reverse_below _ (length ▸ inside),
                ← getElem?_reverse_cons w (length ▸ inside)]
              exact value
          · obtain ⟨y, others, shape⟩ := List.exists_cons_of_length_eq_add_one becomes.length.symm
            obtain ⟨top, same, value⟩ := after.top shape ⟨slot, value⟩ last
            have outside := lands.length
            rw [← last, List.length_cons] at outside
            rw [same]
            refine .inl (.declares top value (.inl ?_))
            rw [← same]
            obtain rfl : i = (rest ++ slotsOf s.waiting).length + 0 := Nat.succ.inj outside.symm
            rw [Scene.slot?, slots, getElem?_reverse_above]
            intro there
            cases List.eq_of_mem_replicate (List.mem_reverse.mp (List.mem_of_getElem? there))
  | @leaves note next rest w vs caller others here silent top values waits there becomes =>
      cases x with
      | global name => exact .inr holds
      | «local» i b =>
          have waiting := sound.waiting
          rw [waits] at waiting
          cases waiting with
          | cons resumed _ _ below =>
              obtain ⟨slot, value⟩ := holds
              have lands : Becomes (.temporary :: (caller.shape ++ slotsOf others))
                  (next.shape ++ slotsOf others) := becomes.append _
              rcases lands.landed slot with old | last
              · -- The entries of the caller are below those of the call that returns.
                have inside := lt_of_getElem?_reverse old
                have length : (caller.values ++ stackOf others).length =
                    (caller.shape ++ slotsOf others).length := by
                  rw [List.length_append, List.length_append, resumed.length, below.length]
                refine .inr ⟨?_, ?_⟩
                · rw [Scene.slot?, Scene.slots, waits, slotsOf_cons, getElem?_reverse_below _ inside,
                    old]
                · rw [slotOf, Scene.stack, waits, stackOf_cons,
                    getElem?_reverse_below _ (length ▸ inside),
                    ← getElem?_reverse_cons w (length ▸ inside)]
                  exact value
              · obtain ⟨y, others', shape⟩ := List.exists_cons_of_length_eq_add_one becomes.length.symm
                obtain ⟨top, same, value⟩ := after.top shape ⟨slot, value⟩ last
                rw [same]
                refine .inl (.declares top value (.inr ?_))
                rw [waits]
                exact Nat.lt_succ_self _

end Steps

/-! ## Runs -/

/-- Some step of a run brought something about, and it has held ever since; later steps did not
bring it about again. -/
inductive Since (brings : Scene → Scene → Prop) (holds : Scene → Prop) : List Scene → Scene → Prop where
  | brought {past : List Scene} {t s : Scene} (brought : brings t s) (held : holds s) :
      Since brings holds (t :: past) s
  | kept {past : List Scene} {t s : Scene} (before : Since brings holds past t)
      (other : ¬ brings t s) (held : holds s) : Since brings holds (t :: past) s

section Runs

variable {lib : Library} {natives : Array NativeFunction} {first s : Scene} {past : List Scene}
  {brings : Scene → Scene → Prop} {holds : Scene → Prop}

/-- The scene that a run begins with has been there. -/
theorem Scene.Plays.first_mem (plays : first.Plays lib natives past s) :
    first ∈ s :: past := by
  induction plays with
  | begin => exact List.mem_cons_self ..
  | step _ _ ih => exact List.mem_cons_of_mem _ ih

/-- What only certain steps bring about has been brought about by one, unless it has held
all the time. -/
theorem Scene.Plays.since (plays : first.Plays lib natives past s) (sound : first.Sound lib)
    (trustworthy : Trustworthy lib natives)
    (step : ∀ t t', t.Sound lib → t'.Sound lib → t.Proceeds lib natives t' → holds t' →
      brings t t' ∨ holds t) (now : holds s) :
    Since brings holds past s ∨ ∀ t ∈ s :: past, holds t := by
  induction plays with
  | begin => exact .inr (List.forall_mem_singleton.mpr now)
  | @step past t t' before proceeds ih =>
      have earlier : t.Sound lib := before.sound sound trustworthy
      by_cases brought : brings t t'
      · exact .inl (.brought brought now)
      · have held := (step t t' earlier (proceeds.sound earlier trustworthy) proceeds now).resolve_left
          brought
        exact (ih held).imp (.kept · brought now) fun always => List.forall_mem_cons.mpr ⟨now, always⟩

end Runs

/-- What a variable holds in a run is what the latest step that gave it a value gave it, or
what it held from the beginning. -/
theorem Scene.Plays.recalls {natives : Array NativeFunction} {first s : Scene} {past : List Scene}
    (plays : first.Plays .written natives past s) (sound : first.Sound .written)
    (trustworthy : Trustworthy .written natives) {v : Value} {x : Variable} (holds : s.Holds v x) :
    Since (fun t t' => t.Gives t' v x) (fun t => t.Holds v x) past s ∨
      ∀ t ∈ s :: past, t.Holds v x :=
  plays.since sound trustworthy (fun _ _ before after proceeds now =>
    proceeds.gives before after (Part.Written.sound before.running.held).heap now) holds

end Machine
end StackScript
