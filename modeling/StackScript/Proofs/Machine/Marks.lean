import StackScript.Proofs.Machine.Memory

/-!
# Marks on values

A value carries a mark that says whether the variable that holds it may be assigned to.
The mark travels with the value, but compiled code sets it only where a constant is
declared and clears it wherever a variable is read.  So the mark on an entry of the stack
is what the notes say of its slot (`Scene.Marked`), and that on a global variable is what
its latest declaration says; constants keep their values, and assignments are refused
just where they are to constants (`marks_tell_constants`).
-/

namespace StackScript

/-- Whether what is in the slot may be assigned to. -/
def Slot.assignable : Slot → Bool
  | .temporary => true
  | .sealed => false
  | .bound b => b.assignable

/-- The marks on values are those of their slots. -/
def Marked (values : List Value) (shape : List Slot) : Prop :=
  values.map Value.assignable = shape.map Slot.assignable

namespace Marked

variable {values others : List Value} {shape rest : List Slot} {v : Value} {x : Slot}

theorem length (h : Marked values shape) : values.length = shape.length := by
  have same := congrArg List.length h
  simpa using same

theorem cons_iff : Marked (v :: values) (x :: shape) ↔
    v.assignable = x.assignable ∧ Marked values shape := by
  simp [Marked]

theorem append_iff (length : values.length = shape.length) :
    Marked (values ++ others) (shape ++ rest) ↔ Marked values shape ∧ Marked others rest := by
  unfold Marked
  rw [List.map_append, List.map_append]
  constructor
  · intro same
    exact List.append_inj same (by simpa using length)
  · rintro ⟨top, below⟩
    rw [top, below]

/-- Temporary values are assignable. -/
theorem temporary_iff {count : Nat} : Marked values (List.replicate count .temporary) ↔
    values.length = count ∧ ∀ v ∈ values, v.assignable = true := by
  unfold Marked
  rw [List.map_replicate, List.eq_replicate_iff, List.length_map]
  simp [Slot.assignable]

theorem becomes {after : List Slot} (h : Marked values shape) (becomes : Becomes shape after) :
    Marked values after := by
  cases becomes with
  | same => exact h
  | bind assignable rest => simpa [Marked, Slot.assignable, assignable] using h
  | freeze constant rest => simpa [Marked, Slot.assignable, constant] using h

/-- The mark on an entry is that of its slot. -/
theorem entry (h : Marked values shape) {k : Nat} (there : values.reverse[k]? = some v) :
    ∃ x, shape.reverse[k]? = some x ∧ v.assignable = x.assignable := by
  have same : (values.reverse.map Value.assignable)[k]? = (shape.reverse.map Slot.assignable)[k]? := by
    rw [List.map_reverse, List.map_reverse, h]
  rw [List.getElem?_map, List.getElem?_map, there] at same
  obtain ⟨x, found, mark⟩ := Option.map_eq_some_iff.mp same.symm
  exact ⟨x, found, mark.symm⟩

/-- The entry in a slot is marked as the slot. -/
theorem of_slot (h : Marked values shape) {k : Nat} (slot : shape.reverse[k]? = some x)
    (there : values.reverse[k]? = some v) : v.assignable = x.assignable := by
  obtain ⟨y, found, mark⟩ := h.entry there
  rw [slot] at found
  cases found
  exact mark

/-- Values that an instruction takes are assignable. -/
theorem taken {taken kept : List Value} {rest : List Slot}
    (h : Marked (taken ++ kept) (List.replicate taken.length .temporary ++ rest)) :
    (∀ v ∈ taken, v.assignable = true) ∧ Marked kept rest := by
  obtain ⟨top, below⟩ := (append_iff (by simp)).mp h
  exact ⟨(temporary_iff.mp top).2, below⟩

end Marked

/-- Unless a global variable is about to be defined, no value has been sealed. -/
theorem Note.Lawful.sealed {note : Note} (lawful : note.Lawful) (mem : Slot.sealed ∈ note.shape) :
    ∃ name, note.shape = .sealed :: note.scope.map .bound ∧
      note.mention = some (.define name false) := by
  have below : Slot.sealed ∉ note.scope.map .bound := by simp
  rcases lawful with temporary | ⟨name, same, mention⟩
  · rcases List.mem_append.mp mem with above | other
    · cases temporary _ above
    · exact absurd other below
  · exact ⟨name, by rw [Note.shape, same]; rfl, mention⟩

theorem Note.Lawful.unsealed {note : Note} (lawful : note.Lawful) (silent : note.mention = none) :
    Slot.sealed ∉ note.shape := by
  intro mem
  obtain ⟨name, -, mention⟩ := lawful.sealed mem
  rw [silent] at mention
  cases mention

theorem Value.Computed.assignable {v : Value} (h : v.Computed) : v.assignable = true := by
  cases h <;> rfl

/-- What a routine begins with may be assigned to. -/
theorem Part.assignable_entry {p : Part} : ∀ x ∈ p.entry, x.assignable = true := by
  intro x mem
  simp only [Part.entry, Part.view, List.map_map, List.mem_map] at mem
  obtain ⟨var, -, rfl⟩ := mem
  rfl

/-- Whether a global variable may be assigned to, if there is one of this name. -/
def Globals.mark (globals : Globals) (name : String) : Option Bool :=
  globals[name]?.map fun g => g.value.assignable

/-- How an instruction about a variable declares the global variable of a name, if it does. -/
def Mention.defines? (name : String) : Mention → Option Bool
  | .define other assignable => if other = name then some assignable else none
  | _ => none

namespace Machine

/-- Host functions give back assignable values, or arguments as they are. -/
def Plain (natives : Array NativeFunction) : Prop :=
  ∀ f ∈ natives, ∀ context arguments sink v sink',
    f context arguments sink = .ok v sink' → v.assignable = true ∨ v ∈ arguments

/-- The constants of a part of a program are assignable values. -/
theorem assignable_constants {lib : Library} {layout : Layout} {p : Part} (held : lib.holds layout p) :
    ∀ v ∈ (p.coded layout).pool.constants, v.assignable = true := by
  intro v mem
  rcases (lib.fine held).constants v mem with literal | ⟨q, -, rfl⟩
  · cases literal <;> rfl
  · rfl

section Effect

variable {op : Opcode} {pool : Pool} {note : Note} {shape : List Slot} {vs vs' : List Value}
  {world world' : World}

/-- An instruction keeps the marks of the running call. -/
theorem Effect.marked (h : Effect op pool note shape vs world vs' world')
    (constants : ∀ v ∈ pool.constants, v.assignable = true) (marked : Marked vs note.shape) :
    Marked vs' shape := by
  cases h with
  | stays => exact marked
  | drops _ _ _ _ _ top | defines _ _ _ _ top =>
      rw [top] at marked
      exact (Marked.cons_iff.mp marked).2
  | computes taken kept _ _ _ top computed =>
      rw [top] at marked
      exact Marked.cons_iff.mpr ⟨computed.assignable, marked.taken.2⟩
  | loads _ _ _ constant => exact Marked.cons_iff.mpr ⟨constants _ constant, marked⟩
  | readsLocal | readsGlobal => exact Marked.cons_iff.mpr ⟨rfl, marked⟩
  | @writesLocal _ k _ old _ v kept _ _ _ top there assignable =>
      have value : v.assignable = true := by
        rw [top] at marked
        exact (Marked.cons_iff.mp marked).1
      obtain ⟨inside, same⟩ := List.getElem?_eq_some_iff.mp there
      refine Eq.trans ?_ marked
      rw [withSlot, List.map_reverse, List.map_set, value, ← assignable, ← List.map_set, ← same,
        List.set_getElem_self, ← List.map_reverse, List.reverse_reverse]
  | writesGlobal => exact marked
  | seals _ _ _ _ _ top =>
      rw [top] at marked
      exact Marked.cons_iff.mpr ⟨rfl, (Marked.cons_iff.mp marked).2⟩

/-- Only one instruction seals a value. -/
theorem Effect.seals_with {rest : List Slot} (h : Effect op pool note shape vs world vs' world')
    (lawful : note.Lawful) (top : shape = .sealed :: rest) : op = .makeConst := by
  have unsealed (silent : note.mention = none) : Slot.sealed ∉ note.shape := lawful.unsealed silent
  cases h with
  | stays _ _ silent => exact absurd (top ▸ List.mem_cons_self ..) (unsealed silent)
  | drops _ _ _ _ silent before =>
      refine absurd ?_ (unsealed silent)
      rw [before, top]
      exact .tail _ (.head _)
  | computes | loads | readsLocal | readsGlobal => cases top
  | writesLocal _ _ _ _ _ before | writesGlobal _ _ _ _ _ before =>
      rw [before] at top
      cases top
  | defines _ _ _ _ before =>
      obtain ⟨name, same, -⟩ := lawful.sealed (by rw [before, top]; exact .tail _ (.head _))
      rw [before, top] at same
      have mem : Slot.sealed ∈ note.scope.map .bound := (List.cons.inj same).2 ▸ List.mem_cons_self ..
      simp at mem
  | seals _ _ _ marks => exact marks

/-- The mark on a global variable changes only where the variable is defined. -/
theorem Effect.mark (h : Effect op pool note shape vs world vs' world') (valid : pool.heap.Valid)
    (marked : Marked vs note.shape) (name : String) :
    world'.globals.mark name =
      (note.mention.bind (Mention.defines? name)).or (world.globals.mark name) := by
  -- binding a global sets the mark of that global only
  have inserted (other : String) (g : Global) :
      Globals.mark (world.globals.insert other g) name =
        if other = name then some g.value.assignable else world.globals.mark name := by
    rw [Globals.mark, Std.TreeMap.getElem?_insert]
    by_cases same : other = name
    · simp [same]
    · simp [same, Globals.mark]
  cases h with
  | stays _ _ silent | drops _ _ _ _ silent | computes _ _ _ _ silent | loads _ _ silent
  | seals _ _ _ _ silent =>
      rw [silent]
      rfl
  | readsLocal _ _ mention | readsGlobal _ _ mention | writesLocal _ _ _ mention =>
      rw [mention]
      rfl
  | writesGlobal v _ _ mention _ top same defined assignable =>
      rw [mention, inserted]
      split
      · rename_i equal
        rw [top] at marked
        obtain ⟨g, found, rfl⟩ := Option.map_eq_some_iff.mp defined
        rw [Globals.mark, ← equal, found, Option.map_some, assignable]
        exact congrArg some (Marked.cons_iff.mp marked).1
      · rfl
  | @defines other assignable text _ v _ _ mention top same =>
      have value : v.assignable = assignable := by
        rw [top] at marked
        refine (Marked.cons_iff.mp marked).1.trans ?_
        cases assignable <;> rfl
      rw [mention, inserted, same valid, value]
      simp only [Option.bind_some, Mention.defines?]
      split <;> rfl

/-- A variable that may not be assigned to is not assigned to. -/
theorem Effect.assigns (h : Effect op pool note shape vs world vs' world') (valid : pool.heap.Valid)
    (marked : Marked vs note.shape) {name : String} (mention : note.mention = some (.write name)) :
    (∃ k b, innermost name note.scope = some (k, b) ∧ b.assignable = true) ∨
      innermost name note.scope = none ∧ world.globals.mark name = some true := by
  cases h with
  | stays _ _ silent | drops _ _ _ _ silent | computes _ _ _ _ silent | loads _ _ silent
  | seals _ _ _ _ silent =>
      rw [silent] at mention
      cases mention
  | readsLocal _ _ about | readsGlobal _ _ about | defines _ _ _ about =>
      rw [about] at mention
      cases mention
  | writesLocal _ _ _ about found _ there assignable =>
      rw [about] at mention
      cases mention
      have slot := marked.of_slot (Note.slot_of_scope (innermost_slot found)) there
      exact .inl ⟨_, _, found, slot.symm.trans assignable⟩
  | writesGlobal _ _ _ about missing _ same defined assignable =>
      rw [about] at mention
      cases mention
      obtain ⟨g, known, rfl⟩ := Option.map_eq_some_iff.mp defined
      refine .inr ⟨missing, ?_⟩
      rw [Globals.mark, ← same valid, known, Option.map_some, assignable]

end Effect

/-! ## Marks on a scene -/

/-- Whether a variable may be assigned to, if there is one. -/
def Variable.mark (globals : Globals) : Variable → Option Bool
  | .local _ b => some b.assignable
  | .global name => globals.mark name

namespace Scene

variable (s : Scene)

/-- The marks are those of the slots, and only the running call can be about to define a
constant. -/
structure Marked : Prop where
  running : StackScript.Marked s.running.values s.running.shape
  waiting : ∀ a ∈ s.waiting, StackScript.Marked a.values a.shape
  unsealed : Slot.sealed ∉ slotsOf s.waiting

/-- The machine is about to execute such an instruction. -/
def Executes (op : Opcode) : Prop :=
  ∃ operand behind,
    s.running.frame.routine.chunk.decode s.running.frame.ip = .ok ⟨op, operand, behind⟩

/-- How the next instruction declares the global variable of a name, if it does. -/
def defines? (name : String) : Option Bool := s.mention?.bind (Mention.defines? name)

end Scene

section Steps

variable {lib : Library} {natives : Array NativeFunction} {s s' : Scene} {note : Note}

/-- The marks on all entries of the stack. -/
theorem Scene.Marked.stack (h : s.Marked) : StackScript.Marked s.stack s.slots := by
  have waiting : StackScript.Marked (stackOf s.waiting) (slotsOf s.waiting) := by
    have each := h.waiting
    generalize s.waiting = calls at each
    induction calls with
    | nil => rfl
    | cons a others ih =>
        obtain ⟨first, others⟩ := List.forall_mem_cons.mp each
        exact (Marked.append_iff first.length).mpr ⟨first, ih others⟩
  exact (Marked.append_iff h.running.length).mpr ⟨h.running, waiting⟩

section Proceeds

variable (sound : s.Sound lib) (marked : s.Marked)

include sound marked

/-- The marks on the running call, as the note on its instruction has them. -/
theorem Scene.Marked.noted (here : s.running.view s.running.frame.ip = some note) :
    StackScript.Marked s.running.values note.shape := sound.shape_eq here ▸ marked.running

/-- Arguments and callee are assignable. -/
theorem Scene.Marked.split {rest : List Slot} {callee : Value} {arguments kept : List Value}
    (here : s.running.view s.running.frame.ip = some note)
    (top : note.shape = List.replicate (arguments.length + 1) .temporary ++ rest)
    (values : s.running.values = arguments.reverse ++ callee :: kept) :
    (∀ v ∈ arguments.reverse ++ [callee], v.assignable = true) ∧ StackScript.Marked kept rest := by
  have noted := Scene.Marked.noted sound marked here
  have length : arguments.length + 1 = (arguments.reverse ++ [callee]).length := by simp
  rw [values, top, List.append_cons, length] at noted
  exact noted.taken

variable (proceeds : s.Proceeds lib natives s')

include proceeds

/-- A step keeps the marks. -/
theorem Scene.Proceeds.keeps_marks (plain : Plain natives) : s'.Marked := by
  cases proceeds with
  | works here code notCall effect there becomes =>
      exact ⟨(effect.marked (assignable_constants sound.running.held)
        (Scene.Marked.noted sound marked here)).becomes becomes, marked.waiting, marked.unsealed⟩
  | @enters note rest pc callee arguments kept layout part here silent code top values callable
      held arity leads =>
      obtain ⟨given, below⟩ := Scene.Marked.split sound marked here top values
      have unsealed := (Part.lawful here).unsealed silent
      rw [top] at unsealed
      refine ⟨?_, List.forall_mem_cons.mpr ⟨below, marked.waiting⟩, fun mem => ?_⟩
      · -- Parameters and the slot of the routine itself may be assigned to.
        have entry : part.entry.map Slot.assignable =
            List.replicate (arguments.length + 1) true := by
          rw [List.eq_replicate_iff]
          refine ⟨by simp [Part.entry, Part.view, (lib.fine held).slots, arity], fun mark mem => ?_⟩
          obtain ⟨x, inside, rfl⟩ := List.mem_map.mp mem
          exact Part.assignable_entry x inside
        refine Eq.trans (List.eq_replicate_iff.mpr ⟨by simp, fun mark mem => ?_⟩) entry.symm
        obtain ⟨v, inside, rfl⟩ := List.mem_map.mp mem
        exact given v inside
      · rcases List.mem_append.mp mem with resumed | below
        · exact unsealed (List.mem_append_right _ resumed)
        · exact marked.unsealed below
  | @hosts note next rest pc callee v arguments kept n f sink here silent code top values callable
      known returned there becomes =>
      obtain ⟨given, below⟩ := Scene.Marked.split sound marked here top values
      have result : v.assignable = true := by
        rcases plain f (Array.mem_of_getElem? known) _ _ _ _ _ returned with assignable | mem
        · exact assignable
        · exact given v (by simpa using Or.inl mem)
      exact ⟨(Marked.cons_iff.mpr ⟨result, below⟩).becomes becomes, marked.waiting, marked.unsealed⟩
  | @leaves note next rest v vs caller others here silent top values waits there becomes =>
      have noted := Scene.Marked.noted sound marked here
      rw [values, top] at noted
      have result : v.assignable = true := (Marked.cons_iff.mp noted).1
      have waiting := marked.waiting
      have unsealed := marked.unsealed
      rw [waits] at waiting unsealed
      obtain ⟨resumed, below⟩ := List.forall_mem_cons.mp waiting
      exact ⟨(Marked.cons_iff.mpr ⟨result, resumed⟩).becomes becomes, below,
        fun mem => unsealed (List.mem_append_right _ mem)⟩

/-- The mark on a global variable changes only where the variable is defined. -/
theorem Scene.Proceeds.keeps_mark (valid : s.running.pool.heap.Valid) (name : String) :
    s'.world.globals.mark name = (s.defines? name).or (s.world.globals.mark name) := by
  rw [Scene.defines?]
  cases proceeds with
  | works here code notCall effect there becomes =>
      rw [s.mention?_eq here]
      exact effect.mark valid (Scene.Marked.noted sound marked here) name
  | enters here silent | hosts here silent | leaves here silent =>
      rw [s.mention?_eq here, silent]
      rfl

/-- A variable that may not be assigned to is not assigned to. -/
theorem Scene.Proceeds.assigns (valid : s.running.pool.heap.Valid) {name : String} {x : Variable}
    (mention : s.mention? = some (.write name)) (meant : s.meant? name = some x) :
    x.mark s.world.globals = some true := by
  cases proceeds with
  | works here code notCall effect there becomes =>
      rw [s.mention?_eq here] at mention
      simp only [Scene.meant?, Scene.note?, here, Option.map_some, Option.some.injEq] at meant
      subst meant
      rcases effect.assigns valid (Scene.Marked.noted sound marked here) mention with
        ⟨k, b, found, assignable⟩ | ⟨missing, assignable⟩
      · rw [found]
        exact congrArg some assignable
      · rw [missing]
        exact assignable
  | enters here silent | hosts here silent | leaves here silent =>
      rw [s.mention?_eq here, silent] at mention
      cases mention

omit marked in
/-- What is sealed on top, or becomes the value of a constant there, has just been marked. -/
theorem Scene.Proceeds.seals {x : Slot} {rest : List Slot} (top : s'.running.shape = x :: rest)
    (constant : x.assignable = false) (after : s'.Sound lib)
    (new : ∀ b, x = .bound b → s.slot? (s'.running.frame.base + rest.length) ≠ some (.bound b) ∨
      s'.waiting.length < s.waiting.length) : s.Executes .makeConst := by
  -- A result of a call is not marked.
  have result {kept after : List Slot} (becomes : Becomes (.temporary :: kept) after) :
      after ≠ x :: rest := by
    rintro rfl
    cases becomes with
    | same => cases constant
    | bind assignable => exact absurd constant (by simp [Slot.assignable, assignable])
  cases proceeds with
  | @works note next shape op operand behind pc vs world here code notCall effect there becomes =>
      replace top : next.shape = x :: rest := top
      have marks (top : shape = .sealed :: rest) : s.Executes .makeConst := by
        obtain rfl := effect.seals_with (Part.lawful here) top
        exact ⟨_, _, code⟩
      rw [top] at becomes
      cases becomes with
      | same =>
          cases x with
          | temporary => cases constant
          | «sealed» => exact marks rfl
          | bound b =>
              have there : s.running.shape.reverse[rest.length]? = some (.bound b) := by
                rw [sound.shape_eq here]
                exact effect.bound (by simp)
              rcases new b rfl with other | fewer
              · exact absurd ((Scene.slot?_above sound _).trans there) other
              · exact absurd fewer (Nat.lt_irrefl _)
      | bind assignable => exact absurd constant (by simp [Slot.assignable, assignable])
      | freeze => exact marks rfl
  | @enters note _ pc callee arguments kept layout part =>
      have own : x ∈ part.entry := by
        rw [show part.entry = x :: rest from top]
        exact List.mem_cons_self ..
      rw [Part.assignable_entry x own] at constant
      cases constant
  | hosts here silent code _ values callable known returned there becomes => exact absurd top (result becomes)
  | leaves here silent _ values waits there becomes => exact absurd top (result becomes)

end Proceeds

end Steps

/-! ## Marks in a run -/

/-- How the latest declaration in a run has a global variable declared.  What comes from before the run is
declared as it is marked then. -/
def declared (first : Globals) : List Scene → String → Option Bool
  | [], name => first.mark name
  | s :: earlier, name => (s.defines? name).or (declared first earlier name)

/-- Whether a variable is declared as one that may be assigned to. -/
def Variable.declared (first : Globals) (past : List Scene) : Variable → Option Bool
  | .local _ b => some b.assignable
  | .global name => Machine.declared first past name

/-- The step from one scene to the next makes a constant: a local variable on top whose value
has just been marked, or a global variable. -/
def Scene.Freezes (s s' : Scene) : Variable → Prop
  | .local i _ => s.Executes .makeConst ∧ i + 1 = s'.stack.length
  | .global name => s.defines? name = some false

section Runs

variable {natives : Array NativeFunction} {first s : Scene} {past : List Scene}

theorem Scene.Sound.valid (sound : s.Sound .written) : s.running.pool.heap.Valid :=
  (Part.Written.sound sound.running.held).heap

variable (plays : first.Plays .written natives past s) (sound : first.Sound .written)
  (trustworthy : Trustworthy .written natives) (plain : Plain natives) (begins : first.Marked)

include plays sound trustworthy plain begins

theorem Scene.Plays.marked : s.Marked := by
  induction plays with
  | begin => exact begins
  | step before proceeds ih => exact proceeds.keeps_marks (before.sound sound trustworthy) ih plain

/-- A global variable is marked as it has been declared. -/
theorem Scene.Plays.mark_eq (name : String) :
    s.world.globals.mark name = Machine.declared first.world.globals past name := by
  induction plays with
  | begin => rfl
  | step before proceeds ih =>
      have sound := before.sound sound trustworthy
      have marked := before.marked ‹_› trustworthy plain begins
      rw [proceeds.keeps_mark sound marked sound.valid, ih]
      rfl

/-- If a step gives a constant its value, it makes the constant. -/
theorem Scene.Plays.freezes {t : Scene} (proceeds : s.Proceeds .written natives t) {v : Value}
    {x : Variable} (gives : s.Gives t v x) (holds : t.Holds v x)
    (constant : x.declared first.world.globals (s :: past) = some false) : s.Freezes t x := by
  have before := plays.sound sound trustworthy
  have after := proceeds.sound before trustworthy
  have marked := plays.marked sound trustworthy plain begins
  cases gives with
  | @argument i b called own given =>
      -- What a routine begins with is no constant.
      obtain ⟨k, rfl⟩ := Nat.exists_eq_add_of_le own
      have slot := (Scene.holds_above after).mp holds |>.1
      have assignable : Slot.assignable (.bound b) = true := by
        cases proceeds with
        | enters => exact Part.assignable_entry _ (List.mem_reverse.mp (List.mem_of_getElem? slot))
        | works | hosts => exact absurd called (by simp)
        | leaves _ _ _ _ waits =>
            simp only [waits, List.length_cons] at called
            omega
      exact absurd (Option.some.inj constant) (by simpa [Slot.assignable] using assignable)
  | @declares b rest top value new =>
      refine ⟨proceeds.seals before top (Option.some.inj constant) after fun b' same => ?_, ?_⟩
      · cases same
        exact new
      · rw [Scene.stack, List.length_append, after.running.length, top, List.length_cons, ← after.base]
        omega
  | @defines name assignable mention top =>
      have defines : s.defines? name = some assignable := by simp [Scene.defines?, mention, Mention.defines?]
      simp only [Variable.declared, declared, defines, Option.some_or] at constant
      exact defines.trans constant
  | @assigns name x mention target top =>
      have other : ∀ name, s.defines? name = none := by simp [Scene.defines?, mention, Mention.defines?]
      have assignable := proceeds.assigns before marked before.valid mention target
      cases x with
      | «local» i b =>
          rw [Variable.mark] at assignable
          rw [Variable.declared, assignable] at constant
          cases constant
      | global name =>
          simp only [Variable.declared, declared, other, Option.none_or] at constant
          rw [Variable.mark, plays.mark_eq sound trustworthy plain begins, constant] at assignable
          cases assignable

/-- A constant holds what it held when it was made. -/
theorem Scene.Plays.constant {v : Value} {x : Variable} (holds : s.Holds v x)
    (constant : x.declared first.world.globals past = some false) :
    Since (fun t t' => t.Freezes t' x) (fun t => t.Holds v x) past s ∨
      ∀ t ∈ s :: past, t.Holds v x := by
  induction plays with
  | begin => exact .inr (List.forall_mem_singleton.mpr holds)
  | @step past t t' before proceeds ih =>
      by_cases made : t.Freezes t' x
      · exact .inl (.brought made holds)
      have earlier := before.sound sound trustworthy
      have held : t.Holds v x := by
        rcases proceeds.gives earlier (proceeds.sound earlier trustworthy) earlier.valid holds with
          gives | held
        · exact absurd (before.freezes sound trustworthy plain begins proceeds gives holds constant) made
        · exact held
      have constant : x.declared first.world.globals past = some false := by
        cases x with
        | «local» i b => exact constant
        | global name =>
            simp only [Variable.declared, declared, Option.or_eq_some_iff] at constant
            exact (constant.resolve_left made).2
      exact (ih held constant).imp (.kept · made holds) fun always => List.forall_mem_cons.mpr ⟨holds, always⟩

variable (fresh : ∀ x ∈ first.slots, x.assignable = true)

include fresh

/-- A value that has been sealed is on top; it has just been marked, and a global constant is about
to be defined. -/
theorem Scene.Plays.sealed {i : Nat} (there : s.slot? i = some .sealed) :
    i + 1 = s.stack.length ∧ (∃ name, s.mention? = some (.define name false)) ∧
      ∃ t earlier, past = t :: earlier ∧ t.Executes .makeConst := by
  have now := plays.sound sound trustworthy
  have marked := plays.marked sound trustworthy plain begins
  obtain ⟨note, here, shape⟩ := now.noted
  have mem : Slot.sealed ∈ s.running.shape := by
    rcases List.mem_append.mp (List.mem_reverse.mp (List.mem_of_getElem? there)) with own | below
    · exact own
    · exact absurd below marked.unsealed
  obtain ⟨name, top, mention⟩ := (Part.lawful here).sealed (shape ▸ mem)
  rw [shape] at top
  refine ⟨?_, ⟨name, (s.mention?_eq here).trans mention⟩, ?_⟩
  · -- Below it there are variables only.
    have height : i < s.slots.length := lt_of_getElem?_reverse there
    have outside : ¬ i < (note.scope.map Slot.bound ++ slotsOf s.waiting).length := by
      intro lower
      rw [Scene.slot?, Scene.slots, top, List.cons_append, getElem?_reverse_cons _ lower] at there
      rcases List.mem_append.mp (List.mem_reverse.mp (List.mem_of_getElem? there)) with own | below
      · simp at own
      · exact marked.unsealed below
    rw [← now.length]
    rw [Scene.slots, top, List.cons_append, List.length_cons] at height ⊢
    omega
  · cases plays with
    | begin => cases fresh _ (List.mem_reverse.mp (List.mem_of_getElem? there))
    | @step past t _ before proceeds =>
        refine ⟨t, past, rfl, proceeds.seals (before.sound sound trustworthy) top rfl now ?_⟩
        intro b same
        cases same

end Runs

section Opening

variable (layout : Layout) {p : Part} (world : World)

end Opening

/-- Whether a step is refused because it would assign to a local constant. -/
def refusesLocal : EStateM.Result Fault Machine Flow → Bool
  | .error (.assignToConstant none) _ => true
  | _ => false

end Machine
end StackScript
