import StackScript.Proofs.Machine.Compiled
import StackScript.Proofs.Machine.Memory
import StackScript.Proofs.Recognition.Names
import StackScript.Proofs.Shape.Bottom

/-!
# A script is called by nobody

The only value that holds a running script is at the bottom of its own stack, where no
identifier leads.  So a script is not called while it runs, and neither a global variable nor
any other value ends up with it (`Scene.Guarded`).  The functions that are within reach are
those of a library, to which the script itself need not belong.
-/

namespace StackScript

/-- A host function that makes no functions: one that it gives back is among its arguments, or
a global variable holds it. -/
def NativeFunction.HandsBack (f : NativeFunction) : Prop :=
  ∀ context arguments sink v sink', f context arguments sink = .ok v sink' →
    ∀ r, v.datum = .routine r → (∃ a ∈ arguments, a.datum = .routine r) ∨
      ∃ (name : String) (g : Global), context.globals[name]? = some g ∧ g.value.datum = .routine r

namespace Machine

theorem trustworthy_of_handsBack {lib : Library} {natives : Array NativeFunction}
    (h : ∀ f ∈ natives, f.HandsBack) : Trustworthy lib natives := by
  intro f mem context arguments sink v sink' _ globals given returned r same
  rcases h f mem _ _ _ _ _ returned r same with ⟨a, there, holds⟩ | ⟨name, g, bound, holds⟩
  · exact given a there r holds
  · exact globals name g bound r holds

/-! ## Values above the bottom -/

/-- All values but the lowest, which is there for the routine itself, can be trusted. -/
def Upper (lib : Library) (values : List Value) : Prop :=
  values ≠ [] ∧ ∀ v ∈ values.dropLast, v.Trusted lib

namespace Upper

variable {lib : Library} {values front : List Value} {v : Value}

theorem single : Upper lib [v] := ⟨List.cons_ne_nil _ _, fun _ mem => by cases mem⟩

theorem append_iff (some : values ≠ []) :
    Upper lib (front ++ values) ↔ (∀ v ∈ front, v.Trusted lib) ∧ Upper lib values := by
  unfold Upper
  rw [List.dropLast_append_of_ne_nil some, List.forall_mem_append]
  simp [some]

theorem cons_iff (some : values ≠ []) :
    Upper lib (v :: values) ↔ v.Trusted lib ∧ Upper lib values := by
  rw [← List.singleton_append, append_iff some, List.forall_mem_singleton]

theorem push (h : Upper lib values) (trusted : v.Trusted lib) : Upper lib (v :: values) :=
  (cons_iff h.1).mpr ⟨trusted, h⟩

/-- The values by slot. -/
theorem reverse_iff {lowest : Value} {slots : List Value} :
    Upper lib (lowest :: slots).reverse ↔ ∀ v ∈ slots, v.Trusted lib := by
  rw [List.reverse_cons, append_iff (List.cons_ne_nil _ _)]
  simp [single]

/-- What is in a slot above the lowest. -/
theorem slot (h : Upper lib values) {k : Nat} (there : slotOf values k = some v) (above : 0 < k) :
    v.Trusted lib := by
  obtain ⟨j, rfl⟩ := Nat.exists_eq_succ_of_ne_zero (Nat.ne_of_gt above)
  rw [slotOf, ← List.getElem?_tail, List.tail_reverse] at there
  exact h.2 v (List.mem_reverse.mp (List.mem_of_getElem? there))

theorem set (h : Upper lib values) (trusted : v.Trusted lib) (k : Nat) :
    Upper lib (withSlot values k v) := by
  obtain ⟨lowest, slots, same⟩ :=
    List.exists_cons_of_ne_nil (fun none => h.1 (List.reverse_eq_nil_iff.mp none))
  rw [← List.reverse_reverse values, same, reverse_iff] at h
  rw [withSlot, same]
  cases k with
  | zero => exact reverse_iff.mpr h
  | succ k =>
      refine reverse_iff.mpr fun w mem => ?_
      rcases List.mem_or_eq_of_mem_set mem with old | rfl
      · exact h w old
      · exact trusted

end Upper

/-! ## Steps -/

/-- The bottom is not in a slot above it. -/
theorem getLast?_withSlot {values : List Value} {k : Nat} (above : 0 < k) (v : Value) :
    (withSlot values k v).getLast? = values.getLast? := by
  obtain ⟨j, rfl⟩ := Nat.exists_eq_succ_of_ne_zero (Nat.ne_of_gt above)
  rw [withSlot, List.getLast?_reverse, ← List.head?_reverse]
  cases values.reverse <;> rfl

section Effect

variable {lib : Library} {op : Opcode} {pool : Pool} {note : Note} {shape : List Slot}
  {vs vs' : List Value} {world world' : World}

/-- Below values that are in no variable there are others. -/
theorem kept_ne_nil {front rest : List Slot} {taken kept : List Value} (scope : note.scope ≠ [])
    (length : (taken ++ kept).length = note.shape.length) (top : note.shape = front ++ rest)
    (same : taken.length = front.length) (unbound : ∀ b, .bound b ∉ front) : kept ≠ [] := by
  have more := List.length_pos_iff.mpr (Note.rest_ne_nil scope top unbound)
  rw [top, List.length_append, List.length_append] at length
  exact List.ne_nil_of_length_pos (by omega)

theorem tail_ne_nil {rest : List Slot} {v : Value} {kept : List Value} (scope : note.scope ≠ [])
    (length : (v :: kept).length = note.shape.length) (top : note.shape = .temporary :: rest) :
    kept ≠ [] := by
  have taken : ([v] ++ kept).length = note.shape.length := length
  have front : note.shape = [.temporary] ++ rest := top
  exact kept_ne_nil scope taken front rfl (by simp)

section

variable (h : Effect op pool note shape vs world vs' world') (scope : note.scope ≠ [])
  (length : vs.length = note.shape.length) (some : vs' ≠ [])
  (lowest : ∀ name k b, note.mention = .some (.read name) ∨ note.mention = .some (.write name) →
    innermost name note.scope = .some (k, b) → 0 < k)

include h scope length some lowest

/-- An instruction of a call leaves what is above the bottom in order. -/
theorem Effect.upper (constants : ∀ v ∈ pool.constants, v.Trusted lib) (upper : Upper lib vs)
    (globals : world.globals.Trusted lib) : Upper lib vs' ∧ world'.globals.Trusted lib := by
  cases h with
  | stays => exact ⟨upper, globals⟩
  | drops => exact ⟨((Upper.cons_iff some).mp upper).2, globals⟩
  | computes taken kept _ _ _ top computed =>
      have some := kept_ne_nil scope length top (by simp) (by simp)
      exact ⟨((Upper.append_iff some).mp upper).2.push computed.trusted, globals⟩
  | loads _ _ _ constant => exact ⟨upper.push (constants _ constant), globals⟩
  | readsLocal _ _ mention found there =>
      exact ⟨upper.push (upper.slot there (lowest _ _ _ (.inl mention) found)).copy, globals⟩
  | readsGlobal _ _ _ _ _ defined => exact ⟨upper.push (globals.value defined).copy, globals⟩
  | writesLocal v kept _ _ _ top =>
      have value := (Upper.cons_iff (tail_ne_nil scope length top)).mp upper
      exact ⟨upper.set value.1 _, globals⟩
  | writesGlobal v kept _ _ _ top =>
      have value := (Upper.cons_iff (tail_ne_nil scope length top)).mp upper
      exact ⟨upper, globals.insert _ value.1⟩
  | defines v kept _ _ top =>
      have value := (Upper.cons_iff some).mp upper
      exact ⟨value.2, globals.insert _ value.1⟩
  | seals v kept _ _ _ top =>
      have value := (Upper.cons_iff (tail_ne_nil scope length top)).mp upper
      exact ⟨value.2.push value.1.constant, globals⟩

/-- The bottom stays as it is. -/
theorem Effect.getLast? : vs'.getLast? = vs.getLast? := by
  have before : vs ≠ [] := by
    have whole : ([] ++ vs).length = note.shape.length := length
    exact kept_ne_nil scope whole (List.nil_append _).symm rfl (by simp)
  cases h with
  | stays | writesGlobal => rfl
  | drops | defines => exact (List.getLast?_cons_of_ne_nil some).symm
  | computes taken kept _ _ _ top computed =>
      have below := kept_ne_nil scope length top (by simp) (by simp)
      rw [List.getLast?_append_of_ne_nil _ below, List.getLast?_cons_of_ne_nil below]
  | loads | readsLocal | readsGlobal => exact List.getLast?_cons_of_ne_nil before
  | writesLocal v kept _ mention found => exact getLast?_withSlot (lowest _ _ _ (.inr mention) found) v
  | seals v kept _ _ _ top =>
      have below := tail_ne_nil scope length top
      rw [List.getLast?_cons_of_ne_nil below, List.getLast?_cons_of_ne_nil below]

end

end Effect

/-! ## Calls -/

/-- The routines of the active calls, the innermost first. -/
def Scene.routines (s : Scene) : List Routine :=
  (s.running :: s.waiting).map fun a => a.frame.routine

/-- The script has begun the run and has called functions of the library only, and it is out
of their reach. -/
structure Scene.Guarded (lib : Library) (script : Routine) (s : Scene) : Prop where
  routines : ∃ called, s.routines = called ++ [script] ∧ ∀ r ∈ called, r.OneOf lib.holds
  running : Upper lib s.running.values
  waiting : ∀ a ∈ s.waiting, Upper lib a.values
  bottom : s.stack.getLast? = some (.routine script)
  globals : s.world.globals.Trusted lib

section Scenes

variable {lib : Library} {script : Routine} {natives : Array NativeFunction} {s s' : Scene}
  {note : Note}

section

variable (sound : s.Sound lib)

include sound

theorem Scene.Sound.scope_ne_nil (here : s.running.view s.running.frame.ip = some note) :
    note.scope ≠ [] := (lib.fine sound.running.held).scope_ne_nil here

/-- There is a value for each slot. -/
theorem Scene.Sound.length_eq (here : s.running.view s.running.frame.ip = some note) :
    s.running.values.length = note.shape.length :=
  sound.running.length.trans (congrArg List.length (sound.shape_eq here))

theorem Scene.Sound.values_ne_nil : s.running.values ≠ [] := by
  obtain ⟨note, here, -⟩ := sound.noted
  have length : ([] ++ s.running.values).length = note.shape.length := sound.length_eq here
  exact kept_ne_nil (sound.scope_ne_nil here) length (List.nil_append _).symm rfl (by simp)

end

/-- Only what can be trusted is among the constants of an active routine. -/
theorem Scene.Guarded.trusted_constants (h : s.Guarded lib script)
    (own : ∀ v ∈ script.chunk.constants, v.Trusted lib) :
    ∀ r ∈ s.routines, ∀ v ∈ r.chunk.constants, v.Trusted lib := by
  obtain ⟨called, same, functions⟩ := h.routines
  rw [same, List.forall_mem_append, List.forall_mem_singleton]
  refine ⟨fun r mem => ?_, own⟩
  obtain ⟨layout, p, held, rfl⟩ := functions r mem
  exact lib.closed held

/-- Arguments and callee of a call, and what lies below them. -/
theorem Scene.Guarded.split (h : s.Guarded lib script) (sound : s.Sound .written) {rest : List Slot}
    {callee : Value} {arguments kept : List Value}
    (here : s.running.view s.running.frame.ip = some note)
    (top : note.shape = List.replicate (arguments.length + 1) .temporary ++ rest)
    (values : s.running.values = arguments.reverse ++ callee :: kept) :
    (∀ v ∈ arguments, v.Trusted lib) ∧ callee.Trusted lib ∧ Upper lib kept := by
  have length := sound.length_eq here
  have upper := h.running
  rw [values, List.append_cons] at length upper
  have some := kept_ne_nil (sound.scope_ne_nil here) length top (by simp) (by simp)
  rw [Upper.append_iff some, List.forall_mem_append, List.forall_mem_singleton] at upper
  obtain ⟨⟨given, callable⟩, below⟩ := upper
  exact ⟨fun v mem => given v (List.mem_reverse.mpr mem), callable, below⟩

/-- A step does not let the script be called. -/
theorem Scene.Proceeds.guarded (proceeds : s.Proceeds .written natives s') (sound : s.Sound .written)
    (after : s'.Sound .written) (handsBack : ∀ f ∈ natives, f.HandsBack)
    (own : ∀ v ∈ script.chunk.constants, v.Trusted lib) (h : s.Guarded lib script) :
    s'.Guarded lib script := by
  have held : s.running.part.Written s.running.layout := sound.running.held
  cases proceeds with
  | @works note _ _ _ _ _ _ _ _ here code notCall effect there becomes =>
      have constants : ∀ v ∈ s.running.frame.routine.chunk.constants, v.Trusted lib :=
        h.trusted_constants own _ (List.mem_cons_self ..)
      rw [sound.running.routine] at constants
      -- the script's own slot is never the target of a mention
      have lowest : ∀ name k b, note.mention = some (.read name) ∨ note.mention = some (.write name) →
          innermost name note.scope = some (k, b) → 0 < k :=
        fun name k b mention found => held.settled.slot_pos here mention found
      obtain ⟨running, globals⟩ := effect.upper (sound.scope_ne_nil here) (sound.length_eq here)
        after.values_ne_nil lowest constants h.running h.globals
      refine ⟨h.routines, running, h.waiting, ?_, globals⟩
      have bottom := effect.getLast? (sound.scope_ne_nil here) (sound.length_eq here)
        after.values_ne_nil lowest
      rw [← h.bottom, Scene.stack, Scene.stack, List.getLast?_append, List.getLast?_append]
      exact congrArg _ bottom
  | @enters note rest pc callee arguments kept layout part here silent code top values callable =>
      obtain ⟨given, called, below⟩ := h.split sound here top values
      obtain ⟨others, same, functions⟩ := h.routines
      refine ⟨⟨_ :: others, congrArg _ same, ?_⟩, ?_, List.forall_mem_cons.mpr ⟨below, h.waiting⟩, ?_,
        h.globals⟩
      · exact List.forall_mem_cons.mpr ⟨called _ callable, functions⟩
      · refine (Upper.append_iff (List.cons_ne_nil _ _)).mpr ⟨fun v mem => ?_, .single⟩
        exact given v (List.mem_reverse.mp mem)
      · have whole : s.stack = arguments.reverse ++ [callee] ++ (kept ++ stackOf s.waiting) := by
          simp [Scene.stack, values]
        rw [← h.bottom, whole]
        rfl
  | @hosts note next rest pc callee v arguments kept n f sink here silent code top values callable
      known returned =>
      obtain ⟨given, -, below⟩ := h.split sound here top values
      -- what the host gives back it got as an argument or found in a global
      have result : v.Trusted lib := by
        intro r same
        rcases handsBack f (Array.mem_of_getElem? known) _ _ _ _ _ returned r same with
          ⟨a, mem, holds⟩ | ⟨name, g, bound, holds⟩
        · exact given a (by simpa using mem) r holds
        · exact h.globals name g bound r holds
      refine ⟨h.routines, below.push result, h.waiting, ?_, h.globals⟩
      have whole : s.stack = arguments.reverse ++ [callee] ++ (kept ++ stackOf s.waiting) := by
        simp [Scene.stack, values]
      have keeps (front : List Value) : (front ++ (kept ++ stackOf s.waiting)).getLast? =
          (kept ++ stackOf s.waiting).getLast? :=
        List.getLast?_append_of_ne_nil _ (List.append_ne_nil_of_left_ne_nil below.1 _)
      rw [← h.bottom, whole, keeps]
      exact keeps [v]
  | @leaves note next rest v vs caller others here silent top values waits =>
      obtain ⟨called, same, functions⟩ := h.routines
      have waiting := h.waiting
      have upper := h.running
      have length := sound.length_eq here
      rw [waits, List.forall_mem_cons] at waiting
      rw [values] at upper length
      rw [Upper.cons_iff (tail_ne_nil (sound.scope_ne_nil here) length top)] at upper
      have whole : s.stack = v :: vs ++ (caller.values ++ stackOf others) := by
        rw [Scene.stack, values, waits, stackOf_cons]
      have keeps (front : List Value) : (front ++ (caller.values ++ stackOf others)).getLast? =
          (caller.values ++ stackOf others).getLast? :=
        List.getLast?_append_of_ne_nil _ (List.append_ne_nil_of_left_ne_nil waiting.1.1 _)
      -- the result goes on top of the caller's values, so the bottom stays
      have bottom : (v :: caller.values ++ stackOf others).getLast? = some (.routine script) := by
        rw [← h.bottom, whole, keeps]
        exact keeps [v]
      refine ⟨?_, waiting.1.push upper.1, waiting.2, bottom, h.globals⟩
      rw [Scene.routines, waits] at same
      cases called with
      | nil => cases same
      | cons first called =>
          exact ⟨called, (List.cons.inj same).2, fun r mem => functions r (.tail _ mem)⟩

variable {first : Scene} {past : List Scene}

theorem Scene.Plays.guarded (plays : first.Plays .written natives past s)
    (sound : first.Sound .written) (trustworthy : Trustworthy .written natives)
    (handsBack : ∀ f ∈ natives, f.HandsBack)
    (own : ∀ v ∈ script.chunk.constants, v.Trusted lib) (begins : first.Guarded lib script) :
    s.Guarded lib script := by
  induction plays with
  | begin => exact begins
  | step before proceeds ih =>
      have earlier := before.sound sound trustworthy
      exact proceeds.guarded earlier (proceeds.sound earlier trustworthy) handsBack own ih

theorem Scene.opening_guarded (layout : Layout) (p : Part) {world : World}
    (globals : world.globals.Trusted lib) :
    (Scene.opening layout p world).Guarded lib (p.routine layout) where
  routines := ⟨[], rfl, fun _ mem => by cases mem⟩
  running := .single
  waiting a mem := by cases mem
  bottom := rfl
  globals := globals

/-- A stack with a single value has a single call. -/
theorem Scene.Guarded.alone (h : s.Guarded lib script) (small : s.stack.length ≤ 1) : s.waiting = [] := by
  have first := List.length_pos_iff.mpr h.running.1
  have waiting := h.waiting
  rw [Scene.stack, List.length_append] at small
  cases waits : s.waiting with
  | nil => rfl
  | cons a others =>
      have more := List.length_pos_iff.mpr (waiting a (waits ▸ List.mem_cons_self ..)).1
      rw [waits, stackOf_cons, List.length_append] at small
      omega

end Scenes

end Machine
end StackScript
