import StackScript.Proofs.Machine.Boundaries
import StackScript.Proofs.Machine.Limits
import StackScript.Proofs.Machine.Scenes

/-!
# Compiled programs at run time

Every state of a run of a compiled script is a sound scene, so the code never misses a
value or a constant, and the faults that stop a run are those of the language
(`run_faults_of_language`).  A call leaves what lies below it alone: it replaces callee and
arguments by its result (`calls_replace_callee`).
-/

namespace StackScript
namespace Machine

/-! ## Runs as sequences of scenes -/

/-- Compiled code leads from one scene to another; the scenes before come newest first. -/
inductive Scene.Plays (lib : Library) (natives : Array NativeFunction) (first : Scene) :
    List Scene → Scene → Prop where
  | begin : Plays lib natives first [] first
  | step {earlier : List Scene} {s s' : Scene} (before : Plays lib natives first earlier s)
      (proceeds : s.Proceeds lib natives s') : Plays lib natives first (s :: earlier) s'

/-- A script that is about to begin. -/
def Scene.opening (layout : Layout) (p : Part) (world : World) : Scene where
  running := ⟨layout, p, .enter (p.routine layout) 0, p.entry, [.routine (p.routine layout)]⟩
  waiting := []
  world := world

section

variable {lib : Library} {natives : Array NativeFunction} {s s' first : Scene}
  {frame : Frame} {m : Machine}

theorem Scene.Plays.sound {earlier : List Scene} (h : first.Plays lib natives earlier s)
    (sound : first.Sound lib) (trustworthy : Trustworthy lib natives) : s.Sound lib := by
  induction h with
  | begin => exact sound
  | step _ proceeds ih => exact proceeds.sound ih trustworthy

/-- The log does not matter. -/
theorem Scene.Shows.traced (h : s.Shows frame m) (other : Frame) :
    s.Shows frame (m.traced other) := by
  refine ⟨h.frame, ?_, ?_, ?_⟩
  · rw [← h.world]
    unfold Machine.traced
    split <;> rfl
  · rw [← h.operands]
    exact congrArg (fun stack : Array Value => stack.toList.reverse) (stack_traced m other)
  · rw [callers_traced, h.callers]

theorem natives_traced (m : Machine) (other : Frame) : (m.traced other).natives = m.natives := by
  unfold traced
  split <;> rfl

theorem Scene.opening_sound {layout : Layout} {p : Part} {world : World}
    (held : lib.holds layout p) (script : p.arity = 0) (globals : world.globals.Trusted lib) :
    (Scene.opening layout p world).Sound lib where
  running := by
    refine ⟨held, rfl, ?_⟩
    rw [show (Scene.opening layout p world).running.shape = p.entry from rfl, Part.entry, Part.view,
      List.length_map, List.length_map, (lib.fine held).slots, script]
    rfl
  noted := (lib.fine held).enters
  base := rfl
  waiting := .nil
  values := by
    intro v mem r same
    obtain rfl : v = .routine (p.routine layout) := by
      simpa [Scene.opening, Scene.stack, stackOf] using mem
    exact ⟨layout, p, held, (Datum.routine.inj same).symm⟩
  globals := globals

theorem Scene.opening_shows (layout : Layout) (p : Part) (m : Machine) :
    (Scene.opening layout p m.world).Shows (m.begin (p.routine layout)).1
      (m.begin (p.routine layout)).2 :=
  ⟨rfl, rfl, rfl, rfl⟩

/-- The states of a run are scenes. -/
theorem Reaches.plays {begun : Frame} {start : Machine} {count : Nat}
    (reached : Reaches begun start count frame m) (sound : first.Sound lib)
    (shows : first.Shows begun start) (trustworthy : Trustworthy lib start.natives) :
    ∃ earlier s, first.Plays lib start.natives earlier s ∧ earlier.length = count ∧
      s.Shows frame m ∧ m.natives = start.natives := by
  induction reached with
  | refl => exact ⟨[], first, .begin, rfl, shows, rfl⟩
  | @step count frame next m m' before ran ih =>
      obtain ⟨earlier, s, plays, length, shows, same⟩ := ih
      have reacts := step_reacts (plays.sound sound trustworthy) (shows.traced frame)
      rw [ran, natives_traced, same] at reacts
      cases reacts with
      | @goesOn s' _ _ proceeds after kept =>
          exact ⟨s :: earlier, s', .step plays proceeds, by rw [List.length_cons, length], after, kept⟩

end

/-- A machine on which compiled code can be trusted: what functions there are come from
accepted sources. -/
structure Hosts (lib : Library) (m : Machine) : Prop where
  globals : m.globals.Trusted lib
  natives : Trustworthy lib m.natives

/-- A state of a run of a part of a program is a sound scene. -/
theorem Hosts.scene {lib : Library} {layout : Layout} {p : Part} {m₀ m : Machine} {frame : Frame}
    {count : Nat} (hosts : Hosts lib m₀) (held : lib.holds layout p) (script : p.arity = 0)
    (reached : Reaches (m₀.begin (p.routine layout)).1 (m₀.begin (p.routine layout)).2 count frame m) :
    ∃ s : Scene, s.Sound lib ∧ s.Shows frame m ∧ m.natives = m₀.natives := by
  have sound : (Scene.opening layout p m₀.world).Sound lib :=
    Scene.opening_sound held script hosts.globals
  obtain ⟨earlier, s, plays, -, shows, same⟩ :=
    reached.plays sound (Scene.opening_shows layout p m₀) hosts.natives
  exact ⟨s, plays.sound sound hosts.natives, shows, same⟩

/-- A compiled script is the routine of a part without parameters. -/
theorem script_of_compiled {source : String} {heap : Heap} {script : Routine}
    (ok : (StackScript.compile source heap).result = .ok script) :
    ∃ layout p, Library.compiled.holds layout p ∧ p.arity = 0 ∧ script = p.routine layout := by
  obtain ⟨layout, ts, e, ends, s, -, -, -, fine, rfl⟩ := Compiler.script_of_ok ok
  exact ⟨layout, _, ⟨fine, source, heap, _, ok, .self⟩, rfl, rfl⟩

/-! ## Faults -/

/-- What stops a compiled script is a fault of the language, for which the code is not to
be blamed. -/
theorem run_faults_of_language {source : String} {heap : Heap} {script : Routine}
    (ok : (StackScript.compile source heap).result = .ok script) {m m' : Machine}
    (hosts : Hosts Library.compiled m) {limit : Nat} {error : RuntimeError}
    (ran : m.run limit script = (.failed error, m')) : error.fault.ofLanguage = true := by
  obtain ⟨layout, p, held, arity, rfl⟩ := script_of_compiled ok
  obtain ⟨halt, after, halting, concluded⟩ := halts_run ran
  cases halting with
  | unfinished => cases concluded
  | @faulted count frame before after fault reached below step =>
      obtain ⟨s, sound, shows, -⟩ := hosts.scene held arity reached
      cases concluded
      have reacts := step_reacts sound (shows.traced frame)
      rw [step] at reacts
      cases reacts with
      | fails _ language => exact language
      | refuses => rfl
  | @finished count frame before after reached below step =>
      -- Only flushing the output can fail now.
      cases concluded
      rfl

/-- A machine without globals and host functions. -/
theorem hosts_start (lib : Library) (config : MachineConfig) (loader : ModuleLoader) :
    Hosts lib (.start config loader) where
  globals name g there := by simp [start] at there
  natives f mem := by simp [start] at mem

/-- A script that calls what cannot be called. -/
theorem run_faults_of_language_sample :
    let m : Machine := .start .standard fun _ => none
    ∃ script error, (StackScript.compile "null();" .empty).result = .ok script ∧
      Hosts Library.compiled m ∧ (m.run 3 script).1 = .failed error ∧
        error.fault = .notCallable ∧ error.fault.ofLanguage = true := by
  intro m
  have computed : ((StackScript.compile "null();" .empty).result.toOption.any fun script =>
      (m.run 3 script).1 = .failed ⟨1, .notCallable, [⟨1, none⟩]⟩) = true := by
    decide +kernel
  cases ok : (StackScript.compile "null();" .empty).result with
  | error errors =>
      rw [ok] at computed
      cases computed
  | ok script =>
      rw [ok] at computed
      have hosts : Hosts Library.compiled m := hosts_start _ _ _
      have failed := of_decide_eq_true computed
      exact ⟨script, _, rfl, hosts, failed, rfl,
        run_faults_of_language ok hosts (Prod.ext failed rfl)⟩

/-! ## Calls -/

/-- A number of instructions is executed, and all the while there are more suspended calls
than `depth`. -/
inductive Meanwhile (depth : Nat) (first : Frame) (start : Machine) : Frame → Machine → Prop where
  | begin : Meanwhile depth first start first start
  | step {frame next : Frame} {m m' : Machine} (before : Meanwhile depth first start frame m)
      (ran : Machine.step frame (m.traced frame) = .ok (.running next) m')
      (deeper : depth < m'.callers.size) : Meanwhile depth first start next m'

section Calls

variable {lib : Library} {s : Scene} {frame next : Frame} {m m' : Machine}

theorem Scene.Shows.size (h : s.Shows frame m) : m.callers.size = s.waiting.length := by
  have length := congrArg List.length h.callers
  simpa using length

theorem Scene.Shows.stack (h : s.Shows frame m) : m.stack = s.stack.reverse.toArray := by
  have operands := h.operands
  rw [← operands]
  simp [Machine.operands]

/-- A step of compiled code, as a step of scenes. -/
theorem Scene.Shows.step (shows : s.Shows frame m) (sound : s.Sound lib)
    (trustworthy : Trustworthy lib m.natives)
    (ran : Machine.step frame (m.traced frame) = .ok (.running next) m') :
    ∃ s', s.Proceeds lib m.natives s' ∧ s'.Sound lib ∧ s'.Shows next m' ∧
      m'.natives = m.natives := by
  have reacts := step_reacts sound (shows.traced frame)
  rw [ran, natives_traced] at reacts
  cases reacts with
  | @goesOn s' _ _ proceeds after kept =>
      exact ⟨s', proceeds, proceeds.sound sound trustworthy, after, kept⟩

/-- While some calls wait below, instructions do not touch them. -/
theorem Meanwhile.scene {caller : Active} {others : List Active} (h : Meanwhile others.length frame m next m')
    (sound : s.Sound lib) (shows : s.Shows frame m) (waits : s.waiting = caller :: others)
    (trustworthy : Trustworthy lib m.natives) :
    ∃ (s' : Scene) (front : List Active), s'.Sound lib ∧ s'.Shows next m' ∧ s'.waiting = front ++ caller :: others ∧
      m'.natives = m.natives := by
  induction h with
  | begin => exact ⟨s, [], sound, shows, waits, rfl⟩
  | @step frame' next m₁ m₂ before ran deeper ih =>
      obtain ⟨s₁, front, sound, shows, below, same⟩ := ih
      obtain ⟨s₂, proceeds, sound', shows', kept⟩ := shows.step sound (same ▸ trustworthy) ran
      rw [shows'.size] at deeper
      refine ⟨s₂, ?_⟩
      cases proceeds with
      | works => exact ⟨front, sound', shows', below, kept.trans same⟩
      | hosts => exact ⟨front, sound', shows', below, kept.trans same⟩
      | enters => exact ⟨_ :: front, sound', shows', congrArg _ below, kept.trans same⟩
      | @leaves _ _ _ _ _ _ rest _ _ _ _ top =>
          -- The innermost call is not the one below, for then too few would be left.
          cases front with
          | nil =>
              rw [below] at top
              cases top
              simp at deeper
          | cons first front =>
              rw [below] at top
              cases top
              exact ⟨front, sound', shows', rfl, kept.trans same⟩

theorem size_of_enters {r : Routine} (enters : m.event frame = .enters r)
    (ran : step frame (m.traced frame) = .ok (.running next) m') :
    m'.callers.size = m.callers.size + 1 := by
  have stepped := stepped frame (m.traced frame)
  rw [ran] at stepped
  cases stepped with
  | stays event | resumes event =>
      rw [event_traced, enters] at event
      cases event
  | enters => simp

theorem size_of_leaves (leaves : m.event frame = .leaves)
    (ran : step frame (m.traced frame) = .ok (.running next) m') :
    m'.callers.size = m.callers.size - 1 := by
  have stepped := stepped frame (m.traced frame)
  rw [ran] at stepped
  cases stepped with
  | stays event | enters event =>
      rw [event_traced, leaves] at event
      cases event
  | resumes _ _ _ _ callers => simp [callers]

theorem size_of_stays (stays : m.event frame = .stays)
    (ran : step frame (m.traced frame) = .ok (.running next) m') :
    m'.callers.size = m.callers.size := by
  have stepped := stepped frame (m.traced frame)
  rw [ran] at stepped
  cases stepped with
  | stays _ _ within => simp [within.callers]
  | enters event | resumes event =>
      rw [event_traced, stays] at event
      cases event

/-- Whether a call enters a routine depends on the callee. -/
theorem event_of_call {count behind : Nat} {callee : Value} {arguments kept : List Value}
    (code : frame.routine.chunk.decode frame.ip = .ok ⟨.call, count, behind⟩)
    (count_eq : arguments.length = count)
    (stack : m.stack = (arguments.reverse ++ callee :: kept).reverse.toArray) :
    m.event frame = match callee.datum with
      | .routine r => .enters r
      | _ => .stays := by
  have there : m.stack[m.stack.size - (count + 1)]? = some callee := by
    subst count_eq
    simp [stack]
  simp only [event, code, there, Option.map_some]
  cases callee.datum <;> rfl

/-- What a call makes of a machine: callee and arguments are replaced by a result, and
everything below stays as it is. -/
structure Replaces (before : Machine) (callee : Value) (arguments : Array Value) (v : Value)
    (after : Machine) : Prop where
  stack : ∃ below : Array Value, before.stack = below.push callee ++ arguments ∧
    after.stack = below.push v
  callers : after.callers = before.callers

/-- A scene in which a result has replaced callee and arguments. -/
theorem Scene.Shows.replaces {s' : Scene} {callee v : Value} {arguments kept : List Value}
    (before : s.Shows frame m) (after : s'.Shows next m')
    (values : s.running.values = arguments.reverse ++ callee :: kept)
    (result : s'.running.values = v :: kept) (waits : s'.waiting = s.waiting) :
    Replaces m callee arguments.toArray v m' := by
  refine ⟨⟨(kept ++ stackOf s.waiting).reverse.toArray, ?_, ?_⟩, ?_⟩
  · rw [before.stack, Scene.stack, values]
    simp
  · rw [after.stack, Scene.stack, result, waits]
    simp
  · have callers := after.callers.trans ((congrArg _ waits).trans before.callers.symm)
    exact Array.toList_inj.mp (List.reverse_injective callers)

variable (sound : s.Sound lib) (shows : s.Shows frame m) (trustworthy : Trustworthy lib m.natives)

include sound shows trustworthy

/-- A call of a routine, until it returns. -/
theorem routineCall_replaces {r : Routine} {first last : Frame} {m₁ m₂ m₃ : Machine}
    (enters : m.event frame = .enters r)
    (called : step frame (m.traced frame) = .ok (.running first) m₁)
    (meanwhile : Meanwhile m.callers.size first m₁ last m₂)
    (depth : m₂.callers.size = m.callers.size + 1) (leaves : m₂.event last = .leaves)
    (left : step last (m₂.traced last) = .ok (.running next) m₃) :
    ∃ callee arguments v behind, Replaces m callee arguments v m₃ ∧
      callee.datum = .routine r ∧ arguments.size = r.arity ∧ m₂.stack.back? = some v ∧
        frame.routine.chunk.decode frame.ip = .ok ⟨.call, r.arity, behind⟩ ∧
          next = { frame.atNext with ip := behind } := by
  obtain ⟨s₁, proceeds, sound₁, shows₁, kept₁⟩ := shows.step sound trustworthy called
  have size₁ := size_of_enters enters called
  rw [shows.size, shows₁.size] at size₁
  obtain rfl : frame = s.running.frame := shows.frame
  cases proceeds with
  | works => simp at size₁
  | hosts => simp at size₁
  | leaves _ _ _ _ waits =>
      simp only [waits, List.length_cons] at size₁
      omega
  | @enters note rest behind callee arguments kept layout part here silent code top values callable
      held arity leads =>
      -- The routine called is the one that the event says.
      have stack : m.stack =
          (arguments.reverse ++ callee :: (kept ++ stackOf s.waiting)).reverse.toArray := by
        rw [shows.stack, Scene.stack, values, List.append_assoc, List.cons_append]
      have event := event_of_call code rfl stack
      rw [enters, callable] at event
      obtain rfl := Event.enters.inj event
      rw [shows.size] at meanwhile
      obtain ⟨s₂, front, sound₂, shows₂, waits, kept₂⟩ :=
        meanwhile.scene sound₁ shows₁ rfl (kept₁ ▸ trustworthy)
      obtain rfl : front = [] := by
        rw [shows₂.size, shows.size, waits] at depth
        simpa using depth
      have same : m₂.natives = m.natives := kept₂.trans kept₁
      obtain ⟨s₃, proceeds₃, -, shows₃, -⟩ := shows₂.step sound₂ (same ▸ trustworthy) left
      have size₃ := size_of_leaves leaves left
      rw [shows₂.size, shows₃.size, waits] at size₃
      cases proceeds₃ with
      | works | hosts => simp [waits] at size₃
      | enters =>
          simp only [waits, List.nil_append, List.length_cons] at size₃
          omega
      | @leaves _ next' _ v vs _ _ _ _ _ values₂ waits₂ =>
          rw [waits] at waits₂
          cases waits₂
          refine ⟨callee, arguments.toArray, v, behind, shows.replaces shows₃ values rfl rfl,
            callable, ?_, ?_, ?_, shows₃.frame⟩
          · rw [List.size_toArray, arity]
            rfl
          · rw [shows₂.stack, Scene.stack, values₂]
            simp
          · rw [code, arity]
            rfl

/-- A call of a function of the host. -/
theorem nativeCall_replaces {count behind : Nat}
    (code : frame.routine.chunk.decode frame.ip = .ok ⟨.call, count, behind⟩)
    (stays : m.event frame = .stays)
    (called : step frame (m.traced frame) = .ok (.running next) m') :
    ∃ callee arguments v n f, Replaces m callee arguments v m' ∧
      callee.datum = .native n ∧ arguments.size = count ∧ m.natives[n.id]? = some f ∧
        f ⟨m.globals, m.stack⟩ arguments m.sink = .ok v m'.sink ∧
          next = { frame.atNext with ip := behind } := by
  obtain ⟨s₁, proceeds, sound₁, shows₁, kept⟩ := shows.step sound trustworthy called
  have size₁ := size_of_stays stays called
  rw [shows.size, shows₁.size] at size₁
  obtain rfl : frame = s.running.frame := shows.frame
  cases proceeds with
  | works _ other notCall =>
      rw [code] at other
      cases other
      exact absurd rfl notCall
  | enters => simp at size₁
  | leaves _ _ _ _ waits => simp [waits] at size₁
  | @hosts note next' rest pc callee v arguments kept n f sink here silent code' top values callable
      known returned there becomes =>
      rw [code] at code'
      cases code'
      have sinks : m'.sink = sink := congrArg World.sink shows₁.world
      rw [← shows.stack, ← shows.world, ← sinks] at returned
      exact ⟨callee, arguments.toArray, v, n, f, shows.replaces shows₁ values rfl rfl, callable,
        rfl, known, returned, shows₁.frame⟩

end Calls

/-- A call leaves alone what lies below it, whether it is of a compiled function, which may
call others before it returns, or of a function of the host. -/
theorem calls_replace_callee {source : String} {heap : Heap} {script : Routine}
    (ok : (StackScript.compile source heap).result = .ok script) {m₀ m : Machine}
    (hosts : Hosts Library.compiled m₀) {count : Nat} {frame : Frame}
    (reached : Reaches (m₀.begin script).1 (m₀.begin script).2 count frame m) :
    (∀ {r : Routine} {first last next : Frame} {m₁ m₂ m₃ : Machine},
      m.event frame = .enters r →
      step frame (m.traced frame) = .ok (.running first) m₁ →
      Meanwhile m.callers.size first m₁ last m₂ → m₂.callers.size = m.callers.size + 1 →
      m₂.event last = .leaves → step last (m₂.traced last) = .ok (.running next) m₃ →
      ∃ callee arguments v behind, Replaces m callee arguments v m₃ ∧
        callee.datum = .routine r ∧ arguments.size = r.arity ∧ m₂.stack.back? = some v ∧
          frame.routine.chunk.decode frame.ip = .ok ⟨.call, r.arity, behind⟩ ∧
            next = { frame.atNext with ip := behind }) ∧
    (∀ {next : Frame} {m₁ : Machine} {arity behind : Nat},
      frame.routine.chunk.decode frame.ip = .ok ⟨.call, arity, behind⟩ → m.event frame = .stays →
      step frame (m.traced frame) = .ok (.running next) m₁ →
      ∃ callee arguments v n f, Replaces m callee arguments v m₁ ∧
        callee.datum = .native n ∧ arguments.size = arity ∧ m.natives[n.id]? = some f ∧
          f ⟨m.globals, m.stack⟩ arguments m.sink = .ok v m₁.sink ∧
            next = { frame.atNext with ip := behind }) := by
  obtain ⟨layout, p, held, script, rfl⟩ := script_of_compiled ok
  obtain ⟨s, sound, shows, natives⟩ := hosts.scene held script reached
  have trustworthy : Trustworthy Library.compiled m.natives := natives ▸ hosts.natives
  constructor
  · intro r first last next m₁ m₂ m₃ enters called meanwhile depth leaves left
    exact routineCall_replaces sound shows trustworthy enters called meanwhile depth leaves left
  · intro next m₁ arity behind code stays called
    exact nativeCall_replaces sound shows trustworthy code stays called

/-- The routine that an event enters, if it does. -/
def Event.routine? : Event → Option Routine
  | .enters r => some r
  | _ => none

/-- Whether an event is the end of a call. -/
def Event.isLeaves : Event → Bool
  | .leaves => true
  | _ => false

/-- The state that a number of instructions lead to, if the run is not over by then. -/
def reached? (count : Nat) (first : Frame) (start : Machine) : Option (Frame × Machine) :=
  match execute count first start with
  | (.unfinished frame, m) => some (frame, m)
  | _ => none

theorem reaches_of_reached? {count : Nat} {first : Frame} {start : Machine} {state : Frame × Machine}
    (h : reached? count first start = some state) : Reaches first start count state.1 state.2 := by
  have halting := halts first start count
  unfold reached? at h
  split at h
  · rename_i ran
    cases h
    rw [ran] at halting
    cases halting with
    | unfinished reached => exact reached
  · cases h

theorem step_of_reached? {first : Frame} {start : Machine} {state : Frame × Machine}
    (h : reached? 1 first start = some state) :
    step first (start.traced first) = .ok (.running state.1) state.2 := by
  cases reaches_of_reached? h with
  | step before ran =>
      cases before with
      | refl => exact ran

theorem exists_of_any {α : Type} {o : Option α} {p : α → Bool} (h : o.any p = true) :
    ∃ a, o = some a ∧ p a = true := by
  cases o with
  | none => cases h
  | some a => exact ⟨a, rfl, h⟩

theorem ok_of_toOption {ε α : Type} {r : Except ε α} {a : α} (h : r.toOption = some a) :
    r = .ok a := by
  cases r with
  | error e => cases h
  | ok b => exact congrArg _ (Option.some.inj h)

/-- A function that gives back its argument. -/
theorem calls_replace_callee_sample :
    let m₀ : Machine := .start .standard fun _ => none
    ∃ script frame m r first last next m₁ m₂ m₃ callee arguments v,
      (StackScript.compile "fn f(x) { return x; } f(null);" .empty).result = .ok script ∧
      Hosts Library.compiled m₀ ∧ Reaches (m₀.begin script).1 (m₀.begin script).2 4 frame m ∧
      m.event frame = .enters r ∧ step frame (m.traced frame) = .ok (.running first) m₁ ∧
      Meanwhile m.callers.size first m₁ last m₂ ∧ m₂.callers.size = m.callers.size + 1 ∧
      m₂.event last = .leaves ∧ step last (m₂.traced last) = .ok (.running next) m₃ ∧
      Replaces m callee arguments v m₃ := by
  intro m₀
  have computed : ((StackScript.compile "fn f(x) { return x; } f(null);" .empty).result.toOption.any
      fun script => (reached? 4 (m₀.begin script).1 (m₀.begin script).2).any fun a =>
        (a.2.event a.1).routine?.isSome && (reached? 1 a.1 a.2).any fun b =>
          (reached? 1 b.1 b.2).any fun c => (c.2.event c.1).isLeaves &&
            decide (c.2.callers.size = a.2.callers.size + 1) && (reached? 1 c.1 c.2).isSome) = true := by
    decide +kernel
  obtain ⟨script, compiled, computed⟩ := exists_of_any computed
  obtain ⟨⟨frame, m⟩, reached, computed⟩ := exists_of_any computed
  rw [Bool.and_eq_true] at computed
  obtain ⟨enters, computed⟩ := computed
  obtain ⟨⟨first, m₁⟩, called, computed⟩ := exists_of_any computed
  obtain ⟨⟨last, m₂⟩, onward, computed⟩ := exists_of_any computed
  simp only [Bool.and_eq_true, decide_eq_true_eq] at computed
  obtain ⟨⟨leaves, depth⟩, left⟩ := computed
  obtain ⟨⟨next, m₃⟩, left⟩ := Option.isSome_iff_exists.mp left
  replace reached : Reaches (m₀.begin script).1 (m₀.begin script).2 4 frame m :=
    reaches_of_reached? reached
  replace called : step frame (m.traced frame) = .ok (.running first) m₁ := step_of_reached? called
  replace onward : step first (m₁.traced first) = .ok (.running last) m₂ := step_of_reached? onward
  replace left : step last (m₂.traced last) = .ok (.running next) m₃ := step_of_reached? left
  have ok : (StackScript.compile "fn f(x) { return x; } f(null);" .empty).result = .ok script := by
    cases result : (StackScript.compile "fn f(x) { return x; } f(null);" .empty).result with
    | error errors =>
        rw [result] at compiled
        cases compiled
    | ok script' =>
        rw [result] at compiled
        cases compiled
        rfl
  have hosts : Hosts Library.compiled m₀ := hosts_start _ _ _
  have meanwhile : Meanwhile m.callers.size first m₁ last m₂ := .step .begin onward (by omega)
  dsimp only at enters leaves
  cases event : m.event frame with
  | leaves | stays =>
      rw [event] at enters
      cases enters
  | enters r =>
      have returns : m₂.event last = .leaves := by
        cases event : m₂.event last with
        | leaves => rfl
        | enters | stays =>
            rw [event] at leaves
            cases leaves
      obtain ⟨callee, arguments, v, behind, replaces, -⟩ :=
        (calls_replace_callee ok hosts reached).1 event called meanwhile depth returns left
      exact ⟨script, frame, m, r, first, last, next, m₁, m₂, m₃, callee, arguments, v, ok, hosts,
        reached, event, called, meanwhile, depth, returns, left, replaces⟩

end Machine
end StackScript
