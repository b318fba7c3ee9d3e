import StackScript.Proofs.Machine.Guarded
import StackScript.Proofs.Machine.Histories
import StackScript.Proofs.Machine.Modules
import StackScript.Proofs.Machine.Trace
import StackScript.Proofs.Recognition.Declared
import StackScript.Proofs.Recognition.Lines

/-!
# What a runtime error tells of its source

A runtime error names lines and functions.  The lines come from the line tables of compiled
code, so they are lines of tokens.  The functions are those that are active: a script is
called by nobody, since the only value that holds it is at the bottom of its own stack, where
no identifier leads; all other active routines are functions that the source declares
(`error_points_into_source`).
-/

namespace StackScript

/-- The functions that a script can get hold of.  The script itself is not one of them. -/
def Library.functions (script : Routine) : Library where
  holds layout p := p.Fine layout ∧ ∃ r v, script.Within r ∧ v ∈ r.chunk.constants ∧
    v.datum = .routine (p.routine layout)
  fine h := h.1
  closed h v mem r same := by
    obtain ⟨fine, outer, w, within, there, holds⟩ := h
    obtain ⟨q, declared, rfl⟩ := fine.inner_of_constant mem same
    exact ⟨_, q, ⟨fine.inner declared, _, v, .constant within there holds, mem, same⟩, rfl⟩

/-- The routine is a function that a script can get hold of. -/
def Routine.FunctionOf (script r : Routine) : Prop := r.OneOf (Library.functions script).holds

theorem Routine.FunctionOf.within {script r : Routine} (h : script.FunctionOf r) :
    script.Within r := by
  obtain ⟨layout, p, ⟨-, outer, v, within, mem, same⟩, rfl⟩ := h
  exact .constant within mem same

/-- A function of a compiled source is declared there. -/
theorem Routine.FunctionOf.declared {source : String} {heap : Heap} {script r : Routine}
    (h : script.FunctionOf r) (valid : heap.Valid) (ok : (compile source heap).result = .ok script) :
    ∃ text, r.name = some text ∧ Token.Declares (Token.scan source) text.chars := by
  obtain ⟨layout, p, ⟨-, outer, v, within, mem, same⟩, rfl⟩ := h
  exact Compiler.declared_of_constant valid ok within mem same

/-- A routine among the constants of a routine of a script is one of its functions. -/
theorem Part.Fine.trusted_constants {script : Routine} {layout : Layout} {p : Part}
    (fine : p.Fine layout) (within : script.Within (p.routine layout)) :
    ∀ v ∈ (p.routine layout).chunk.constants, v.Trusted (.functions script) := by
  intro v mem q holds
  obtain ⟨part, declared, rfl⟩ := fine.inner_of_constant mem holds
  exact ⟨layout, part, ⟨fine.inner declared, _, v, within, mem, holds⟩, rfl⟩

namespace Library

/-- The functions of the standard modules give back no functions. -/
theorem handsBack_modules : ∀ found ∈ modules, ∀ symbol ∈ found.symbols, symbol.function.HandsBack := by
  intro found mem symbol there context arguments sink v sink' returned r same
  obtain ⟨w, plain, returns⟩ := returns_modules found mem symbol there
  obtain rfl := returns context arguments sink v sink' returned
  rcases plain with rfl | rfl <;> cases same

end Library

namespace Machine

/-! ## Traces -/

/-- A trace as a source explains it: the lines are lines of its tokens, the outermost call is
that of the script, and the others are of functions that it declares. -/
structure Explained (source : String) (trace : List TraceEntry) : Prop where
  lines : ∀ entry ∈ trace, Token.OnLine source entry.line
  calls : ∃ calls last, trace = calls ++ [last] ∧ last.routine = none ∧
    ∀ entry ∈ calls, ∃ name, entry.routine = some name ∧ Token.Declares (Token.scan source) name

/-- The active routines are those that the script can get hold of. -/
theorem Scene.Guarded.within {script : Routine} {s : Scene} (h : s.Guarded (.functions script) script) :
    ∀ r ∈ s.routines, script.Within r := by
  obtain ⟨called, same, functions⟩ := h.routines
  rw [same, List.forall_mem_append, List.forall_mem_singleton]
  exact ⟨fun r mem => Routine.FunctionOf.within (functions r mem), .self⟩

theorem Scene.Guarded.explained {source : String} {heap : Heap} {script : Routine} {s : Scene}
    {frame : Frame} {m : Machine} (h : s.Guarded (.functions script) script) (valid : heap.Valid)
    (ok : (StackScript.compile source heap).result = .ok script) (shows : s.Shows frame m) :
    Explained source ((frame.atNext :: m.callers.toList.reverse).map Frame.traceEntry) := by
  have routines : (frame.atNext :: m.callers.toList.reverse).map Frame.routine = s.routines := by
    rw [shows.callers, shows.frame, Scene.routines, List.map_cons, List.map_cons, List.map_map]
    rfl
  generalize frame.atNext :: m.callers.toList.reverse = frames at routines
  constructor
  · intro entry mem
    obtain ⟨f, inside, rfl⟩ := List.mem_map.mp mem
    have within := h.within f.routine (routines ▸ List.mem_map_of_mem inside)
    exact Compiler.onLine_lineAt ok within f.opStart
  · obtain ⟨called, same, functions⟩ := h.routines
    rw [← routines] at same
    obtain ⟨inner, outer, rfl, calls, alone⟩ := List.map_eq_append_iff.mp same
    obtain ⟨root, rfl, begun⟩ := List.map_eq_singleton_iff.mp alone
    refine ⟨inner.map Frame.traceEntry, root.traceEntry, List.map_append, ?_, fun entry mem => ?_⟩
    · obtain ⟨layout, ts, e, ends, tree, -, -, -, -, rfl⟩ := Compiler.script_of_ok ok
      rw [Frame.traceEntry, begun]
      rfl
    · obtain ⟨f, inside, rfl⟩ := List.mem_map.mp mem
      obtain ⟨text, name, declared⟩ :=
        Routine.FunctionOf.declared (functions f.routine (calls ▸ List.mem_map_of_mem inside)) valid ok
      exact ⟨text.chars, by rw [Frame.traceEntry, name]; rfl, declared⟩

/-! ## Failures -/

/-- A failed run stops in one of its states.  The suspended calls are still there, except that a
result without room has left its call already. -/
theorem failed_after {limit : Nat} {script : Routine} {m m' : Machine} {error : RuntimeError}
    (ran : m.run limit script = (.failed error, m')) :
    ∃ count frame before after, Reaches (m.begin script).1 (m.begin script).2 count frame before ∧
      error = runtimeError after frame.atNext error.fault ∧
        (after.callers = before.callers ∨
          before.stack.size ≤ 1 ∧ after.callers = before.callers.pop) := by
  obtain ⟨halt, after, halting, concluded⟩ := halts_run ran
  cases halting with
  | unfinished => cases concluded
  | @faulted count frame before after fault reached below step =>
      cases concluded
      refine ⟨count, frame, before, after, reached, rfl, ?_⟩
      have bounded := (reached.bounded (bounded_begin script m)).traced frame
      have stepped := stepped frame (before.traced frame)
      rw [step] at stepped
      cases stepped with
      | faults within => exact .inl (within.callers.trans (callers_traced before frame))
      | overflows _ callers kept full =>
          have small := bounded.stack
          rw [bounded.config] at full
          rw [stack_traced] at small kept
          rw [callers_traced] at callers
          exact .inr ⟨by omega, callers⟩
  -- a run that ends can still fail while its output is flushed
  | @finished count frame before after reached below step =>
      have stepped := stepped frame (before.traced frame)
      rw [step] at stepped
      cases concluded
      cases stepped with
      | finishes => exact ⟨count, frame, before, _, reached, rfl, .inl (callers_traced before frame)⟩

/-- A source that ends with a runtime error has been compiled and run. -/
theorem interpret_failed {limit : Nat} {source : String} {m m' : Machine} {error : RuntimeError}
    (ran : m.interpret limit source = (.ok (.failed error), m')) :
    ∃ script log, (StackScript.compile source m.heap).result = .ok script ∧
      Machine.run limit script { m with heap := (StackScript.compile source m.heap).heap, log } =
        (.failed error, m') := by
  obtain ⟨log, same⟩ := m.compile_eq source
  unfold interpret at ran
  rw [same] at ran
  cases ok : (StackScript.compile source m.heap).result with
  | error errors =>
      rw [ok] at ran
      cases ran
  | ok script =>
      rw [ok] at ran
      have outcome := Except.ok.inj (congrArg Prod.fst ran)
      have final := congrArg Prod.snd ran
      exact ⟨script, log, rfl, Prod.ext outcome final⟩

/-- In a machine without functions that were there before, the trace of a runtime error is
explained by the source. -/
theorem explained_of_failed {limit : Nat} {source : String} {heap : Heap} {script : Routine}
    {m m' : Machine} {error : RuntimeError} (valid : heap.Valid)
    (ok : (StackScript.compile source heap).result = .ok script)
    (ran : m.run limit script = (.failed error, m'))
    (handsBack : ∀ f ∈ m.natives, f.HandsBack)
    (fresh : ∀ (lib : Library), m.globals.Trusted lib) : Explained source error.trace := by
  obtain ⟨count, frame, before, after, reached, same, calls⟩ := failed_after ran
  obtain ⟨layout, ts, e, ends, tree, tokens, last, written, fine, rfl⟩ := Compiler.script_of_ok ok
  have held : Library.written.holds layout (Part.script tree heap) :=
    ⟨source, heap, tree, valid, ⟨ts, e, ends, tokens, last, written⟩, fine, ok, .self⟩
  have trustworthy : Trustworthy .written m.natives := trustworthy_of_handsBack handsBack
  have sound : (Scene.opening layout (Part.script tree heap) m.world).Sound .written :=
    Scene.opening_sound held rfl (fresh _)
  obtain ⟨past, s, plays, -, shows, -⟩ :=
    reached.plays sound (Scene.opening_shows layout _ m) trustworthy
  have guarded := plays.guarded sound trustworthy handsBack (fine.trusted_constants .self)
    (Scene.opening_guarded layout _ (fresh _))
  have callers : after.callers = before.callers := by
    rcases calls with same | ⟨small, popped⟩
    · exact same
    · -- A single value is that of the script, which has no caller.
      rw [shows.stack, List.size_toArray, List.length_reverse] at small
      have none := shows.callers
      rw [guarded.alone small, List.map_nil, List.reverse_eq_nil_iff, Array.toList_eq_nil_iff] at none
      rw [popped, none]
      rfl
  have trace : error.trace = (frame.atNext :: before.callers.toList.reverse).map Frame.traceEntry := by
    rw [same, ← callers]
    rfl
  rw [trace]
  exact guarded.explained valid ok shows

/-- The error is at the line of the innermost call. -/
theorem line_of_failed {limit : Nat} {script : Routine} {m m' : Machine} {error : RuntimeError}
    (ran : m.run limit script = (.failed error, m')) : ∃ entry ∈ error.trace, entry.line = error.line := by
  obtain ⟨count, frame, before, after, -, same, -⟩ := failed_after ran
  rw [same]
  exact ⟨frame.atNext.traceEntry, List.mem_cons_self .., rfl⟩

/-- A machine as it is created, with any limits, modules, output and log. -/
structure New (m : Machine) : Prop where
  heap : m.heap = .empty
  globals : m.globals = ∅
  natives : m.natives = #[]

theorem new_start (config : MachineConfig) (loader : ModuleLoader) : (start config loader).New :=
  ⟨rfl, rfl, rfl⟩

/-- What a runtime error says is about the source: all its lines are lines of tokens of the
source, the last entry of its trace is the script, and the others are functions that the source
declares. -/
def PointsInto (source : String) (error : RuntimeError) : Prop :=
  (∀ line ∈ error.line :: error.trace.map TraceEntry.line, Token.OnLine source line ∧
      1 ≤ line ∧ line ≤ source.toList.count '\n' + 1) ∧
    ∃ calls last, error.trace = calls ++ [last] ∧
      last.describe = "[line " ++ toString last.line ++ "] in " ++ "script" ∧
        ∀ entry ∈ calls, ∃ name, Token.Declares (Token.scan source) name ∧
          entry.describe = "[line " ++ toString entry.line ++ "] in " ++ (name ++ "()")

/-- The trace explains the error, whose line is that of an entry. -/
theorem Explained.pointsInto {source : String} {error : RuntimeError}
    (explained : Explained source error.trace) (line : ∃ entry ∈ error.trace, entry.line = error.line) :
    PointsInto source error := by
  constructor
  · have each : ∀ line ∈ error.trace.map TraceEntry.line, Token.OnLine source line := by
      intro line mem
      obtain ⟨entry, there, rfl⟩ := List.mem_map.mp mem
      exact explained.lines entry there
    obtain ⟨first, mem, line⟩ := line
    have here : Token.OnLine source error.line := line ▸ explained.lines first mem
    exact List.forall_mem_cons.mpr ⟨⟨here, here.bounds⟩, fun line mem => ⟨each line mem, (each line mem).bounds⟩⟩
  · obtain ⟨calls, last, trace, outermost, functions⟩ := explained.calls
    refine ⟨calls, last, trace, ?_, fun entry mem => ?_⟩
    · rw [TraceEntry.describe, outermost]
    · obtain ⟨name, routine, declared⟩ := functions entry mem
      exact ⟨name, declared, by rw [TraceEntry.describe, routine]⟩

/-- A new machine knows no functions but the host functions that it imports. -/
theorem New.pointsInto {m m' : Machine} {names : List String} {limit : Nat} {source : String}
    {error : RuntimeError} (new : m.New)
    (handsBack : ∀ (name : String) (found : NativeModule), m.loader name = some found →
      ∀ symbol ∈ found.symbols, symbol.function.HandsBack)
    (ran : (m.importing names).interpret limit source = (.ok (.failed error), m')) :
    PointsInto source error := by
  have imports := imports_importing m names
  obtain ⟨script, log, ok, failed⟩ := interpret_failed ran
  have valid : (m.importing names).heap.Valid := imports.heap (new.heap ▸ Heap.valid_empty)
  -- a new machine has no natives of its own, so all of them come from the loader
  have natives : ∀ f ∈ (m.importing names).natives, f.HandsBack :=
    imports.functions_of_empty new.natives handsBack
  have globals (lib : Library) : (m.importing names).globals.Trusted lib := by
    intro name g there r same
    rcases imports.globals name g there with old | ⟨n, native⟩
    · simp [new.globals] at old
    · rw [native] at same
      cases same
  exact (explained_of_failed valid ok failed natives globals).pointsInto (line_of_failed failed)

/-- What a runtime error says in a new machine with imported modules is about its source: all
its lines are lines of tokens of the source, the last entry of its trace is the script, and the
others are functions that the source declares. -/
theorem error_points_into_source {m m' : Machine} {names : List String} {limit : Nat}
    {source : String} {error : RuntimeError} (new : m.New)
    (handsBack : ∀ (name : String) (found : NativeModule), m.loader name = some found →
      ∀ symbol ∈ found.symbols, symbol.function.HandsBack)
    (ran : (m.importing names).interpret limit source = (.ok (.failed error), m')) :
    (∀ line ∈ error.line :: error.trace.map TraceEntry.line, Token.OnLine source line ∧
        1 ≤ line ∧ line ≤ source.toList.count '\n' + 1) ∧
      ∃ calls last, error.trace = calls ++ [last] ∧
        last.describe = "[line " ++ toString last.line ++ "] in " ++ "script" ∧
          ∀ entry ∈ calls, ∃ name, Token.Declares (Token.scan source) name ∧
            entry.describe = "[line " ++ toString entry.line ++ "] in " ++ (name ++ "()") :=
  new.pointsInto handsBack ran

/-- A function fails in the second line, and is called in the fourth. -/
theorem error_points_into_source_sample :
    let m : Machine := start .standard Library.load
    let source := "fn f() \x7b\nreturn -true;\n\x7d\nprintln(null); f();"
    m.New ∧ ∃ error, ((m.importing ["io"]).interpret 20 source).1 = .ok (.failed error) ∧
      error.trace.map TraceEntry.describe = ["[line 2] in f()", "[line 4] in script"] ∧
      (∀ line ∈ error.line :: error.trace.map TraceEntry.line, Token.OnLine source line ∧
        1 ≤ line ∧ line ≤ source.toList.count '\n' + 1) ∧
      ∃ calls last, error.trace = calls ++ [last] ∧
        last.describe = "[line " ++ toString last.line ++ "] in " ++ "script" ∧
          ∀ entry ∈ calls, ∃ name, Token.Declares (Token.scan source) name ∧
            entry.describe = "[line " ++ toString entry.line ++ "] in " ++ (name ++ "()") := by
  intro m source
  have new : m.New := new_start _ _
  have computed : (((m.importing ["io"]).interpret 20 source).1.toOption.any fun outcome =>
      outcome = .failed ⟨2, .operandMustBeNumber, [⟨2, some "f"⟩, ⟨4, none⟩]⟩) = true := by
    decide +kernel
  obtain ⟨outcome, ended, same⟩ := exists_of_any computed
  obtain rfl := of_decide_eq_true same
  have failed := ok_of_toOption ended
  refine ⟨new, _, failed, by decide +kernel, ?_⟩
  exact error_points_into_source new (Library.forall_load Library.handsBack_modules) (Prod.ext failed rfl)

/-- With the standard modules nothing has to be known of the host functions. -/
theorem New.pointsInto_standard {m m' : Machine} {names : List String} {limit : Nat}
    {source : String} {error : RuntimeError} (new : m.New) (standard : m.loader = Library.load)
    (ran : (m.importing names).interpret limit source = (.ok (.failed error), m')) :
    PointsInto source error :=
  new.pointsInto (standard ▸ Library.forall_load Library.handsBack_modules) ran

end Machine
end StackScript
