import StackScript.Proofs.Machine.Alone
import StackScript.Proofs.Machine.Backtrace
import StackScript.Proofs.Machine.Lookups
import StackScript.Proofs.Machine.Tandem

/-!
# Machines that have only compiled sources

A machine is tame if all the functions that its variables hold were made by compiling sources,
and no host function looks into them.  A machine is tame at the start; it is still tame when
standard modules have been imported (`Tame.importing`) and when sources have been interpreted,
whether they compile or not and however they end (`Tame.interpret`).  Running code that was not
compiled leads out of the tame machines.
-/

namespace StackScript

/-! ## Variables in order -/

theorem Globals.values_eq (globals : Globals) : globals.values = globals.toList.map Prod.snd := by
  have toList : globals.toList = (globals.inner.inner.toListModel).map fun e => (e.1, e.2) :=
    Std.DTreeMap.Internal.Impl.Const.toList_eq_toListModel_map
  have values : globals.values = (globals.inner.inner.toListModel).map (·.2) :=
    Std.DTreeMap.Internal.Impl.values_eq_map_snd
  rw [toList, values, List.map_map]
  rfl

/-- The values are those of the names, in their order. -/
theorem Globals.values_eq_keys (globals : Globals) :
    globals.values = globals.keys.filterMap (globals[·]?) := by
  have found : ∀ e ∈ globals.toList, globals[e.1]? = some e.2 := fun _ mem =>
    globals.mem_toList_iff_getElem?_eq_some.mp mem
  rw [globals.values_eq, ← globals.map_fst_toList_eq_keys]
  generalize globals.toList = entries at found
  induction entries with
  | nil => rfl
  | cons e entries ih =>
      obtain ⟨first, others⟩ := List.forall_mem_cons.mp found
      rw [List.map_cons, List.map_cons, List.filterMap_cons_some first, ih others]

section

variable {pairs : Routine → Routine → Prop} {globals globals' : Globals}

theorem Globals.Like.keys (h : globals.Like pairs globals') : globals.keys = globals'.keys := by
  have bound (name : String) : name ∈ globals.keys ↔ name ∈ globals'.keys := by
    rw [Std.TreeMap.mem_keys, Std.TreeMap.mem_keys, Std.TreeMap.mem_iff_isSome_getElem?,
      Std.TreeMap.mem_iff_isSome_getElem?]
    -- A name is bound on one side if and only if it is on the other.
    have there := h name
    generalize globals[name]? = g at there
    generalize globals'[name]? = g' at there
    cases there <;> rfl
  -- Both lists are in the order of the names, so it is enough that they have the same members.
  refine List.Perm.eq_of_pairwise (fun a b _ _ before after => ?_) globals.ordered_keys
    globals'.ordered_keys ?_
  · have swapped : compare a b = (compare b a).swap := Std.OrientedCmp.eq_swap
    rw [swapped, after] at before
    cases before
  · exact (List.perm_ext_iff_of_nodup globals.nodup_keys globals'.nodup_keys).mpr bound

theorem Globals.Like.values (h : globals.Like pairs globals') :
    List.Forall₂ (Global.Like pairs) globals.values globals'.values := by
  rw [globals.values_eq_keys, globals'.values_eq_keys, ← h.keys]
  generalize globals.keys = names
  induction names with
  | nil => exact .nil
  | cons name names ih =>
      have there := h name
      rw [List.filterMap_cons, List.filterMap_cons]
      generalize globals[name]? = g at there
      generalize globals'[name]? = g' at there
      cases there with
      | none => exact ih
      | some like => exact .cons like ih

end

/-! ## Host functions -/

section

variable {pairs : Routine → Routine → Prop}

theorem Value.Like.refl {v : Value} (h : ∀ r, v.datum = .routine r → pairs r r) : v.Like pairs v := by
  obtain ⟨datum, assignable⟩ := v
  refine ⟨?_, rfl⟩
  cases datum with
  | null => exact .null
  | bool b => exact .bool b
  | number x => exact .number x
  | string t => exact .string rfl
  | routine r => exact .routine (h r rfl)
  | native n => exact .native rfl rfl

theorem Globals.Like.refl {globals : Globals} (h : ∀ (name : String) (g : Global) (r : Routine),
    globals[name]? = some g → g.value.datum = .routine r → pairs r r) : globals.Like pairs globals := by
  intro name
  cases there : globals[name]? with
  | none => exact .none
  | some g => exact .some ⟨rfl, .refl fun r => h name g r there⟩

end

/-- A host function that does not look into routines makes none. -/
theorem NativeFunction.Uniform.handsBack {f : NativeFunction} (h : f.Uniform) : f.HandsBack := by
  intro context arguments sink v sink' returned r same
  -- Only what is handed to the function is paired, with itself.
  let pairs (a b : Routine) : Prop := a = b ∧ ((∃ w ∈ arguments, w.datum = .routine a) ∨
    ∃ (name : String) (g : Global), context.globals[name]? = some g ∧ g.value.datum = .routine a)
  have respectful : Respectful pairs := by
    refine ⟨?_, ?_, ?_⟩
    · rintro a b ⟨rfl, -⟩
      rfl
    · rintro a b ⟨rfl, -⟩
      rfl
    · rintro a b c d ⟨rfl, -⟩ ⟨rfl, -⟩
      exact .rfl
  have answers := h pairs context context arguments arguments sink respectful
    (.refl fun name g a there holds => ⟨rfl, .inr ⟨name, g, there, holds⟩⟩)
    (List.forall₂_same.mpr fun w _ => .refl fun a _ => ⟨rfl, rfl⟩)
    (List.forall₂_same.mpr fun w mem => .refl fun a holds => ⟨rfl, .inl ⟨w, by simpa using mem, holds⟩⟩)
  rw [returned] at answers
  cases answers with
  | ok result =>
      obtain ⟨datum, assignable⟩ := v
      obtain rfl : datum = .routine r := same
      cases result.datum with
      | routine paired => exact paired.2

namespace Library

end Library

/-! ## Compiling -/

namespace Compiler

variable {count : Nat} {c c' : Compiler} {reading : Bool}

/-- Strings are entered in order, and identities are given out once. -/
theorem Act.heap (act : Act reading c c') (h : c.heap.Valid ∧ count ≤ c.heap.routines) :
    c'.heap.Valid ∧ count ≤ c'.heap.routines := by
  cases act with
  | read => rwa [advance_heap]
  | complain | report => rwa [reportAt_heap]
  | giveUp | recover | constant | work | beginRoutine => exact h
  | intern _ chars => exact ⟨h.1.intern chars, h.2⟩
  | endRoutine =>
      rw [endRoutine_eq]
      exact ⟨h.1, Nat.le_succ_of_le h.2⟩

/-- Compiling keeps the strings in order and takes no identity back, also after errors. -/
theorem heap_compile (source : String) {heap : Heap} (valid : heap.Valid) :
    (compile source heap).heap.Valid ∧ heap.routines ≤ (compile source heap).heap.routines := by
  have whole : Acts true (start (Token.scan source) heap) (closing source heap).endRoutine.2 :=
    ((acts_advance _).trans (acts_closing source heap)).trans (acts_endRoutine _)
  rw [compile_eq]
  exact whole.preserve Act.heap ⟨valid, Nat.le_refl _⟩

end Compiler

namespace Machine

/-- A machine whose functions were made before by compiling sources, and whose host functions
neither look into them nor take one from the stack. -/
structure Tame (m : Machine) : Prop where
  heap : m.heap.Valid
  globals : m.globals.Trusted (.before m.heap.routines)
  natives : ∀ f ∈ m.natives, f.Uniform

/-- A source is compiled as the tree that it writes. -/
structure Compiles (m : Machine) (source : String) (s : Statement) (layout : Layout) (m' : Machine) : Prop where
  compile : m.compile source = (.ok ((Part.script s m.heap).routine layout), m')
  written : (Part.script s m.heap).Written layout
  heap : m'.heap.Valid
  routines : m'.heap.routines = ((Part.script s m.heap).routine layout).id + 1
  config : m'.config = m.config
  natives : m'.natives = m.natives
  sink : m'.sink = m.sink
  globals : m'.globals = m.globals

theorem compiles_of_ok {m : Machine} (valid : m.heap.Valid) {source : String} {s : Statement}
    (writes : s.Writes source) {script : Routine} (ok : (m.compile source).1 = .ok script) :
    ∃ layout m', m.Compiles source s layout m' := by
  obtain ⟨log, same⟩ := m.compile_eq source
  rw [same] at ok
  replace ok : (StackScript.compile source m.heap).result = .ok script := ok
  obtain ⟨ts, e, ends, tokens, last, written⟩ := writes
  obtain ⟨layout, fine, made⟩ := Compiler.made_of_written ok tokens last written
  have scripts : script = (Part.script s m.heap).routine layout := congrArg Prod.fst made
  have heaps : (StackScript.compile source m.heap).heap =
      (((Part.script s m.heap).coded layout).routine layout none 0 (Part.script s m.heap).ending).2 :=
    congrArg Prod.snd made
  refine ⟨layout, { m with heap := (StackScript.compile source m.heap).heap, log },
    ?_, ?_, ?_, ?_, rfl, rfl, rfl, rfl⟩
  · rw [same, ok, scripts]
  · exact ⟨source, m.heap, s, valid, ⟨ts, e, ends, tokens, last, written⟩, fine, scripts ▸ ok, .self⟩
  · dsimp only
    rw [heaps]
    exact (fine.sound_coded (Pool.sound_empty valid)).heap
  · dsimp only
    rw [heaps]
    rfl

theorem Compiles.interpret {m m' : Machine} {source : String} {s : Statement} {layout : Layout}
    (h : m.Compiles source s layout m') (limit : Nat) :
    m.interpret limit source =
      let run := execute limit (m'.begin ((Part.script s m.heap).routine layout)).1
        (m'.begin ((Part.script s m.heap).routine layout)).2
      (.ok (run.2.conclude run.1).1, (run.2.conclude run.1).2) := by
  rw [Machine.interpret, h.compile]
  rfl

/-- What can be compiled was written from a tree. -/
theorem writes_of_ok {m : Machine} {source : String} {script : Routine}
    (ok : (m.compile source).1 = .ok script) :
    (∀ t ∈ Token.scan source, t.kind ≠ .error) ∧ ∃ s : Statement, s.Writes source := by
  obtain ⟨log, same⟩ := m.compile_eq source
  rw [same] at ok
  obtain ⟨clean, ts, e, tokens, last, ends, s, written⟩ := Compiler.written_of_ok ok
  exact ⟨clean, s, ts, e, ends, tokens, last, written⟩

/-! ## Running -/

/-- The variables at the end of a run are those before its last instruction. -/
theorem globals_of_execute (limit : Nat) (script : Routine) (m : Machine) :
    ∃ (count : Nat) (frame : Frame) (n : Machine), Reaches (m.begin script).1 (m.begin script).2 count frame n ∧
      (execute limit (m.begin script).1 (m.begin script).2).2.globals = n.globals := by
  have halting := halts (m.begin script).1 (m.begin script).2 limit
  generalize execute limit (m.begin script).1 (m.begin script).2 = final at halting ⊢
  have same (n : Machine) (frame : Frame) : (n.traced frame).globals = n.globals :=
    (untouched_traced n frame).1.globals
  cases halting with
  | @finished count frame n _ reached _ ran =>
      have stepped := stepped frame (n.traced frame)
      rw [ran] at stepped
      cases stepped with
      | finishes => exact ⟨count, frame, n, reached, same n frame⟩
  | @faulted count frame n _ _ reached _ ran =>
      have bounded := (reached.bounded (bounded_begin script m)).traced frame
      exact ⟨count, frame, n, reached, (untouched_step bounded ran).globals.trans (same n frame)⟩
  | unfinished reached => exact ⟨limit, _, _, reached, rfl⟩

section

variable {layout : Layout} {p : Part} {m : Machine} (written : p.Written layout) (script : p.arity = 0)
  (globals : m.globals.Trusted (.before (p.routine layout).id)) (handsBack : ∀ f ∈ m.natives, f.HandsBack)

include written script globals handsBack

/-- A run of a script leaves only functions that were made before the script. -/
theorem trusted_execute (limit : Nat) :
    (execute limit (m.begin (p.routine layout)).1 (m.begin (p.routine layout)).2).2.globals.Trusted
      (.before (p.routine layout).id) := by
  obtain ⟨count, frame, n, reached, same⟩ := globals_of_execute limit (p.routine layout) m
  obtain ⟨scene, -, shows, guarded, -⟩ := guarded_of_reaches written script globals handsBack reached
  rw [same, show n.globals = scene.world.globals from congrArg World.globals shows.world]
  exact guarded.globals

end

/-! ## Tame machines -/

theorem Tame.importing {m : Machine} (h : m.Tame) (names : List String)
    (uniform : ∀ (name : String) (found : NativeModule), m.loader name = some found →
      ∀ symbol ∈ found.symbols, symbol.function.Uniform) : (m.importing names).Tame := by
  have imports := imports_importing m names
  refine ⟨imports.heap h.heap, fun name g there => ?_, imports.functions h.natives uniform⟩
  rw [imports.routines]
  rcases imports.globals name g there with old | ⟨n, native⟩
  · exact h.globals name g old
  · intro r same
    rw [native] at same
    cases same

/-- Interpreting a source leaves a machine tame, whether the source compiles or not, and however
its run ends. -/
theorem Tame.interpret {m : Machine} (h : m.Tame) (limit : Nat) (source : String) :
    (m.interpret limit source).2.Tame := by
  cases ok : (m.compile source).1 with
  | error errors =>
      obtain ⟨log, same⟩ := m.compile_eq source
      -- A rejected source has entered strings and made routines, but run nothing.
      obtain ⟨valid, grown⟩ := Compiler.heap_compile source h.heap
      have rejected : (m.interpret limit source).2 = (m.compile source).2 := by
        rw [Machine.interpret, ← Prod.eta (m.compile source), ok]
      rw [rejected, same]
      exact ⟨valid, h.globals.later grown, h.natives⟩
  | ok script =>
      obtain ⟨-, s, writes⟩ := writes_of_ok ok
      obtain ⟨layout, m', compiled⟩ := compiles_of_ok h.heap writes ok
      have id : ((Part.script s m.heap).routine layout).id = m.heap.routines + s.functions.length :=
        s.routines_code ..
      have natives : ∀ f ∈ m'.natives, f.Uniform := fun f mem => h.natives f (compiled.natives ▸ mem)
      have globals : m'.globals.Trusted (.before ((Part.script s m.heap).routine layout).id) :=
        compiled.globals ▸ h.globals.later (by omega)
      have entered := enters_execute limit (m'.begin ((Part.script s m.heap).routine layout)).1
        (m'.begin ((Part.script s m.heap).routine layout)).2
      -- What the run leaves in variables is older than the script, which nothing can bind.
      have trusted := trusted_execute compiled.written rfl globals (fun f mem => (natives f mem).handsBack)
        limit
      rw [compiled.interpret]
      dsimp only
      generalize execute limit _ _ = final at entered trusted ⊢
      obtain ⟨log, stack, callers, same⟩ := conclude_eq final.1 final.2
      rw [same]
      have routines : final.2.heap.routines = ((Part.script s m.heap).routine layout).id + 1 :=
        entered.routines.trans compiled.routines
      exact ⟨entered.valid compiled.heap, trusted.later (by dsimp only; omega),
        fun f mem => natives f (entered.natives ▸ mem)⟩

end Machine
end StackScript
