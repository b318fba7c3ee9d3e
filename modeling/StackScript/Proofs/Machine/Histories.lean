import StackScript.Library.Standard
import StackScript.Machine.Run
import StackScript.Proofs.Code.Parts
import StackScript.Proofs.Machine.Modules
import StackScript.Proofs.Machine.Strings
import StackScript.Proofs.Parsing.Words

/-!
# What a host can do with a machine

A history is a machine together with what its host remembers: the scripts that have been
compiled, and the texts that have been looked up in the string table so far.  Whatever the
host does, and whether or not it fails, the table holds exactly the texts that have been looked
up.  Equal texts are also the same object, unless a host function has handed the machine a
string object of its own making: what it gives back is not looked up (`made_string_stays`).
All other strings that can be reached are objects of the table.
-/

namespace StackScript

/-- A machine, and what its host knows about it. -/
structure History where
  machine : Machine
  /-- The scripts that have been compiled. -/
  scripts : List Routine
  /-- The texts that have been interned. -/
  texts : Finset String

/-- The names of the functions of a module, if the loader knows it. -/
def ModuleLoader.names (loader : ModuleLoader) (name : String) : List String :=
  match loader name with
  | none => []
  | some found => found.symbols.map NativeSymbol.name

/-- The texts that compiling a source looks up. -/
def lookedUpBy (source : String) : Finset String := (compile source .empty).heap.texts.keys

namespace History

/-- Nothing has happened yet. -/
def start (config : MachineConfig) (loader : ModuleLoader) : History :=
  ⟨.start config loader, [], ∅⟩

/-- A source has been compiled, or rejected. -/
def compiled (s : History) (source : String) : History where
  machine := (s.machine.compile source).2
  scripts :=
    match (s.machine.compile source).1 with
    | .ok script => script :: s.scripts
    | .error _ => s.scripts
  texts := s.texts ∪ lookedUpBy source

/-- A routine has run, for at most the given number of steps. -/
def ran (s : History) (limit : Nat) (r : Routine) : History where
  machine := (s.machine.run limit r).2
  scripts := s.scripts
  texts := s.texts ∪ (s.machine.lookupsOfRun limit r).toFinset

/-- A source has been compiled, and has run if there was no error. -/
def interpreted (s : History) (limit : Nat) (source : String) : History where
  machine := (s.machine.interpret limit source).2
  scripts := (s.compiled source).scripts
  texts :=
    match (s.machine.compile source).1 with
    | .ok script => ((s.compiled source).ran limit script).texts
    | .error _ => (s.compiled source).texts

/-- One thing that a host can do. -/
inductive Operation (s : History) : History → Prop where
  | intern (chars : String) : Operation s
      ⟨{ s.machine with heap := (s.machine.heap.intern chars).2 }, s.scripts, insert chars s.texts⟩
  | defineNative (name : String) (f : NativeFunction) :
      Operation s ⟨s.machine.defineNative name f, s.scripts, insert name s.texts⟩
  | importModule (name : String) : Operation s
      ⟨(s.machine.importModule name).2, s.scripts,
        s.texts ∪ (ModuleLoader.names s.machine.loader name).toFinset⟩
  | compile (source : String) : Operation s (s.compiled source)
  /-- The routine may be a script or one of the routines inside it. -/
  | run (limit : Nat) {script r : Routine} (mem : script ∈ s.scripts) (within : script.Within r) :
      Operation s (s.ran limit r)
  | interpret (limit : Nat) (source : String) : Operation s (s.interpreted limit source)

/-- Any number of operations. -/
abbrev Operations : History → History → Prop := Relation.ReflTransGen Operation

/-- The string object can be reached from the stack, the globals or a script. -/
inductive Holds (s : History) : Text → Prop where
  | operand {v : Value} {t : Text} (there : v ∈ s.machine.stack) (mem : t ∈ v.texts) : Holds s t
  | name {key : String} {g : Global} (there : s.machine.globals[key]? = some g) : Holds s g.name
  | global {key : String} {g : Global} {t : Text} (there : s.machine.globals[key]? = some g)
      (mem : t ∈ g.value.texts) : Holds s t
  | script {r : Routine} {t : Text} (there : r ∈ s.scripts) (mem : t ∈ r.texts) : Holds s t

/-- The table is in order and holds the texts that have been looked up. -/
structure Tabled (s : History) : Prop where
  numbered : s.machine.heap.texts.Numbered
  texts : s.machine.heap.texts.keys = s.texts

/-- All that can be reached are objects of the table, or have been made elsewhere. -/
structure Sound (made : Text → Prop) (s : History) : Prop where
  machine : s.machine.Canonical made
  scripts : ∀ r ∈ s.scripts, ∀ t ∈ r.texts, s.machine.heap.Knows made t

variable {s s' : History} {made : Text → Prop}

/-- From one history to another only more has become known.  A sound history stays sound, if the
strings that the host functions of the later one make are among those made elsewhere. -/
structure Extends (s s' : History) : Prop where
  tabled : s'.Tabled
  texts : s.texts ⊆ s'.texts
  makes : ∀ t, s.machine.Makes t → s'.machine.Makes t
  sound : ∀ {made}, s.Sound made → (∀ t, s'.machine.Makes t → made t) → s'.Sound made

theorem Extends.trans {s'' : History} (h : s.Extends s') (h' : s'.Extends s'') : s.Extends s'' where
  tabled := h'.tabled
  texts := h.texts.trans h'.texts
  makes t made := h'.makes t (h.makes t made)
  sound sound makes := h'.sound (h.sound sound fun t made => makes t (h'.makes t made)) makes

/-- The machine has looked some texts up, and no scripts have been added. -/
theorem Tabled.extends (h : s.Tabled) {m : Machine} (ts : List String)
    (texts : m.heap.texts = s.machine.heap.texts.internAll ts)
    (makes : ∀ t, s.machine.Makes t → m.Makes t)
    (canonical : ∀ {made}, s.Sound made → (∀ t, m.Makes t → made t) → m.Canonical made) :
    s.Extends ⟨m, s.scripts, s.texts ∪ ts.toFinset⟩ where
  tabled :=
    { numbered := texts ▸ h.numbered.internAll ts
      texts := by rw [texts, TextTable.keys_internAll, h.texts] }
  texts := Finset.subset_union_left
  makes := makes
  sound sound makes :=
    { machine := canonical sound makes
      scripts := fun r mem t there => (sound.scripts r mem t there).mono (Heap.le_of_internAll texts) }

end History

namespace Machine

variable {m m' m'' : Machine} {made : Text → Prop}

/-- Compiling changes heap and log only. -/
theorem compile_eq (m : Machine) (source : String) : ∃ log, m.compile source =
    ((StackScript.compile source m.heap).result,
      { m with heap := (StackScript.compile source m.heap).heap, log }) := by
  have logged (rs : List Routine) (m : Machine) :
      ∃ log, rs.foldl (fun m r => m.record .debug fun _ => completedMessage r) m = { m with log } := by
    induction rs generalizing m with
    | nil => exact ⟨m.log, rfl⟩
    | cons r rs ih => exact ih (m.record .debug fun _ => completedMessage r)
  unfold Machine.compile
  dsimp only
  rw [← Array.foldl_toList]
  obtain ⟨log, same⟩ := logged (StackScript.compile source m.heap).completed.toList
    { m with heap := (StackScript.compile source m.heap).heap }
  rw [same]
  cases (StackScript.compile source m.heap).result with
  | ok script => exact ⟨log, rfl⟩
  | error errors => exact ⟨_, rfl⟩

/-- A heap in which some texts have been looked up. -/
theorem Canonical.reheap (h : m.Canonical made) {heap : Heap} (ts : List String) (log : Log)
    (texts : heap.texts = m.heap.texts.internAll ts) : Canonical made { m with heap, log } := by
  have le : m.heap.Le heap := Heap.le_of_internAll texts
  exact
    { world :=
        { numbered := texts ▸ h.world.numbered.internAll ts
          stack := fun v mem t there => (h.world.stack v mem t there).mono le
          names := fun key g there => (h.world.names key g there).mono le
          globals := fun key g there t mem => (h.world.globals key g there t mem).mono le }
      callers := fun f mem t there => (h.callers f mem t there).mono le }

/-- Names have been looked up, and host functions may have been defined. -/
structure Defines (m : Machine) (names : List String) (m' : Machine) : Prop where
  texts : m'.heap.texts = m.heap.texts.internAll names
  natives : ∀ f ∈ m.natives, f ∈ m'.natives
  canonical : ∀ {made}, m.Canonical made → m'.Canonical made

theorem Defines.refl (m : Machine) : m.Defines [] m := ⟨rfl, fun _ => id, id⟩

/-- What could be made before can be made still. -/
theorem Defines.makes {names : List String} (h : m.Defines names m') {t : Text} (made : m.Makes t) :
    m'.Makes t := by
  obtain ⟨f, mem, makes⟩ := made
  exact ⟨f, h.natives f mem, makes⟩

theorem Defines.trans {names more : List String} (h : m.Defines names m') (h' : m'.Defines more m'') :
    m.Defines (names ++ more) m'' where
  texts := by rw [h'.texts, h.texts, TextTable.internAll_append]
  natives f mem := h'.natives f (h.natives f mem)
  canonical := fun canonical => h'.canonical (h.canonical canonical)

/-- Defining a host function looks its name up, whatever the function does. -/
theorem defines_defineNative (m : Machine) (name : String) (f : NativeFunction) :
    m.Defines [name] (m.defineNative name f) where
  texts := rfl
  natives _ mem := Array.mem_push_of_mem f mem
  canonical {made} h := by
    have interned : Canonical made { m with heap := (m.heap.intern name).2 } := h.reheap [name] m.log rfl
    have valid : m.heap.Valid := h.world.numbered.chars
    have known : (m.heap.intern name).2.Knows made (m.heap.intern name).1 :=
      .inl (valid.has_intern name)
    exact ⟨interned.world.define known (List.forall_mem_singleton.mpr known), interned.callers⟩

theorem defines_symbols (m : Machine) (symbols : List NativeSymbol) :
    m.Defines (symbols.map NativeSymbol.name)
      (symbols.foldl (fun m symbol => m.defineNative symbol.name symbol.function) m) := by
  induction symbols generalizing m with
  | nil => exact .refl m
  | cons symbol symbols ih => exact (defines_defineNative m symbol.name symbol.function).trans (ih _)

/-- Importing a module looks up the names of its functions. -/
theorem defines_importModule (m : Machine) (name : String) :
    m.Defines (ModuleLoader.names m.loader name) (m.importModule name).2 := by
  unfold Machine.importModule ModuleLoader.names
  cases m.loader name with
  | none => exact .refl m
  | some found =>
      have all := defines_symbols m found.symbols
      exact ⟨all.texts, all.natives, fun h => ((all.canonical h).relog _ _).canonical⟩

end Machine

namespace Library

/-- Whatever the computation writes, its result can only be the given value. -/
def Returns (x : Output Value) (v : Value) : Prop :=
  ∀ sink w sink', x sink = .ok w sink' → w = v

theorem returns_pure (v : Value) : Returns (pure v) v := by
  rintro sink w sink' ⟨⟩
  rfl

theorem returns_bind {α : Type} {x : Output α} {next : α → Output Value} {v : Value}
    (h : ∀ a, Returns (next a) v) : Returns (x >>= next) v := by
  intro sink w sink' ran
  simp only [bind, EStateM.bind] at ran
  cases first : x sink with
  | ok a sink'' =>
      rw [first] at ran
      exact h a sink'' w sink' ran
  | error message sink'' =>
      rw [first] at ran
      cases ran

theorem makesNoText_of_returns {f : NativeFunction} {v : Value} (none : v.texts = [])
    (h : ∀ context arguments, Returns (f context arguments) v) : f.MakesNoText := by
  rintro t ⟨context, arguments, sink, w, sink', returned, mem, -⟩
  obtain rfl := h context arguments sink w sink' returned
  rw [none] at mem
  cases mem

theorem returns_println (context : NativeContext) (arguments : Array Value) :
    Returns (println context arguments) .null :=
  returns_bind fun _ => returns_bind fun _ => returns_pure .null

theorem returns_printGlobals (context : NativeContext) (arguments : Array Value) :
    Returns (printGlobals context arguments) (.bool true) :=
  returns_bind fun _ => returns_pure (.bool true)

theorem returns_printStack (context : NativeContext) (arguments : Array Value) :
    Returns (printStack context arguments) (.bool true) :=
  returns_bind fun _ => returns_pure (.bool true)

/-- All that the functions of the standard modules give back is one of two values. -/
theorem returns_modules : ∀ found ∈ modules, ∀ symbol ∈ found.symbols,
    ∃ v : Value, (v = .null ∨ v = .bool true) ∧
      ∀ context arguments, Returns (symbol.function context arguments) v :=
  forall_symbols
    (P := fun f => ∃ v : Value, (v = .null ∨ v = .bool true) ∧
      ∀ context arguments, Returns (f context arguments) v)
    ⟨_, .inl rfl, returns_println⟩ ⟨_, .inr rfl, returns_printGlobals⟩
    ⟨_, .inr rfl, returns_printStack⟩

/-- The functions of the standard modules make no strings. -/
theorem makesNoText_modules :
    ∀ found ∈ modules, ∀ symbol ∈ found.symbols, symbol.function.MakesNoText := by
  intro found mem symbol there
  obtain ⟨v, plain, returns⟩ := returns_modules found mem symbol there
  refine makesNoText_of_returns ?_ returns
  rcases plain with rfl | rfl <;> rfl

end Library

/-- The strings of a routine inside another are among those of the other. -/
theorem Routine.Within.texts {whole r : Routine} (h : whole.Within r) :
    ∀ t ∈ r.texts, t ∈ whole.texts := by
  induction h with
  | self => exact fun _ mem => mem
  | @constant r q v h mem same ih =>
      refine fun t there => ih t (Routine.mem_texts.mpr (.inr ⟨v, mem, ?_⟩))
      rw [Value.texts, same]
      exact there

namespace History

variable {s s' : History}

/-- Compiling a source looks up the same texts as with an empty table, and a script holds strings
of the machine that has compiled it. -/
theorem Tabled.compiled (h : s.Tabled) (source : String) : s.Extends (s.compiled source) := by
  have valid : s.machine.heap.Valid := h.numbered.chars
  obtain ⟨ts, here, there⟩ := Compiler.compile_texts source valid
  have same : ts.toFinset = lookedUpBy source := by
    rw [lookedUpBy, there, TextTable.keys_internAll, TextTable.keys_empty, Finset.empty_union]
  obtain ⟨log, built⟩ := s.machine.compile_eq source
  have grown := h.extends (m := (s.machine.compile source).2) ts (by rw [built]; exact here)
    (fun t made => by rw [built]; exact made)
    (fun sound _ => by rw [built]; exact sound.machine.reheap ts log here)
  rw [same] at grown
  refine ⟨⟨grown.tabled.numbered, grown.tabled.texts⟩, grown.texts, grown.makes, fun sound makes => ?_⟩
  have old := grown.sound sound makes
  refine ⟨old.machine, ?_⟩
  unfold History.compiled
  dsimp only
  cases ok : (s.machine.compile source).1 with
  | error errors => exact old.scripts
  | ok script =>
      refine List.forall_mem_cons.mpr ⟨?_, old.scripts⟩
      rw [built] at ok ⊢
      exact fun t mem => .inl (Compiler.has_script valid ok t mem)

/-- A run looks up what its additions join. -/
theorem Tabled.ran (h : s.Tabled) (limit : Nat) {r : Routine}
    (known : ∀ {made}, s.Sound made → ∀ t ∈ r.texts, s.machine.heap.Knows made t) :
    s.Extends (s.ran limit r) := by
  have entered := Machine.enters_run limit r s.machine
  refine h.extends _ entered.texts (fun t => entered.makes ▸ id) fun sound makes => ?_
  exact (sound.machine.run (entered.makes ▸ makes) limit (known sound)).canonical

/-- Interpreting is compiling, and then running the script. -/
theorem interpreted_eq (s : History) (limit : Nat) (source : String) :
    s.interpreted limit source =
      match (s.machine.compile source).1 with
      | .ok script => (s.compiled source).ran limit script
      | .error _ => s.compiled source := by
  unfold interpreted ran compiled Machine.interpret
  generalize s.machine.compile source = built
  obtain ⟨result, m⟩ := built
  cases result <;> rfl

/-- Sources define no host functions. -/
theorem natives_interpreted (s : History) (limit : Nat) (source : String) :
    (s.interpreted limit source).machine.natives = s.machine.natives := by
  obtain ⟨log, built⟩ := s.machine.compile_eq source
  have compiled : (s.compiled source).machine.natives = s.machine.natives := by
    rw [History.compiled, built]
  rw [interpreted_eq]
  cases (s.machine.compile source).1 with
  | error errors => exact compiled
  | ok script => exact (Machine.enters_run limit script (s.compiled source).machine).natives.trans compiled

theorem Tabled.interpreted (h : s.Tabled) (limit : Nat) (source : String) :
    s.Extends (s.interpreted limit source) := by
  have compiled := h.compiled source
  rw [interpreted_eq]
  cases ok : (s.machine.compile source).1 with
  | error errors => exact compiled
  | ok script =>
      refine compiled.trans (compiled.tabled.ran limit fun sound => sound.scripts script ?_)
      simp only [History.compiled, ok, List.mem_cons, true_or]

/-- Names of host functions have been looked up. -/
theorem Tabled.defines (h : s.Tabled) {m : Machine} {names : List String}
    (defined : s.machine.Defines names m) : s.Extends ⟨m, s.scripts, s.texts ∪ names.toFinset⟩ :=
  h.extends names defined.texts (fun _ => defined.makes) fun sound _ =>
    defined.canonical sound.machine

theorem union_single (texts : Finset String) (chars : String) :
    texts ∪ [chars].toFinset = insert chars texts := by
  rw [List.toFinset_cons, List.toFinset_nil, Finset.union_insert, Finset.union_empty]

/-- Every operation extends a history, whether or not it fails. -/
theorem Operation.extends (h : s.Operation s') (tabled : s.Tabled) : s.Extends s' := by
  cases h with
  | intern chars =>
      rw [← union_single]
      exact tabled.extends [chars] rfl (fun _ => id) fun sound _ => sound.machine.reheap [chars] _ rfl
  | defineNative name f =>
      rw [← union_single]
      exact tabled.defines (s.machine.defines_defineNative name f)
  | importModule name => exact tabled.defines (s.machine.defines_importModule name)
  | compile source => exact tabled.compiled source
  | run limit mem within =>
      exact tabled.ran limit fun sound t there => sound.scripts _ mem t (within.texts t there)
  | interpret limit source => exact tabled.interpreted limit source

theorem Operations.extends (h : s.Operations s') (tabled : s.Tabled) : s.Extends s' := by
  induction h with
  | refl => exact ⟨tabled, Finset.Subset.refl _, fun _ => id, fun sound _ => sound⟩
  | tail _ last ih => exact ih.trans (last.extends ih.tabled)

theorem tabled_start (config : MachineConfig) (loader : ModuleLoader) : (start config loader).Tabled where
  numbered := TextTable.numbered_empty
  texts := TextTable.keys_empty

theorem sound_start (made : Text → Prop) (config : MachineConfig) (loader : ModuleLoader) :
    (start config loader).Sound made where
  machine :=
    { world :=
        { numbered := TextTable.numbered_empty
          stack := by simp [start, Machine.start, Machine.operands]
          names := by simp [start, Machine.start, Machine.world]
          globals := by simp [start, Machine.start, Machine.world] }
      callers := by simp [start, Machine.start] }
  scripts := by simp [start]

/-- The table has as many strings as texts have been looked up. -/
theorem Tabled.size (h : s.Tabled) : s.machine.heap.texts.size = s.texts.card := by
  rw [← h.texts, TextTable.card_keys]

/-- What a history holds is in the table of its machine, or has been made elsewhere. -/
theorem Sound.knows (h : s.Sound made) {t : Text} (held : s.Holds t) :
    s.machine.heap.Knows made t := by
  cases held with
  | operand there mem => exact h.machine.knows _ there t mem
  | name there => exact h.machine.world.names _ _ there
  | global there mem => exact h.machine.world.globals _ _ there t mem
  | script there mem => exact h.scripts _ there t mem

/-- Whatever a host does with a machine, two strings that can be reached are the same object if
and only if their texts are equal, and the table has that object for the text, apart from strings
that a host function can make itself.  The table holds each text that has ever been looked up
once, and nothing else. -/
theorem one_object_each {config : MachineConfig} {loader : ModuleLoader}
    (reached : (start config loader).Operations s) :
    (∀ t t', s.Holds t → s.Holds t' → ¬ s.machine.Makes t → ¬ s.machine.Makes t' →
        (t.id = t'.id ↔ t.chars = t'.chars)) ∧
      (∀ t, s.Holds t → ¬ s.machine.Makes t →
        s.machine.heap.intern t.chars = (t, s.machine.heap)) ∧
      s.machine.heap.texts.size = s.texts.card ∧
      ∀ s', s.Operations s' → s.machine.heap.texts.size ≤ s'.machine.heap.texts.size := by
  have extended := reached.extends (tabled_start config loader)
  have sound : s.Sound s.machine.Makes := extended.sound (sound_start _ config loader) fun _ => id
  have has {t : Text} (held : s.Holds t) (own : ¬ s.machine.Makes t) : s.machine.heap.Has t :=
    (sound.knows held).resolve_right own
  refine ⟨fun t t' held held' own own' => ?_, fun t held own => (has held own).intern,
    extended.tabled.size, fun s' later => ?_⟩
  · exact (has held own).id_eq extended.tabled.numbered (has held' own')
  · have grown := later.extends extended.tabled
    rw [extended.tabled.size, grown.tabled.size]
    exact Finset.card_le_card grown.texts

/-- A machine with a standard module joins two strings, prints the result and keeps it.  No string
has been made by a host function. -/
theorem one_object_each_sample :
    let first := start .standard Library.load
    let imported : History := ⟨(first.machine.importModule "io").2, [],
      ∅ ∪ (ModuleLoader.names Library.load "io").toFinset⟩
    let s := imported.interpreted 40 "var a = \"x\" + \"y\"; println(a);"
    first.Operations s ∧ s.machine.natives.size = 2 ∧
      (s.machine.globals["a"]?.map fun g => g.value.texts.map Text.chars) = some ["xy"] ∧
      (∀ t t', s.Holds t → s.Holds t' → (t.id = t'.id ↔ t.chars = t'.chars)) ∧
      (∀ t, s.Holds t → s.machine.heap.intern t.chars = (t, s.machine.heap)) ∧
      s.machine.heap.texts.size = s.texts.card ∧
      ∀ s', s.Operations s' → s.machine.heap.texts.size ≤ s'.machine.heap.texts.size := by
  intro first imported s
  have reached : first.Operations s :=
    .tail (.single (.importModule "io")) (.interpret 40 "var a = \"x\" + \"y\"; println(a);")
  have standard : ∀ f ∈ s.machine.natives, NativeFunction.MakesNoText f := by
    rw [natives_interpreted]
    exact (Machine.imports_importModule first.machine "io").functions_of_empty rfl
      (Library.forall_load Library.makesNoText_modules)
  have own (t : Text) : ¬ s.machine.Makes t := by
    rintro ⟨f, mem, makes⟩
    exact standard f mem t makes
  obtain ⟨same, object, table⟩ := one_object_each reached
  exact ⟨reached, by decide +kernel, by decide +kernel,
    fun t t' held held' => same t t' held held' (own t) (own t'),
    fun t held => object t held (own t), table⟩

/-- A host function that gives back a string object of its own. -/
def freshText : NativeFunction := fun _ _ => pure (.string ⟨100, "x"⟩)

/-- A string that a host function has made is not looked up in the table: here the machine holds
it beside the object that a literal with the same text has. -/
theorem made_string_stays :
    let first := start .standard Library.load
    let defined : History := ⟨first.machine.defineNative "fresh" freshText, [], insert "fresh" ∅⟩
    let s := defined.interpreted 20 "var a = \"x\"; var b = fresh();"
    first.Operations s ∧ ∃ t t', s.Holds t ∧ s.Holds t' ∧ t.chars = t'.chars ∧ t.id ≠ t'.id := by
  intro first defined s
  have literal : (s.machine.globals["a"]?.map fun g => g.value.texts) = some [⟨2, "x"⟩] := by
    decide +kernel
  have made : (s.machine.globals["b"]?.map fun g => g.value.texts) = some [⟨100, "x"⟩] := by
    decide +kernel
  obtain ⟨g, there, texts⟩ := Option.map_eq_some_iff.mp literal
  obtain ⟨g', there', texts'⟩ := Option.map_eq_some_iff.mp made
  have held : s.Holds ⟨2, "x"⟩ := .global there (texts ▸ List.mem_singleton_self _)
  have held' : s.Holds ⟨100, "x"⟩ := .global there' (texts' ▸ List.mem_singleton_self _)
  refine ⟨?_, _, _, held, held', rfl, by decide⟩
  exact .tail (.single (.defineNative "fresh" freshText))
    (.interpret 20 "var a = \"x\"; var b = fresh();")

end History

end StackScript
