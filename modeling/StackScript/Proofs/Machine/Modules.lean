import Mathlib
import StackScript.Library.Standard
import StackScript.Machine.Run
import StackScript.Proofs.Code.Constants

/-!
# Importing modules

A module adds its functions to the host functions of a machine and binds names to them.
Nothing else is bound, and limits, output and calls stay as they are.
-/

namespace StackScript

/-- There are three functions in the standard modules, one of them under two names. -/
theorem Library.forall_symbols {P : NativeFunction → Prop} (printing : P println)
    (listing : P printGlobals) (dumping : P printStack) :
    ∀ found ∈ modules, ∀ symbol ∈ found.symbols, P symbol.function := by
  intro found mem symbol there
  simp only [modules, List.mem_cons, List.not_mem_nil, or_false] at mem
  rcases mem with rfl | rfl
  · simp only [io, List.mem_cons, List.not_mem_nil, or_false] at there
    rcases there with rfl | rfl
    · exact printing
    · exact printing
  · simp only [dev, List.mem_cons, List.not_mem_nil, or_false] at there
    rcases there with rfl | rfl
    · exact listing
    · exact dumping

/-- The loader of the standard modules knows no others. -/
theorem Library.forall_load {P : NativeFunction → Prop}
    (all : ∀ found ∈ modules, ∀ symbol ∈ found.symbols, P symbol.function) :
    ∀ name found, load name = some found → ∀ symbol ∈ found.symbols, P symbol.function :=
  fun _ found known => all found (List.mem_of_find?_eq_some known)

namespace Machine

/-- The machine after modules have been imported, as far as the loader knows them. -/
def importing (m : Machine) (names : List String) : Machine :=
  names.foldl (fun m name => (m.importModule name).2) m

/-- What importing modules of a loader keeps. -/
structure Imports (m m' : Machine) : Prop where
  config : m'.config = m.config
  loader : m'.loader = m.loader
  sink : m'.sink = m.sink
  heap : m.heap.Valid → m'.heap.Valid
  routines : m'.heap.routines = m.heap.routines
  natives : ∀ f ∈ m'.natives, f ∈ m.natives ∨
    ∃ name found, m.loader name = some found ∧ ∃ symbol ∈ found.symbols, f = symbol.function
  globals : ∀ (x : String) (g : Global), m'.globals[x]? = some g →
    m.globals[x]? = some g ∨ ∃ n, g.value = .native n

namespace Imports

theorem refl (m : Machine) : Imports m m :=
  ⟨rfl, rfl, rfl, id, rfl, fun _ mem => .inl mem, fun _ _ bound => .inl bound⟩

theorem trans {m m' m'' : Machine} (h : Imports m m') (h' : Imports m' m'') : Imports m m'' where
  config := h'.config.trans h.config
  loader := h'.loader.trans h.loader
  sink := h'.sink.trans h.sink
  heap valid := h'.heap (h.heap valid)
  routines := h'.routines.trans h.routines
  natives f mem := by
    rcases h'.natives f mem with old | new
    · exact h.natives f old
    · rw [h.loader] at new
      exact .inr new
  globals x g bound := by
    rcases h'.globals x g bound with old | new
    · exact h.globals x g old
    · exact .inr new

end Imports

theorem imports_defineNative {m : Machine} {module_ : String} {found : NativeModule}
    (known : m.loader module_ = some found) {symbol : NativeSymbol} (mem : symbol ∈ found.symbols) :
    Imports m (m.defineNative symbol.name symbol.function) where
  config := rfl
  loader := rfl
  sink := rfl
  heap valid := valid.intern _
  routines := rfl
  natives f there := by
    rcases Array.mem_push.mp there with old | rfl
    · exact .inl old
    · exact .inr ⟨module_, found, known, symbol, mem, rfl⟩
  globals x g bound := by
    simp only [defineNative, addNative] at bound
    rcases entry_of_insert bound with ⟨-, rfl⟩ | old
    · exact .inr ⟨_, rfl⟩
    · exact .inl old

theorem imports_symbols {m : Machine} {module_ : String} {found : NativeModule}
    (known : m.loader module_ = some found) (symbols : List NativeSymbol)
    (mem : ∀ symbol ∈ symbols, symbol ∈ found.symbols) :
    Imports m (symbols.foldl (fun m symbol => m.defineNative symbol.name symbol.function) m) := by
  induction symbols generalizing m with
  | nil => exact .refl m
  | cons symbol rest ih =>
      have first := imports_defineNative known (mem symbol (.head rest))
      exact first.trans (ih (first.loader ▸ known) fun s there => mem s (.tail _ there))

theorem imports_importModule (m : Machine) (name : String) :
    Imports m (m.importModule name).2 := by
  unfold importModule
  cases known : m.loader name with
  | none => exact .refl m
  | some found =>
      have h := imports_symbols known found.symbols fun _ there => there
      exact ⟨h.config, h.loader, h.sink, h.heap, h.routines, h.natives, h.globals⟩

/-- Importing binds host functions of the loader's modules, and nothing else. -/
theorem imports_importing (m : Machine) (names : List String) : Imports m (m.importing names) := by
  induction names generalizing m with
  | nil => exact .refl m
  | cons name rest ih => exact (imports_importModule m name).trans (ih _)

/-- What holds of the host functions that there are, and of those that the loader knows, holds of
all host functions after importing. -/
theorem Imports.functions {m m' : Machine} (h : Imports m m') {P : NativeFunction → Prop}
    (old : ∀ f ∈ m.natives, P f) (all : ∀ name found, m.loader name = some found →
      ∀ symbol ∈ found.symbols, P symbol.function) : ∀ f ∈ m'.natives, P f := by
  intro f mem
  rcases h.natives f mem with before | ⟨name, found, known, symbol, there, rfl⟩
  · exact old f before
  · exact all name found known symbol there

/-- All host functions come from the loader if there were none before. -/
theorem Imports.functions_of_empty {m m' : Machine} (h : Imports m m') (none : m.natives = #[])
    {P : NativeFunction → Prop} (all : ∀ name found, m.loader name = some found →
      ∀ symbol ∈ found.symbols, P symbol.function) : ∀ f ∈ m'.natives, P f :=
  h.functions (fun f mem => absurd (none ▸ mem) (Array.not_mem_empty f)) all

end Machine
end StackScript
