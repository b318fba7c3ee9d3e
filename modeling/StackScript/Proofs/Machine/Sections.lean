import StackScript.Proofs.Code.Nested
import StackScript.Proofs.Machine.Boundaries
import StackScript.Proofs.Machine.Listed
import StackScript.Proofs.Recognition.Functions

/-!
# Listings of whole programs

The listing of a script is a section for the script and one for every function declared in the
source, in the order of the declarations, with empty lines between them (`Compiler.sections_of_ok`).
A section has one line for every instruction of the routine.  As compiled code consists of whole
instructions whose constants are there, no line breaks off, shows an operation that is not known, or
misses a constant.
-/

namespace StackScript

/-! ## Lines -/

namespace Chunk

variable {chunk : Chunk} {pc : Nat} {i : Instruction} {listing : List (Nat × Instruction)}

/-- The line for an instruction. -/
def listLine (chunk : Chunk) (entry : Nat × Instruction) : String :=
  chunk.listMargin entry.1 ++ chunk.listInstruction entry.1 entry.2

/-- Code is listed by one line for each of its instructions. -/
theorem Splits.listFrom_eq (splits : chunk.Splits pc listing) (done : String) :
    chunk.listFrom pc done = done ++ String.join (listing.map fun entry => chunk.listLine entry ++ "\n") := by
  induction listing generalizing pc done with
  | nil =>
      rw [listFrom, if_neg (Nat.not_lt.mpr (Nat.le_of_eq (Eq.symm splits)))]
      exact String.append_empty.symm
  | cons entry rest ih =>
      obtain ⟨start, i⟩ := entry
      have inside := (splits.mem (List.mem_cons_self ..)).2
      obtain ⟨rfl, decoded, -, onward⟩ := splits
      have line : chunk.listAt start = (chunk.listLine (start, i), i.next) := by
        rw [listAt_eq, decoded]
        rfl
      rw [listFrom, if_pos inside, line, List.map_cons, String.join_cons]
      dsimp only
      rw [ih onward, String.append_assoc, String.append_assoc, String.append_assoc]

/-- The line shows an instruction that is there as a whole, together with its constant. -/
structure Clear (chunk : Chunk) (pc : Nat) (i : Instruction) : Prop where
  /-- The line does not break off. -/
  whole : ∀ front, chunk.listLine (pc, i) ≠ front ++ "<truncated>"
  /-- The line does not show an unknown operation. -/
  known : ∀ rest, chunk.listLine (pc, i) ≠ chunk.listMargin pc ++ ("Unknown opcode: " ++ rest)
  /-- The line shows the constant that the instruction takes. -/
  constant : i.opcode.takesConstant = true → ∃ v, chunk.constants[i.operand]? = some v ∧
    chunk.listLine (pc, i) = chunk.listMargin pc ++ (listMnemonic i.opcode ++
      padLeft 4 ' ' (toString i.operand) ++ " '" ++ v.display ++ "'")

/-- An instruction finds the constant that it takes. -/
theorem Instruction.Serves.constant {constants : Array Value} (serves : i.Serves constants)
    (takes : i.opcode.takesConstant = true) : ∃ v, constants[i.operand]? = some v := by
  obtain ⟨op, operand, next⟩ := i
  cases op with
  | constant | constantLong => exact ⟨_, Array.getElem?_eq_getElem serves⟩
  | defineGlobal | defineGlobalLong | getGlobal | getGlobalLong | setGlobal | setGlobalLong =>
      obtain ⟨text, there⟩ := serves
      obtain ⟨v, found, -⟩ := Option.bind_eq_some_iff.mp there
      exact ⟨v, found⟩
  | _ => cases takes

/-- An instruction that takes a constant is listed with it. -/
theorem listInstruction_constant {v : Value} (takes : i.opcode.takesConstant = true)
    (there : chunk.constants[i.operand]? = some v) (offset : Nat) :
    chunk.listInstruction offset i =
      listMnemonic i.opcode ++ padLeft 4 ' ' (toString i.operand) ++ " '" ++ v.display ++ "'" := by
  have shown : chunk.listConstant i.operand = v.display := by rw [listConstant, there]
  obtain ⟨op, operand, next⟩ := i
  rw [← shown]
  cases op with
  | constant | constantLong | defineGlobal | defineGlobalLong | getGlobal | getGlobalLong
  | setGlobal | setGlobalLong => rfl
  | _ => cases takes

theorem clear_of_serves (serves : i.Serves chunk.constants) (pc : Nat) : chunk.Clear pc i where
  whole := ((chunk.complete_listInstruction pc i).append _).ne_truncated
  known rest same := by
    obtain ⟨shown, name⟩ := chunk.listInstruction_eq pc i
    have tails := (String.append_right_inj _).mp same
    rw [name] at tails
    exact mnemonic_ne_unknown _ _ _ tails
  constant takes := by
    obtain ⟨v, there⟩ := serves.constant takes
    exact ⟨v, there, congrArg (chunk.listMargin pc ++ ·) (listInstruction_constant takes there pc)⟩

end Chunk

/-! ## Sections -/

theorem intercalate_cons (between text : String) (texts : List String) :
    between.intercalate (text :: texts) = text ++ String.join (texts.map (between ++ ·)) := by
  induction texts generalizing text with
  | nil => simp
  | cons next texts ih =>
      rw [String.intercalate_cons_cons, ih, List.map_cons, String.join_cons]
      simp only [String.append_assoc]

/-- The section of a routine in a listing, without those of the routines inside it. -/
def Routine.listAlone (r : Routine) : String := r.chunk.list r.displayName

mutual

/-- A listing consists of the sections of all routines, depth first. -/
theorem Routine.list_eq : (r : Routine) → r.list = "\n".intercalate (r.all.map Routine.listAlone)
  | ⟨id, name, arity, ⟨code, ⟨constants⟩, lines⟩⟩ => by
      rw [Routine.all, List.map_cons, intercalate_cons, Routine.list, Value.listRoutines_eq constants,
        List.map_map]
      rfl

theorem Value.listRoutines_eq : (vs : List Value) → Value.listRoutines vs =
    String.join ((Value.allRoutines vs).map fun r => "\n" ++ r.listAlone)
  | [] => rfl
  | ⟨datum, assignable⟩ :: vs => by
      cases datum with
      | routine r =>
          have inside := Routine.list_eq r
          rw [Routine.all_eq, List.map_cons, intercalate_cons, List.map_map] at inside
          rw [Value.listRoutines, Value.allRoutines, List.map_append, String.join_append,
            ← Value.listRoutines_eq vs, inside, Routine.all_eq, List.map_cons, String.join_cons,
            String.append_assoc]
          rfl
      | null | bool | number | string | native => exact Value.listRoutines_eq vs

end

/-- The section of a routine has a clear line for each of these instructions, which are all of its
code. -/
structure Routine.Sectioned (r : Routine) (listing : List (Nat × Chunk.Instruction)) : Prop where
  splits : r.chunk.Splits 0 listing
  text : r.listAlone = "=== " ++ r.displayName ++ " ===\n" ++
    String.join (listing.map fun entry => r.chunk.listLine entry ++ "\n")
  clear : ∀ pc i, (pc, i) ∈ listing → r.chunk.Clear pc i

theorem Part.Fine.sectioned {layout : Layout} {p : Part} (h : p.Fine layout) :
    (p.routine layout).Sectioned (listed 0 (p.code layout)) where
  splits := h.wellFormed.splits
  text := h.wellFormed.splits.listFrom_eq _
  clear pc i mem := Chunk.clear_of_serves (h.wellFormed.serves pc i mem) pc

/-- The listing of a script consists of the sections of the script and of these functions. -/
structure Routine.ListedWith (script : Routine) (functions : List Routine) : Prop where
  text : script.list = "\n".intercalate ((script :: functions).map Routine.listAlone)
  /-- No function has two sections. -/
  once : ((script :: functions).map Routine.id).Nodup
  /-- No function is left out that the script can get hold of. -/
  all : ∀ r, r ∈ script :: functions ↔ script.Within r
  sections : ∀ r ∈ script :: functions, ∃ listing, r.Sectioned listing

/-- The listing of a part consists of the sections of the part and of the parts inside it. -/
theorem Part.Fine.listedWith {layout : Layout} {whole : Part} (h : whole.Fine layout) :
    (whole.routine layout).ListedWith
      ((whole.body.allParts layout whole.outer whole.place whole.pool).map (Part.routine layout)) := by
  have same : (whole.routine layout).all = whole.routine layout ::
      (whole.body.allParts layout whole.outer whole.place whole.pool).map (Part.routine layout) :=
    h.all_routine
  constructor
  · rw [← same]
    exact Routine.list_eq _
  · rw [← same, h.all_routine, List.map_map]
    exact whole.ids_all layout
  · intro r
    rw [← same]
    exact Routine.mem_all
  · intro r mem
    rw [← same] at mem
    obtain ⟨other, p, ⟨rfl, inside⟩, rfl⟩ :=
      (Library.program h).within ⟨layout, _, ⟨rfl, .self⟩, rfl⟩ (Routine.mem_all.mp mem)
    exact ⟨_, (h.within inside).sectioned⟩

/-- Sections go by the names of the declarations. -/
theorem displayNames_of_leads {layout : Layout} {declarations : List Declaration} {parts : List Part}
    (leads : List.Forall₂ Declaration.Leads declarations parts) :
    parts.map (fun p => (p.routine layout).displayName) = declarations.map Declaration.name := by
  induction leads with
  | nil => rfl
  | @cons d p _ _ first _ ih =>
      have name : (p.routine layout).displayName = d.name := by
        obtain ⟨text, named, same⟩ := Option.map_eq_some_iff.mp first.name
        rw [← same, Routine.displayName, show (p.routine layout).name = some text from named]
      rw [List.map_cons, List.map_cons, name, ih]

namespace Compiler

/-- The listing of an accepted source has one section for the script and one for each function that
the source declares, in the order of the declarations, and every section shows the code of its
function from the first byte to the last. -/
theorem sections_of_ok {source : String} {heap : Heap} (valid : heap.Valid) {script : Routine}
    (ok : (compile source heap).result = .ok script) :
    ∃ (layout : Layout) (tree : Statement) (parts : List Part), tree.Writes source ∧
      script = (Part.script tree heap).routine layout ∧
      List.Forall₂ Declaration.Leads tree.declarations parts ∧
      script.displayName = "script" ∧
      parts.map (fun p => (p.routine layout).displayName) = Token.functionNames (Token.scan source) ∧
      script.ListedWith (parts.map (Part.routine layout)) := by
  obtain ⟨layout, ts, e, ends, tree, tokens, last, written, fine, rfl⟩ := script_of_ok ok
  have writes : tree.Writes source := ⟨ts, e, ends, tokens, last, written⟩
  have leads := tree.declared_allParts layout [] fine.proper .script (Pool.sound_empty valid)
  refine ⟨layout, tree, _, writes, rfl, leads, rfl, ?_, fine.listedWith⟩
  rw [displayNames_of_leads leads, ← tree.functions_eq]
  exact writes.functionNames

/-- A function is listed before the one that is declared in it, and that one before the next. -/
theorem sections_of_ok_sample :
    Heap.empty.Valid ∧ ∃ script layout tree parts,
      (compile "fn f() { fn g() { return; } } fn h() { }" .empty).result = .ok script ∧
      tree.Writes "fn f() { fn g() { return; } } fn h() { }" ∧
      script = (Part.script tree .empty).routine layout ∧
      List.Forall₂ Declaration.Leads tree.declarations parts ∧ script.displayName = "script" ∧
      parts.map (fun p => (p.routine layout).displayName) = ["f", "g", "h"] ∧
      script.ListedWith (parts.map (Part.routine layout)) := by
  have computed : (compile "fn f() { fn g() { return; } } fn h() { }" .empty).result.toOption.isSome = true := by
    decide +kernel
  have names : Token.functionNames (Token.scan "fn f() { fn g() { return; } } fn h() { }") = ["f", "g", "h"] := by
    decide +kernel
  cases ok : (compile "fn f() { fn g() { return; } } fn h() { }" .empty).result with
  | error errors =>
      rw [ok] at computed
      cases computed
  | ok script =>
      obtain ⟨layout, tree, parts, writes, same, leads, first, others, listed⟩ :=
        sections_of_ok Heap.valid_empty ok
      exact ⟨Heap.valid_empty, script, layout, tree, parts, rfl, writes, same, leads, first,
        others.trans names, listed⟩

end Compiler

end StackScript
