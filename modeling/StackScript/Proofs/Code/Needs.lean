import StackScript.Proofs.Code.Moved

/-!
# What code needs its constants for

`Statement.needs` lists what a statement needs constants for, in the order of the code: its
literals, the names of the global variables that it deals with, and the functions declared in it.
The code of the statement has one instruction for each need, which loads just what is needed, and
every constant that the statement adds to the pool is the operand of one of these instructions
(`Statement.uses`).  The order in which constants are added is another one: the name of a variable is
entered before its value is compiled, and used after that.
-/

namespace StackScript

/-- What an instruction needs a constant for. -/
inductive Need where
  | number (x : Float)
  | string (chars : String)
  /-- A function that is declared. -/
  | function (name : String) (arity : Nat)
  /-- A global variable that is read, assigned to, or declared. -/
  | read (name : String)
  | write (name : String)
  | define (name : String)

namespace Need

/-- The operation that takes the constant, in its short form. -/
def opcode : Need → Opcode
  | read _ => .getGlobal
  | write _ => .setGlobal
  | define _ => .defineGlobal
  | _ => .constant

theorem operandWidth_opcode (need : Need) : need.opcode.operandWidth = 1 := by
  cases need <;> rfl

theorem operandWidth_longForm (need : Need) : need.opcode.longForm.operandWidth = 4 := by
  cases need <;> rfl

/-- The constant is what is needed: the number to the bit, the text to the character, or a routine. -/
def Means : Need → Value → Prop
  | number x, v => v = .number x
  | string chars, v | read chars, v | write chars, v | define chars, v =>
      ∃ text, v = .string text ∧ text.chars = chars
  | function name arity, v =>
      ∃ r, v = .routine r ∧ r.name.map Text.chars = some name ∧ r.arity = arity

/-- The instruction loads what is needed. -/
def LoadedBy (constants : Array Value) (need : Need) (a : Asm) : Prop :=
  ∃ i v, a = .indexed need.opcode i ∧ constants[i]? = some v ∧ need.Means v

end Need

/-! ## Needs of trees -/

/-- The need for a name where the given locals are known: none if it is that of a local. -/
def nameNeeds (access : String → Need) (locals : List LocalVariable) (name : String) : List Need :=
  if (Body.findLocal name locals).isSome then [] else [access name]

mutual

/-- What an expression needs constants for. -/
def Expression.needs (locals : List LocalVariable) : Expression → List Need
  | .null | .boolean _ => []
  | .number x => [.number x]
  | .string chars => [.string chars]
  | .variable name => nameNeeds .read locals name
  | .grouping e | .unary _ e => e.needs locals
  | .binary _ a b | .and a b | .or a b => a.needs locals ++ b.needs locals
  | .assign name e => e.needs locals ++ nameNeeds .write locals name
  | .call f es => f.needs locals ++ Expression.listNeeds locals es

/-- What expressions one after the other need constants for. -/
def Expression.listNeeds (locals : List LocalVariable) : List Expression → List Need
  | [] => []
  | e :: es => e.needs locals ++ Expression.listNeeds locals es

end

/-- What a clause that may be left out needs constants for. -/
def clauseNeeds (locals : List LocalVariable) : Option Expression → List Need
  | none => []
  | some e => e.needs locals

/-- The need for the name of a declaration in a scope of the given depth. -/
def declareNeeds (depth : Nat) (name : String) : List Need :=
  if depth = 0 then [.define name] else []

/-- What a statement needs constants for, but not what the functions declared in it do. -/
def Statement.needs (locals : List LocalVariable) (depth : Nat) : Statement → List Need
  | .done | .leave | .again => []
  | .next a b => a.needs locals depth ++ b.needs (a.declared depth ++ locals) depth
  | .print e | .expression e => e.needs locals
  | .declare _ name init => clauseNeeds locals init ++ declareNeeds depth name
  | .block s => s.needs locals (depth + 1)
  | .choose c s t => c.needs locals ++ s.needs locals depth ++ t.needs locals depth
  | .loop test step s => clauseNeeds locals test ++ clauseNeeds locals step ++ s.needs locals depth
  | .giveBack value => clauseNeeds locals value
  | .define name parameters _ => .function name parameters.length :: declareNeeds depth name

/-! ## Instructions that take constants -/

/-- The instructions that take a constant. -/
def takers (code : List Asm) : List Asm := code.filter (·.opcode.takesConstant)

@[simp] theorem takers_nil : takers [] = [] := rfl

@[simp] theorem takers_append (code more : List Asm) : takers (code ++ more) = takers code ++ takers more :=
  List.filter_append ..

@[simp] theorem takers_cons (a : Asm) (code : List Asm) :
    takers (a :: code) = if a.opcode.takesConstant then a :: takers code else takers code := List.filter_cons

theorem takers_eq_nil {code : List Asm} (plain : ∀ a ∈ code, a.opcode.takesConstant = false) :
    takers code = [] := by
  refine List.filter_eq_nil_iff.mpr fun a mem => ?_
  rw [plain a mem]
  exact Bool.false_ne_true

theorem Need.takesConstant (need : Need) (index : Nat) :
    (Asm.indexed need.opcode index).opcode.takesConstant = true := by
  rcases Asm.indexed_eq need.opcode index with same | same <;> rw [same] <;> cases need <;> rfl

theorem takers_pops (locals : List LocalVariable) : takers (pops locals) = [] := by
  refine takers_eq_nil fun a mem => ?_
  obtain ⟨var, -, rfl⟩ := List.mem_map.mp mem
  rfl

/-- Jumps take no constants, open or resolved. -/
theorem takers_resolveJumps (target start offset : Nat) (cells : List Cell) :
    takers (draft (resolveJumps target start offset cells)) = takers (draft cells) := by
  induction cells generalizing offset with
  | nil => rfl
  | cons cell cells ih =>
      rw [resolveJumps_cons, draft_append, takers_append, ih,
        show draft (cell :: cells) = [cell.draft] ++ draft cells from rfl, takers_append]
      cases cell <;> rfl

/-- What a loop takes constants for, in order. -/
theorem takers_loopCode (test step : Option (List Asm)) (body : List Cell) :
    takers (draft (loopCode test step body)) =
      takers (test.getD []) ++ takers (step.getD []) ++ takers (draft body) := by
  have jump (op : Opcode) (operand : Nat) (own : op.takesConstant = false) (code : List Asm) :
      takers (⟨op, operand⟩ :: code) = takers code := by
    rw [takers_cons, own]
    rfl
  have condition (skipped : Nat) : takers (testCode skipped test) = takers (test.getD []) := by
    cases test with
    | none => rfl
    | some code =>
        rw [testCode, takers_append, jump _ _ rfl]
        exact List.append_nil _
  have onward (back : Nat) : takers (stepCode back step) = takers (step.getD []) := by
    cases step with
    | none => rfl
    | some code =>
        simp only [stepCode]
        rw [jump _ _ rfl, takers_append]
        exact List.append_nil _
  have finish : takers (exitCode test) = [] := by cases test <;> rfl
  rw [loopCode, takers_resolveJumps]
  simp only [loopCells, draft_append, draft_ops, draft_cons, takers_append, condition, onward, finish,
    Cell.draft, loopTo, jump _ _ (show Opcode.loop.takesConstant = false from rfl)]
  simp [draft]

/-! ## What code does with constants -/

/-- Code that takes the number of constants from `old` to `new` loads what is needed, in order, and
every new constant. -/
structure Uses (constants : Array Value) (needs : List Need) (code : List Asm)
    (old new : Nat) : Prop where
  loads : List.Forall₂ (Need.LoadedBy constants) needs (takers code)
  covers : ∀ i, old ≤ i → i < new → ∃ a ∈ takers code, a.operand = i

namespace Uses

variable {constants : Array Value} {needs more : List Need} {code code' : List Asm}
  {old middle new : Nat}

/-- Code without constants. -/
theorem plain (none : takers code = []) : Uses constants [] code old old where
  loads := by
    rw [none]
    exact .nil
  covers i low high := by omega

/-- Only the instructions that take constants matter. -/
theorem to_code (h : Uses constants needs code old new) (same : takers code' = takers code) :
    Uses constants needs code' old new :=
  ⟨same ▸ h.loads, same ▸ h.covers⟩

/-- Two pieces of code; the new constants are those of one and those of the other. -/
theorem both {old' new' : Nat} (first : Uses constants needs code old middle)
    (second : Uses constants more code' old' new') {low high : Nat}
    (split : ∀ i, low ≤ i → i < high → old ≤ i ∧ i < middle ∨ old' ≤ i ∧ i < new') :
    Uses constants (needs ++ more) (code ++ code') low high where
  loads := by
    rw [takers_append]
    exact List.rel_append first.loads second.loads
  covers i above below := by
    rw [takers_append]
    rcases split i above below with ⟨above, below⟩ | ⟨above, below⟩
    · obtain ⟨a, mem, same⟩ := first.covers i above below
      exact ⟨a, List.mem_append_left _ mem, same⟩
    · obtain ⟨a, mem, same⟩ := second.covers i above below
      exact ⟨a, List.mem_append_right _ mem, same⟩

theorem append (first : Uses constants needs code old middle)
    (second : Uses constants more code' middle new) :
    Uses constants (needs ++ more) (code ++ code') old new :=
  first.both second fun _ _ _ => by omega

/-- The first constants may be those of the code behind. -/
theorem swap (second : Uses constants more code' old middle)
    (first : Uses constants needs code middle new) :
    Uses constants (needs ++ more) (code ++ code') old new :=
  first.both second fun _ _ _ => by omega

/-- More code that takes no constants. -/
theorem before (h : Uses constants needs code old new) (none : takers code' = []) :
    Uses constants needs (code ++ code') old new :=
  h.to_code (by rw [takers_append, none, List.append_nil])

/-- One constant, which is added if it is not there. -/
theorem one (need : Need) {pool : Pool} {heap : Heap} {v : Value}
    (there : constants[(Pool.add ⟨heap, pool.constants⟩ v).1]? = some v) (means : need.Means v) :
    Uses constants [need] [.indexed need.opcode (Pool.add ⟨heap, pool.constants⟩ v).1]
      pool.constants.size (Pool.add ⟨heap, pool.constants⟩ v).2.constants.size where
  loads := by
    rw [takers_cons, need.takesConstant, if_pos rfl]
    exact .cons ⟨_, v, rfl, there, means⟩ .nil
  covers i low high := by
    rw [takers_cons, need.takesConstant, if_pos rfl]
    refine ⟨_, List.mem_cons_self, ?_⟩
    rw [Asm.indexed_operand]
    unfold Pool.add at high ⊢
    dsimp only at high ⊢
    split
    · rename_i index found
      rw [found] at high
      exact absurd high (not_lt.mpr low)
    · rename_i missing
      rw [missing] at high
      simp only [Array.size_push] at high
      exact Nat.le_antisymm low (Nat.lt_succ_iff.mp high)

end Uses

/-! ## Expressions -/

section

variable {constants : Array Value} {pool : Pool} (sound : pool.Sound)

include sound

theorem uses_string (need : Need) {chars : String}
    (means : ∀ text : Text, text.chars = chars → need.Means (.string text))
    (h : (pool.addString chars).2.In constants) :
    Uses constants [need] [.indexed need.opcode (pool.addString chars).1]
      pool.constants.size (pool.addString chars).2.constants.size :=
  .one need (h _ _ (Pool.constant_add (sound.intern chars) (.string (pool.heap.entry_intern chars)) rfl))
    (means _ (sound.heap.chars_text chars))

section

variable {locals : List LocalVariable} {name : String} (h : (pool.resolve locals name).2.In constants)

include h

/-- An access to a variable takes a constant if the variable is global. -/
theorem uses_access (access : Compiler.Target → Asm) (need : String → Need)
    (means : ∀ text : Text, text.chars = name → (need name).Means (.string text))
    (global : ∀ i, access (.global i) = .indexed (need name).opcode i)
    (slot : ∀ i, takers [access (.slot i)] = []) :
    Uses constants (nameNeeds need locals name) [access (pool.resolve locals name).1]
      pool.constants.size (pool.resolve locals name).2.constants.size := by
  unfold Pool.resolve nameNeeds at *
  generalize Body.findLocal name locals = found at *
  cases found with
  | some found => exact .plain (slot found.1)
  | none =>
      simp only [global]
      exact uses_string sound (need name) means h

end

end

section

variable {constants : Array Value} (locals : List LocalVariable)

theorem BinaryOperator.takers_code (op : BinaryOperator) : takers op.code = [] := by
  cases op <;> rfl

mutual

/-- What the code of an expression does with constants. -/
theorem Expression.uses : (e : Expression) → e.Genuine → {pool : Pool} → pool.Sound →
    (e.code locals pool).2.In constants →
      Uses constants (e.needs locals) (e.code locals pool).1 pool.constants.size
        (e.code locals pool).2.constants.size
  | .null, _, _, _, _ => .plain rfl
  | .boolean b, _, _, _, _ => .plain (by cases b <;> rfl)
  | .number x, ⟨_, literal⟩, _, sound, h =>
      .one (.number x) (h _ _ (Pool.constant_add sound (.number literal) rfl)) rfl
  | .string chars, _, _, sound, h =>
      uses_string sound (.string chars) (fun text same => ⟨text, rfl, same⟩) h
  | .variable _, _, _, sound, h =>
      uses_access sound h Compiler.Target.read .read (fun text same => ⟨text, rfl, same⟩)
        (fun _ => rfl) (fun _ => rfl)
  | .grouping e, genuine, _, sound, h => e.uses genuine sound h
  | .unary op e, genuine, _, sound, h => (e.uses genuine sound h).before (by cases op <;> rfl)
  | .binary op a b, ⟨left, right⟩, _, sound, h => by
      have first := a.uses left sound ((b.le_code locals _).in h)
      have second := b.uses right (a.sound_code locals left _ sound) h
      exact (first.append second).before op.takers_code
  | .and a b, ⟨left, right⟩, _, sound, h => by
      have first := a.uses left sound ((b.le_code locals _).in h)
      have second := b.uses right (a.sound_code locals left _ sound) h
      exact first.append (second.to_code rfl)
  | .or a b, ⟨left, right⟩, _, sound, h => by
      have first := a.uses left sound ((b.le_code locals _).in h)
      have second := b.uses right (a.sound_code locals left _ sound) h
      exact first.append (second.to_code rfl)
  | .assign name e, genuine, _, sound, h =>
      -- the name is entered before the value is compiled
      (uses_access sound ((e.le_code locals _).in h) Compiler.Target.write .write
        (fun text same => ⟨text, rfl, same⟩) (fun _ => rfl) (fun _ => rfl)).swap
          (e.uses genuine (sound.resolve locals name) h)
  | .call f es, ⟨callee, arguments⟩, _, sound, h => by
      have first := f.uses callee sound ((Expression.le_listCode locals es _).in h)
      have others := Expression.uses_list es arguments (f.sound_code locals callee _ sound) h
      exact (first.append others).before rfl

theorem Expression.uses_list : (es : List Expression) → Expression.GenuineList es → {pool : Pool} →
    pool.Sound → (Expression.listCode locals es pool).2.In constants →
      Uses constants (Expression.listNeeds locals es) (Expression.listCode locals es pool).1
        pool.constants.size (Expression.listCode locals es pool).2.constants.size
  | [], _, _, _, _ => .plain rfl
  | e :: es, ⟨first, others⟩, _, sound, h =>
      (e.uses first sound ((Expression.le_listCode locals es _).in h)).append
        (Expression.uses_list es others (e.sound_code locals first _ sound) h)

end

theorem uses_initialCode {init : Option Expression} (genuine : ∀ e ∈ init, e.Genuine) {pool : Pool}
    (sound : pool.Sound) (h : (initialCode locals init pool).2.In constants) :
    Uses constants (clauseNeeds locals init) (initialCode locals init pool).1
      pool.constants.size (initialCode locals init pool).2.constants.size := by
  cases init with
  | none => exact .plain rfl
  | some e => exact e.uses locals (genuine e rfl) sound h

theorem uses_clauseCode {clause : Option Expression} (genuine : ∀ e ∈ clause, e.Genuine) {pool : Pool}
    (sound : pool.Sound) (h : (clauseCode locals clause pool).2.In constants) :
    Uses constants (clauseNeeds locals clause) ((clauseCode locals clause pool).1.getD [])
      pool.constants.size (clauseCode locals clause pool).2.constants.size := by
  cases clause with
  | none => exact .plain rfl
  | some e => exact e.uses locals (genuine e rfl) sound h

end

/-! ## Statements -/

section

variable {constants : Array Value}

theorem takers_marking (assignable : Bool) : takers (marking assignable) = [] := by
  cases assignable <;> rfl

theorem takers_chooseCells (test : List Asm) (yes no : List Cell) :
    takers (draft (chooseCells test yes no)) = takers (test ++ (draft yes ++ draft no)) := by
  simp only [chooseCells, draft_append, draft_ops, draft_cons, takers_append, takers_cons, Cell.draft]
  rfl

/-- The name of a declared variable, if it is global. -/
theorem uses_declare {depth : Nat} {name : String} {pool : Pool} (sound : pool.Sound)
    (h : (pool.declare depth name).2.In constants) :
    Uses constants (declareNeeds depth name)
      (if depth = 0 then [.indexed .defineGlobal (pool.declare depth name).1] else [])
      pool.constants.size (pool.declare depth name).2.constants.size := by
  unfold Pool.declare declareNeeds at *
  split
  · rename_i outside
    rw [if_pos outside] at h
    exact uses_string sound (.define name) (fun text same => ⟨text, rfl, same⟩) h
  · exact .plain rfl

/-- The routine of a function is made after the constants that are there, so it is a new one. -/
theorem uses_function {layout : Layout} {depth : Nat} {name : String} {parameters : List String} {s : Statement}
    {pool : Pool} (sound : pool.Sound) (dated : pool.Dated) :
    let global := pool.declare depth name
    let body := s.code layout (.function parameters) (global.2.function name)
    let routine := body.routine layout (some (global.2.heap.intern name).1) parameters.length (s.ending 1)
    let value := Pool.add ⟨routine.2, global.2.constants⟩ (.routine routine.1)
    value.2.In constants →
      Uses constants [.function name parameters.length] [.indexed .constant value.1]
        global.2.constants.size value.2.constants.size ∧ global.2.In constants := by
  intro global body routine value h
  have there := h _ _ ((dated.declare depth name).addRoutine (s.later_function ..)).2
  have chars : (global.2.heap.intern name).1.chars = name := (sound.declare depth name).heap.chars_text name
  refine ⟨.one (.function name parameters.length) there
    ⟨_, rfl, congrArg some chars, rfl⟩, fun i v found => ?_⟩
  exact h i v ((Pool.le_add ⟨routine.2, global.2.constants⟩ _).constants i v found)

/-- What the code of a statement does with constants. -/
theorem Statement.uses (layout : Layout) (s : Statement) (proper : s.Proper) {place : Place} (placed : place.Scoped)
    {pool : Pool} (sound : pool.Sound) (dated : pool.Dated)
    (h : (s.code layout place pool).pool.In constants) :
    Uses constants (s.needs place.locals place.depth) (draft (s.code layout place pool).cells)
      pool.constants.size (s.code layout place pool).pool.constants.size := by
  induction s generalizing place pool with
  | done => exact .plain rfl
  | leave | again =>
      refine .plain ?_
      simp only [Statement.code, draft_append, draft_ops, takers_append, takers_pops]
      rfl
  | print e | expression e =>
      simp only [Statement.code, draft_ops] at h ⊢
      exact (e.uses place.locals proper sound h).before rfl
  | giveBack value =>
      simp only [Statement.code, draft_ops] at h ⊢
      exact (uses_initialCode place.locals proper sound h).before rfl
  | next a b first rest =>
      have locals := a.locals_code layout proper.1 pool placed
      have after := placed.knowing a.depth_declared
      rw [← locals] at after
      simp only [Statement.code, draft_append] at h ⊢
      have front := first proper.1 placed sound dated ((b.le_code ..).in h)
      have back := rest proper.2 after (a.sound_code layout proper.1 place sound)
        (a.dated_code layout place dated) h
      rw [Place.knowing_locals, Place.knowing_depth, locals] at back
      rw [locals]
      exact front.append back
  | declare assignable name init =>
      simp only [Statement.code, Statement.needs] at h ⊢
      split at h
      · rename_i outside
        have named := uses_string sound (.define name) (fun text same => ⟨text, rfl, same⟩)
          ((le_initialCode ..).in h)
        have value := uses_initialCode place.locals proper (sound.addString name) h
        rw [if_pos outside, declareNeeds, if_pos outside, draft_ops]
        refine (named.swap value).to_code ?_
        rw [takers_append, takers_append, takers_append, takers_marking]
        rfl
      · rename_i inside
        have value := uses_initialCode place.locals proper sound h
        rw [if_neg inside, declareNeeds, if_neg inside, draft_ops, List.append_nil]
        exact value.before (takers_marking assignable)
  | block s ih =>
      simp only [Statement.code, draft_append, draft_ops] at h ⊢
      exact (ih proper placed.inner sound dated h).before (takers_pops _)
  | choose c s t yes no =>
      obtain ⟨test, left, right, flat, -⟩ := proper
      have sounds := c.sound_code place.locals test pool sound
      have dates := dated.code place.locals c
      have locals := s.locals_code layout left (c.code place.locals pool).2 placed
      rw [flat.declared, List.nil_append] at locals
      simp only [Statement.code] at h ⊢
      rw [locals, Place.knowing_self] at h ⊢
      have tested := c.uses place.locals test sound (((s.le_code ..).trans (t.le_code ..)).in h)
      have first := yes left placed sounds dates ((t.le_code ..).in h)
      have second := no right placed (s.sound_code layout left place sounds) (s.dated_code layout place dates) h
      refine ((tested.append first).append second).to_code ?_
      rw [takers_chooseCells, List.append_assoc]
  | loop test step s ih =>
      obtain ⟨tested, stepped, inside, -⟩ := proper
      have sounds := sound_clauseCode place.locals tested sound
      simp only [Statement.code] at h ⊢
      have first := uses_clauseCode place.locals tested sound (((le_clauseCode ..).trans (s.le_code ..)).in h)
      have second := uses_clauseCode place.locals stepped sounds ((s.le_code ..).in h)
      have body := ih inside placed.looped (sound_clauseCode place.locals stepped sounds)
        ((dated.clauseCode place.locals test).clauseCode place.locals step) h
      refine ((first.append second).append body).to_code ?_
      rw [takers_loopCode, takers_append, takers_append]
  | define name parameters s =>
      simp only [Statement.code] at h ⊢
      split at h
      · rename_i outside
        obtain ⟨loaded, before⟩ := uses_function sound dated h
        rw [if_pos outside, draft_ops]
        refine ((uses_declare sound before).swap loaded).to_code ?_
        rw [if_pos outside]
        rfl
      · rename_i inside
        obtain ⟨loaded, before⟩ := uses_function sound dated h
        rw [if_neg inside, draft_ops]
        refine ((uses_declare sound before).swap loaded).to_code ?_
        rw [if_neg inside]
        rfl

end

end StackScript
