import StackScript.Proofs.Code.Parallel
import StackScript.Proofs.Code.Twins

/-!
# The code of one tree in two places

Wherever a tree stands in a program, its code does the same: it is parallel to its code
anywhere else.  The constants may be at other places of the pool, which were filled before with
whatever the code in front of it needs.
-/

namespace StackScript

/-- The constants of the pool are where they were. -/
def Pool.In (pool : Pool) (constants : Array Value) : Prop :=
  ∀ (i : Nat) (v : Value), pool.constants[i]? = some v → constants[i]? = some v

theorem Pool.Le.in {p q : Pool} (le : p.Le q) {constants : Array Value} (h : q.In constants) :
    p.In constants := fun i v found => h i v (le.constants i v found)

section

variable {pairs : Routine → Routine → Prop} {constants constants' : Array Value}

theorem Pool.In.string {pool : Pool} {chars : String} (sound : pool.Sound)
    (h : (pool.addString chars).2.In constants) :
    ∃ text, constants[(pool.addString chars).1]? = some (.string text) ∧ text.chars = chars := by
  have found := Pool.constant_addString sound chars (.refl _)
  exact ⟨_, h _ _ found, (sound.addString chars).heap.chars_text chars⟩

/-- The pieces of code do the same with these constants. -/
abbrev Along (pairs : Routine → Routine → Prop) (constants constants' : Array Value) :
    List Cell → List Cell → Prop :=
  Parallel (Asm.Agrees (Value.Like pairs) constants constants')

theorem Along.indexed {op : Opcode} (long : op.longForm ≠ op) {i i' : Nat} {v v' : Value}
    (there : constants[i]? = some v) (there' : constants'[i']? = some v') (like : v.Like pairs v')
    (text : op ≠ .constant → v.asText?.isSome) :
    Along pairs constants constants' (ops [.indexed op i]) (ops [.indexed op i']) := by
  refine .single (.constant long there there' like text) ?_
  rcases Asm.indexed_eq op i with same | same <;>
    (rw [same]; cases op <;> first | rfl | exact absurd rfl long)

/-- Instructions that take no constant and do not jump. -/
theorem Along.flat {code : List Asm}
    (plain : ∀ a ∈ code, a.opcode.takesConstant = false ∧ a.opcode.jumps = false) :
    Along pairs constants constants' (ops code) (ops code) := by
  induction code with
  | nil => exact .nil
  | cons a code ih =>
      obtain ⟨first, others⟩ := List.forall_mem_cons.mp plain
      exact Parallel.append (.plain first.1 first.2) (ih others)

/-- What is put behind the code of a routine takes no constant and does not jump. -/
theorem Ending.plain_closing (ending : Ending) :
    ∀ a ∈ ending.closing, a.opcode.takesConstant = false ∧ a.opcode.jumps = false := by
  cases ending <;> simp [closing, Asm.plain, Opcode.takesConstant, Opcode.jumps]

/-- A jump over some code. -/
theorem Along.skip {op : Opcode} (forward : op = .jump ∨ op = .jumpIfFalse) {code code' : List Asm}
    (h : Along pairs constants constants' (ops code) (ops code')) :
    Along pairs constants constants' (ops (⟨op, codeSize code⟩ :: code))
      (ops (⟨op, codeSize code'⟩ :: code')) := by
  have jumped := h.jumpOver forward
  rwa [cellsSize_ops, cellsSize_ops] at jumped

/-- A jump over some code, unless it is skipped itself. -/
theorem Along.skipUnless {code code' : List Asm}
    (h : Along pairs constants constants' (ops code) (ops code')) :
    Along pairs constants constants'
      (ops (⟨.jumpIfFalse, codeSize [⟨.jump, codeSize code⟩]⟩ :: ([⟨.jump, codeSize code⟩] ++ code)))
      (ops (⟨.jumpIfFalse, codeSize [⟨.jump, codeSize code'⟩]⟩ ::
        ([⟨.jump, codeSize code'⟩] ++ code'))) := by
  have length : (ops [⟨.jump, codeSize code⟩]).length = (ops [⟨.jump, codeSize code'⟩]).length := rfl
  exact Parallel.jumpTo (.inr rfl) length (h.skip (.inl rfl))

/-- A value is dropped first. -/
theorem Along.popped {code code' : List Asm} (h : Along pairs constants constants' (ops code) (ops code')) :
    Along pairs constants constants' (ops (.plain .pop :: code)) (ops (.plain .pop :: code')) :=
  Parallel.append (.plain rfl rfl) h

variable {p q : Pool} (sound : p.Sound) (sound' : q.Sound)

include sound sound'

theorem Along.named {op : Opcode} (long : op.longForm ≠ op) {chars : String}
    (h : (p.addString chars).2.In constants) (h' : (q.addString chars).2.In constants') :
    Along pairs constants constants' (ops [.indexed op (p.addString chars).1])
      (ops [.indexed op (q.addString chars).1]) := by
  obtain ⟨text, there, same⟩ := h.string sound
  obtain ⟨text', there', same'⟩ := h'.string sound'
  exact .indexed long there there' (.of (.string (same.trans same'.symm))) fun _ => rfl

theorem Along.number {lexeme : String} {x : Float} (literal : Number.ofLiteral? lexeme = some x)
    (h : (p.add (.number x)).2.In constants) (h' : (q.add (.number x)).2.In constants') :
    Along pairs constants constants' (ops [.indexed .constant (p.add (.number x)).1])
      (ops [.indexed .constant (q.add (.number x)).1]) :=
  .indexed (by decide) (h _ _ (Pool.constant_add sound (.number literal) rfl))
    (h' _ _ (Pool.constant_add sound' (.number literal) rfl)) (.number x) (by simp)

/-- An access to a variable.  Only for a global one it takes a constant, the name. -/
theorem Along.access (access : Compiler.Target → Asm) {op : Opcode} (long : op.longForm ≠ op)
    (global : ∀ i, access (.global i) = .indexed op i)
    (slot : ∀ i, (access (.slot i)).opcode.takesConstant = false ∧ (access (.slot i)).opcode.jumps = false)
    {locals : List LocalVariable} {name : String}
    (h : (p.resolve locals name).2.In constants) (h' : (q.resolve locals name).2.In constants') :
    Along pairs constants constants' (ops [access (p.resolve locals name).1])
      (ops [access (q.resolve locals name).1]) := by
  unfold Pool.resolve at *
  generalize Body.findLocal name locals = found at *
  cases found with
  | some found => exact .plain (slot found.1).1 (slot found.1).2
  | none =>
      simp only [global]
      exact Along.named sound sound' long h h'

end

/-! ## Expressions -/

section

variable {pairs : Routine → Routine → Prop} {constants constants' : Array Value}
  (locals : List LocalVariable)

mutual

/-- The code of an expression does the same wherever it stands. -/
theorem Expression.along : (e : Expression) → e.Genuine → {p q : Pool} → p.Sound → q.Sound →
    (e.code locals p).2.In constants → (e.code locals q).2.In constants' →
      Along pairs constants constants' (ops (e.code locals p).1) (ops (e.code locals q).1)
  | .null, _, _, _, _, _, _, _ => .plain rfl rfl
  | .boolean b, _, _, _, _, _, _, _ => .plain (by cases b <;> rfl) (by cases b <;> rfl)
  | .number _, ⟨_, literal⟩, _, _, sound, sound', h, h' => .number sound sound' literal h h'
  | .string _, _, _, _, sound, sound', h, h' => .named sound sound' (by decide) h h'
  | .variable _, _, _, _, sound, sound', h, h' =>
      .access sound sound' Compiler.Target.read (by decide) (fun _ => rfl) (fun _ => ⟨rfl, rfl⟩) h h'
  | .grouping e, genuine, _, _, sound, sound', h, h' => e.along genuine sound sound' h h'
  | .unary op e, genuine, _, _, sound, sound', h, h' => by
      simp only [Expression.code, ops_append] at h h' ⊢
      exact (e.along genuine sound sound' h h').append (.plain (by cases op <;> rfl) (by cases op <;> rfl))
  | .binary op a b, ⟨left, right⟩, p, q, sound, sound', h, h' => by
      simp only [Expression.code, ops_append] at h h' ⊢
      have first := a.along left sound sound' ((b.le_code locals _).in h) ((b.le_code locals _).in h')
      have second := b.along right (a.sound_code locals left _ sound) (a.sound_code locals left _ sound') h h'
      exact (first.append second).append (Along.flat (by cases op <;> decide))
  | .and a b, ⟨left, right⟩, p, q, sound, sound', h, h' => by
      simp only [Expression.code, ops_append] at h h' ⊢
      have first := a.along left sound sound' ((b.le_code locals _).in h) ((b.le_code locals _).in h')
      have second := b.along right (a.sound_code locals left _ sound) (a.sound_code locals left _ sound') h h'
      exact first.append (Along.skip (.inr rfl) (Along.popped second))
  | .or a b, ⟨left, right⟩, p, q, sound, sound', h, h' => by
      simp only [Expression.code, ops_append] at h h' ⊢
      have first := a.along left sound sound' ((b.le_code locals _).in h) ((b.le_code locals _).in h')
      have second := b.along right (a.sound_code locals left _ sound) (a.sound_code locals left _ sound') h h'
      exact first.append (Along.skipUnless (Along.popped second))
  | .assign name e, genuine, p, q, sound, sound', h, h' => by
      simp only [Expression.code, ops_append] at h h' ⊢
      have value := e.along genuine (sound.resolve locals name) (sound'.resolve locals name) h h'
      exact value.append (Along.access sound sound' Compiler.Target.write (by decide) (fun _ => rfl)
        (fun _ => ⟨rfl, rfl⟩) ((e.le_code locals _).in h) ((e.le_code locals _).in h'))
  | .call f es, ⟨callee, arguments⟩, p, q, sound, sound', h, h' => by
      simp only [Expression.code, ops_append] at h h' ⊢
      have first := f.along callee sound sound' ((Expression.le_listCode locals es _).in h)
        ((Expression.le_listCode locals es _).in h')
      have others := Expression.along_list es arguments (f.sound_code locals callee _ sound)
        (f.sound_code locals callee _ sound') h h'
      exact (first.append others).append (.plain rfl rfl)

theorem Expression.along_list : (es : List Expression) → Expression.GenuineList es → {p q : Pool} →
    p.Sound → q.Sound → (Expression.listCode locals es p).2.In constants →
      (Expression.listCode locals es q).2.In constants' →
        Along pairs constants constants' (ops (Expression.listCode locals es p).1)
          (ops (Expression.listCode locals es q).1)
  | [], _, _, _, _, _, _, _ => .nil
  | e :: es, ⟨genuine, others⟩, _, _, sound, sound', h, h' => by
      simp only [Expression.listCode, ops_append] at h h' ⊢
      have first := e.along genuine sound sound' ((Expression.le_listCode locals es _).in h)
        ((Expression.le_listCode locals es _).in h')
      exact first.append (Expression.along_list es others (e.sound_code locals genuine _ sound)
        (e.sound_code locals genuine _ sound') h h')

end

theorem along_initialCode {init : Option Expression} (genuine : ∀ e ∈ init, e.Genuine) {p q : Pool}
    (sound : p.Sound) (sound' : q.Sound) (h : (initialCode locals init p).2.In constants)
    (h' : (initialCode locals init q).2.In constants') :
    Along pairs constants constants' (ops (initialCode locals init p).1)
      (ops (initialCode locals init q).1) := by
  cases init with
  | none => exact .plain rfl rfl
  | some e => exact e.along locals (genuine e rfl) sound sound' h h'

theorem along_clauseCode {clause : Option Expression} (genuine : ∀ e ∈ clause, e.Genuine) {p q : Pool}
    (sound : p.Sound) (sound' : q.Sound) (h : (clauseCode locals clause p).2.In constants)
    (h' : (clauseCode locals clause q).2.In constants') :
    Option.Rel (fun code code' => Along pairs constants constants' (ops code) (ops code'))
      (clauseCode locals clause p).1 (clauseCode locals clause q).1 := by
  cases clause with
  | none => exact .none
  | some e => exact .some (e.along locals (genuine e rfl) sound sound' h h')

end

/-! ## Routines among the constants -/

/-- The routines among the constants were made before. -/
def Pool.Dated (pool : Pool) : Prop :=
  ∀ v ∈ pool.constants, ∀ r, v.datum = .routine r → r.id < pool.heap.routines

theorem Pool.dated_of_fresh {pool : Pool} (fresh : pool.constants = #[]) : pool.Dated := by
  intro v mem
  rw [fresh] at mem
  exact absurd mem (Array.not_mem_empty v)

namespace Pool.Dated

variable {p q : Pool}

/-- Literals are no routines. -/
theorem keeps (limit : Nat) : Keeps Value.Literal fun constants =>
    ∀ v ∈ constants, ∀ r, v.datum = .routine r → r.id < limit := by
  intro heap constants v literal h w mem r same
  unfold Pool.add at mem
  split at mem
  · exact h w mem r same
  · rcases Array.mem_push.mp mem with old | rfl
    · exact h w old r same
    · cases literal <;> cases same

section

variable (h : p.Dated)

include h

theorem addString (chars : String) : (p.addString chars).2.Dated := by
  unfold Dated
  rw [p.routines_addString]
  exact (keeps _).addString (fun _ => id) h chars

theorem declare (depth : Nat) (name : String) : (p.declare depth name).2.Dated := by
  unfold Dated
  rw [p.routines_declare]
  exact (keeps _).declare (fun _ => id) h depth name

theorem code (locals : List LocalVariable) (e : Expression) : (e.code locals p).2.Dated := by
  unfold Dated
  rw [e.routines_code]
  exact e.kept_code (keeps _) (fun _ => id) locals h

theorem initialCode (locals : List LocalVariable) (init : Option Expression) :
    (initialCode locals init p).2.Dated := by
  unfold Dated
  rw [routines_initialCode]
  exact kept_initialCode (keeps _) (fun _ => id) locals h init

theorem clauseCode (locals : List LocalVariable) (clause : Option Expression) :
    (clauseCode locals clause p).2.Dated := by
  unfold Dated
  rw [routines_clauseCode]
  exact kept_clauseCode (keeps _) (fun _ => id) locals h clause

end

section

variable {layout : Layout} {name : Option Text} {arity : Nat} {ending : Ending} {body : Coded}
  (h : p.Dated) (later : p.heap.routines ≤ body.pool.heap.routines)

include h later

/-- A routine that is made after the constants is a new one. -/
theorem add_routine :
    let made := body.routine layout name arity ending
    Pool.add ⟨made.2, p.constants⟩ (.routine made.1) =
      (p.constants.size, ⟨made.2, p.constants.push (.routine made.1)⟩) := by
  intro made
  have id : made.1.id = body.pool.heap.routines := rfl
  have missing : p.constants.findIdx? (· == Value.routine made.1) = none := by
    rw [Array.findIdx?_eq_none_iff]
    intro v mem
    obtain ⟨datum, assignable⟩ := v
    cases datum with
    | routine r =>
        have old := h _ mem r rfl
        have distinct : r.id ≠ made.1.id := by omega
        exact show (r.id == made.1.id) = false from beq_false_of_ne distinct
    | _ => rfl
  unfold Pool.add
  dsimp only
  rw [missing]

/-- It is put into the pool. -/
theorem addRoutine :
    let made := body.routine layout name arity ending
    (Pool.add ⟨made.2, p.constants⟩ (.routine made.1)).2.Dated ∧
      (Pool.add ⟨made.2, p.constants⟩ (.routine made.1)).2.constants[
        (Pool.add ⟨made.2, p.constants⟩ (.routine made.1)).1]? = some (.routine made.1) := by
  intro made
  rw [h.add_routine later]
  refine ⟨fun v mem r same => ?_, by simp [made]⟩
  show r.id < body.pool.heap.routines + 1
  rcases Array.mem_push.mp mem with old | rfl
  · exact ((h v old r same).trans_le later).trans (Nat.lt_succ_self _)
  · obtain rfl := Datum.routine.inj same
    exact Nat.lt_succ_self _

end

end Pool.Dated

/-- Routines that are paired are loaded alike. -/
theorem along_addRoutine {pairs : Routine → Routine → Prop} {constants constants' : Array Value}
    {layout layout' : Layout} {name name' : Option Text} {arity : Nat} {ending : Ending}
    {body body' : Coded} {p q : Pool} (dated : p.Dated) (dated' : q.Dated)
    (later : p.heap.routines ≤ body.pool.heap.routines)
    (later' : q.heap.routines ≤ body'.pool.heap.routines)
    (paired : pairs (body.routine layout name arity ending).1 (body'.routine layout' name' arity ending).1)
    (h : (Pool.add ⟨(body.routine layout name arity ending).2, p.constants⟩
      (.routine (body.routine layout name arity ending).1)).2.In constants)
    (h' : (Pool.add ⟨(body'.routine layout' name' arity ending).2, q.constants⟩
      (.routine (body'.routine layout' name' arity ending).1)).2.In constants') :
    Along pairs constants constants'
        (ops [.indexed .constant (Pool.add ⟨(body.routine layout name arity ending).2, p.constants⟩
          (.routine (body.routine layout name arity ending).1)).1])
        (ops [.indexed .constant (Pool.add ⟨(body'.routine layout' name' arity ending).2, q.constants⟩
          (.routine (body'.routine layout' name' arity ending).1)).1]) ∧
      p.In constants ∧ q.In constants' := by
  refine ⟨.indexed (by decide) (h _ _ (dated.addRoutine later).2) (h' _ _ (dated'.addRoutine later').2)
    (.of (.routine paired)) (by simp), fun i v found => ?_, fun i v found => ?_⟩
  · exact h i v ((Pool.le_add _ _).constants i v found)
  · exact h' i v ((Pool.le_add _ _).constants i v found)

/-- The routines among the constants of a statement were made by then. -/
theorem Statement.dated_code (layout : Layout) (s : Statement) (place : Place) {pool : Pool}
    (h : pool.Dated) : (s.code layout place pool).pool.Dated := by
  induction s generalizing place pool with
  | done | leave | again => exact h
  | print e | expression e => exact h.code place.locals e
  | giveBack value => exact h.initialCode place.locals value
  | next a b first rest => exact rest _ (first _ h)
  | declare assignable name init =>
      simp only [Statement.code]
      split
      · exact (h.addString name).initialCode place.locals init
      · exact h.initialCode place.locals init
  | block s ih => exact ih _ h
  | choose c s t yes no => exact no _ (yes _ (h.code place.locals c))
  | loop test step s ih => exact ih _ ((h.clauseCode place.locals test).clauseCode place.locals step)
  | define name parameters s =>
      simp only [Statement.code]
      split
      · exact ((h.declare place.depth name).addRoutine (s.later_function ..)).1
      · exact ((h.declare place.depth name).addRoutine (s.later_function ..)).1

/-! ## Statements -/

section

variable {pairs : Routine → Routine → Prop} {constants constants' : Array Value}

theorem along_pops (locals : List LocalVariable) :
    Along pairs constants constants' (ops (pops locals)) (ops (pops locals)) := by
  refine Along.flat fun a mem => ?_
  obtain ⟨var, -, rfl⟩ := List.mem_map.mp mem
  exact ⟨rfl, rfl⟩

theorem along_marking (assignable : Bool) :
    Along pairs constants constants' (ops (marking assignable)) (ops (marking assignable)) :=
  Along.flat (by cases assignable <;> decide)

/-- One of two pieces of code, the first of which skips the other. -/
theorem along_branches {yes yes' no no' : List Cell} (first : Along pairs constants constants' yes yes')
    (second : Along pairs constants constants' no no') :
    Along pairs constants constants'
      (.op ⟨.jumpIfFalse, cellsSize (yes ++ [.op ⟨.jump, cellsSize no⟩])⟩ ::
        (yes ++ .op ⟨.jump, cellsSize no⟩ :: no))
      (.op ⟨.jumpIfFalse, cellsSize (yes' ++ [.op ⟨.jump, cellsSize no'⟩])⟩ ::
        (yes' ++ .op ⟨.jump, cellsSize no'⟩ :: no')) := by
  have branches := first.append (second.jumpOver (.inl rfl))
  rw [List.append_cons yes _ no, List.append_cons yes' _ no'] at branches ⊢
  exact branches.jumpTo (.inr rfl) (by simp [first.length])

theorem along_chooseCells {test test' : List Asm} {yes yes' no no' : List Cell}
    (condition : Along pairs constants constants' (ops test) (ops test'))
    (first : Along pairs constants constants' yes yes') (second : Along pairs constants constants' no no') :
    Along pairs constants constants' (chooseCells test yes no) (chooseCells test' yes' no') := by
  have dropped {cells cells' : List Cell} (h : Along pairs constants constants' cells cells') :
      Along pairs constants constants' (.op (.plain .pop) :: cells) (.op (.plain .pop) :: cells') :=
    Parallel.append (.plain rfl rfl) h
  exact condition.append (along_branches (dropped first) (dropped second))

end

/-- The same function is made in both places, so only its identity may differ. -/
theorem along_define {ids : Nat → Nat → Prop} (one : OneToOne ids) {pairs : Routine → Routine → Prop}
    (twins : ∀ {r r'}, r.Twin ids r' → pairs r r') {constants constants' : Array Value}
    (layout layout' : Layout) (name : String) (parameters : List String) (s : Statement) {place : Place}
    {p q : Pool} (sound : p.Sound) (sound' : q.Sound) (dated : p.Dated) (dated' : q.Dated)
    (fresh : Fresh ids (Statement.define name parameters s).functions.length p q)
    (h : ((Statement.define name parameters s).code layout place p).pool.In constants)
    (h' : ((Statement.define name parameters s).code layout' place q).pool.In constants') :
    Along pairs constants constants' ((Statement.define name parameters s).code layout place p).cells
      ((Statement.define name parameters s).code layout' place q).cells := by
  have begun : Fresh ids (s.functions.length + 1) ((p.declare place.depth name).2.function name)
      ((q.declare place.depth name).2.function name) := by
    simpa [Fresh, Statement.functions] using fresh
  have named := sound.declare place.depth name
  have named' := sound'.declare place.depth name
  have text : ((p.declare place.depth name).2.heap.intern name).1.chars =
      ((q.declare place.depth name).2.heap.intern name).1.chars :=
    (named.heap.chars_text name).trans (named'.heap.chars_text name).symm
  have empty : Pool.Twin ids ((p.declare place.depth name).2.function name)
      ((q.declare place.depth name).2.function name) :=
    ⟨(named.function name).heap, (named'.function name).heap, .nil⟩
  obtain ⟨same, pools⟩ := @Statement.twins _ one layout layout' s (.function parameters) _ _ empty
    (begun.le (Nat.le_succ _))
  -- the function's own identity comes after those of the functions inside it
  have id := begun s.functions.length (Nat.lt_succ_self _)
  rw [← s.routines_code layout (.function parameters), ← s.routines_code layout' (.function parameters)] at id
  have paired : pairs
      ((s.code layout (.function parameters) _).routine layout _ parameters.length (s.ending 1)).1
      ((s.code layout' (.function parameters) _).routine layout' _ parameters.length (s.ending 1)).1 :=
    twins (Coded.twins text same pools id)
  simp only [Statement.code] at h h' ⊢
  split at h
  · rename_i outside
    rw [if_pos outside] at h' ⊢
    rw [if_pos outside]
    obtain ⟨loaded, before, before'⟩ := along_addRoutine (dated.declare place.depth name)
      (dated'.declare place.depth name) (s.later_function ..) (s.later_function ..) paired h h'
    have declares (pool : Pool) : pool.declare place.depth name = pool.addString name :=
      if_pos outside
    rw [declares] at before before'
    rw [declares, declares] at loaded ⊢
    exact loaded.append (Along.named sound sound' (by decide) before before')
  · rename_i inside
    rw [if_neg inside] at h' ⊢
    rw [if_neg inside]
    exact (along_addRoutine (dated.declare place.depth name)
      (dated'.declare place.depth name) (s.later_function ..) (s.later_function ..) paired h h').1

/-- The code of a statement does the same wherever it stands, if its functions may be confused. -/
theorem Statement.along {ids : Nat → Nat → Prop} (one : OneToOne ids) {pairs : Routine → Routine → Prop}
    (twins : ∀ {r r'}, r.Twin ids r' → pairs r r') {constants constants' : Array Value}
    (layout layout' : Layout) (s : Statement) (proper : s.Proper) {place : Place} {p q : Pool}
    (sound : p.Sound) (sound' : q.Sound) (dated : p.Dated) (dated' : q.Dated)
    (fresh : Fresh ids s.functions.length p q) (h : (s.code layout place p).pool.In constants)
    (h' : (s.code layout' place q).pool.In constants') :
    Along pairs constants constants' (s.code layout place p).cells (s.code layout' place q).cells := by
  induction s generalizing place p q with
  | done => exact .nil
  | leave => exact (along_pops _).append .leave
  | again => exact (along_pops _).append .again
  | print e | expression e =>
      simp only [Statement.code, ops_append]
      exact (e.along place.locals proper sound sound' h h').append (.plain rfl rfl)
  | giveBack value =>
      simp only [Statement.code, ops_append]
      exact (along_initialCode place.locals proper sound sound' h h').append (.plain rfl rfl)
  | next a b first rest =>
      rw [Statement.functions, List.length_append] at fresh
      simp only [Statement.code] at h h' ⊢
      -- both sides declare the same locals, whatever their pools
      rw [a.locals_eq layout' layout place q p] at h' ⊢
      refine (first proper.1 sound sound' dated dated' (fresh.le (Nat.le_add_right _ _))
        ((b.le_code ..).in h) ((b.le_code ..).in h')).append ?_
      exact rest proper.2 (a.sound_code layout proper.1 place sound) (a.sound_code layout' proper.1 place sound')
        (a.dated_code layout place dated) (a.dated_code layout' place dated')
        (fresh.after (a.routines_code ..) (a.routines_code ..)) h h'
  | declare assignable name init =>
      simp only [Statement.code] at h h' ⊢
      split at h
      · rename_i outside
        rw [if_pos outside] at h' ⊢
        rw [if_pos outside]
        simp only [ops_append]
        exact (along_initialCode place.locals proper (sound.addString name) (sound'.addString name) h h').append
          ((along_marking assignable).append (Along.named sound sound' (by decide)
            ((le_initialCode ..).in h) ((le_initialCode ..).in h')))
      · rename_i inside
        rw [if_neg inside] at h' ⊢
        rw [if_neg inside]
        simp only [ops_append]
        exact (along_initialCode place.locals proper sound sound' h h').append (along_marking assignable)
  | block s ih =>
      simp only [Statement.code] at h h' ⊢
      rw [s.locals_eq layout' layout place.inner q p]
      exact (ih proper sound sound' dated dated' fresh h h').append (along_pops _)
  | choose c s t yes no =>
      obtain ⟨test, left, right, -⟩ := proper
      rw [Statement.functions, List.length_append] at fresh
      have tested : Fresh ids (s.functions.length + t.functions.length) (c.code place.locals p).2
          (c.code place.locals q).2 := by simpa [Fresh] using fresh
      have sounds := c.sound_code place.locals test p sound
      have sounds' := c.sound_code place.locals test q sound'
      have dates := dated.code place.locals c
      have dates' := dated'.code place.locals c
      simp only [Statement.code] at h h' ⊢
      rw [s.locals_eq layout' layout place _ (c.code place.locals p).2] at h' ⊢
      refine along_chooseCells (c.along place.locals test sound sound'
          (((s.le_code ..).trans (t.le_code ..)).in h) (((s.le_code ..).trans (t.le_code ..)).in h'))
        (yes left sounds sounds' dates dates' (tested.le (Nat.le_add_right _ _)) ((t.le_code ..).in h)
          ((t.le_code ..).in h')) ?_
      exact no right (s.sound_code layout left place sounds) (s.sound_code layout' left place sounds')
        (s.dated_code layout place dates) (s.dated_code layout' place dates')
        (tested.after (s.routines_code ..) (s.routines_code ..)) h h'
  | loop test step s ih =>
      obtain ⟨tested, stepped, inside, -⟩ := proper
      simp only [Statement.code] at h h' ⊢
      have sounds := sound_clauseCode place.locals tested sound
      have sounds' := sound_clauseCode place.locals tested sound'
      refine Parallel.loopCode
        (along_clauseCode place.locals tested sound sound' (((le_clauseCode ..).trans (s.le_code ..)).in h)
          (((le_clauseCode ..).trans (s.le_code ..)).in h'))
        (along_clauseCode place.locals stepped sounds sounds' ((s.le_code ..).in h) ((s.le_code ..).in h')) ?_
      exact ih inside (sound_clauseCode place.locals stepped sounds) (sound_clauseCode place.locals stepped sounds')
        ((dated.clauseCode place.locals test).clauseCode place.locals step)
        ((dated'.clauseCode place.locals test).clauseCode place.locals step)
        (by simpa [Fresh, Statement.functions] using fresh) h h'
  | define name parameters s =>
      exact along_define one twins layout layout' name parameters s sound sound' dated dated' fresh h h'

end StackScript
