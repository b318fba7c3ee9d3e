import StackScript.Proofs.Parsing.Statement

/-!
# Reading declarations

A variable outside every scope is bound by name when its value is known.  Inside a
scope it becomes a local first, one without a slot, and the code of its initial value
may not mention it.
-/

namespace StackScript

/-- An initial value. -/
def Coder.initial (init : Option Expression) : Coder := fun place pool =>
  ⟨ops (initialCode place.locals init pool).1, place.locals, (initialCode place.locals init pool).2⟩

/-- An initial value that does not mention the local being declared. -/
theorem initialCode_live {outer : List (List LocalVariable)} {locals : List LocalVariable}
    {init : Option Expression} (known : ∀ e ∈ init, Compiler.Known outer locals e.names)
    (pool : Pool) :
    initialCode (locals.dropWhile (·.depth.isNone)) init pool = initialCode locals init pool := by
  cases init with
  | none => rfl
  | some e => exact e.code_live (known e rfl) pool

namespace Compiler

variable {c : Compiler} {f g : Token} {rest tail : List Token}

/-- A local being declared is the only one without a slot. -/
theorem live_pending (fits : c.place.Scoped) (name : String) :
    (⟨name, none⟩ :: c.place.locals : List LocalVariable).dropWhile (·.depth.isNone) =
      c.place.locals := by
  have all : ∀ var ∈ c.place.locals, var.depth.isSome := by
    intro var mem
    obtain ⟨d, known, -⟩ := fits.locals var mem
    rw [known]
    rfl
  have first : (⟨name, none⟩ : LocalVariable).depth.isNone := rfl
  rw [List.dropWhile_cons, if_pos first]
  cases known : c.place.locals with
  | nil => rfl
  | cons var older =>
      have settles := all var (by rw [known]; exact List.mem_cons_self ..)
      rw [List.dropWhile_cons, if_neg (by simpa [Option.isSome_iff_ne_none] using settles)]

/-! ## Names -/

/-- The name of a global becomes a constant. -/
theorem stage_globalName {n : Token} (outside : c.body.depth = 0)
    (stream : c.stream = n :: g :: tail) (name : n.kind = .identifier) (thing : String) :
    Stage c (c.parseVariable thing).2 (g :: tail)
      (Coding c (c.parseVariable thing).2 (fun place pool =>
          ⟨[], place.locals, (pool.addString n.lexeme).2⟩) ∧
        (c.parseVariable thing).1 = (c.pool.addString n.lexeme).1 ∧
        (c.pool.addString n.lexeme).1 < 2 ^ 32) := by
  have same : c.parseVariable thing = c.advance.nameIndex n.lexeme := by
    have there : c.check .identifier = true := by rw [check_of_stream stream, name]; rfl
    simp only [parseVariable, consume_of_check there, declareVariable, advance_body, outside,
      if_true, Nat.lt_irrefl, if_false, advance_previous, current_of_stream stream]
  rw [same]
  refine ((stage_advance stream).andThen (acts_nameIndex c.advance n.lexeme) fun stream =>
    stage_still stream (acts_nameIndex _ _) emits_nameIndex).map ?_
  rintro ⟨read, index, small, named⟩
  have pooled : c.advance.pool = c.pool := read.pooled
  rw [pooled] at index small named
  refine ⟨?_, index, small⟩
  have written := named.writes
  rw [advance_body] at written
  exact read.trans written

/-- A new local is known from now on, without a slot. -/
theorem writes_addLocal {name : String} (quiet : Quiet c (c.addLocal name)) :
    Writes c (c.addLocal name) [] (⟨name, none⟩ :: c.body.locals) c.pool := by
  unfold addLocal at quiet ⊢
  split at quiet
  · exact absurd quiet (not_quiet_report _ _)
  · rename_i few
    rw [if_neg few]
    refine ⟨by simp [draft, mapBody], rfl, ⟨rfl, rfl⟩, rfl, rfl, ?_, rfl, by simp [draft], ?_⟩
    · exact (record_ops _ [] _).symm
    · intro _
      show c.body.locals.length + 1 ≤ _
      omega

theorem declareVariable_depth (c : Compiler) : c.declareVariable.body.depth = c.body.depth := by
  have added (c : Compiler) (name : String) : (c.addLocal name).body.depth = c.body.depth := by
    unfold addLocal
    split
    · rw [report_body]
    · rfl
  unfold declareVariable
  split
  · rfl
  · rw [added]
    split
    · rw [report_body]
    · rfl

/-- The name of a local becomes known. -/
theorem stage_localName {n : Token} (inside : 0 < c.body.depth)
    (stream : c.stream = n :: g :: tail) (name : n.kind = .identifier) (thing : String) :
    Stage c (c.parseVariable thing).2 (g :: tail)
      (Coding c (c.parseVariable thing).2 fun place pool =>
        ⟨[], ⟨n.lexeme, none⟩ :: place.locals, pool⟩) := by
  have there : c.check .identifier = true := by rw [check_of_stream stream, name]; rfl
  have deep : c.advance.body.depth ≠ 0 := by
    rw [advance_body]
    omega
  have read := stage_advance stream
  have declared : Acts true c.advance c.advance.declareVariable := acts_declareVariable _
  have parsed : Quiet c c.advance.declareVariable →
      Writes c c.advance.declareVariable [] (⟨n.lexeme, none⟩ :: c.body.locals) c.pool := by
    intro quiet
    obtain ⟨-, quiet⟩ := quiet.split read.acts declared
    simp only [declareVariable, deep, if_false, advance_previous, current_of_stream stream]
      at quiet ⊢
    -- a second declaration in the same scope is reported
    split at quiet
    · have static : (Problem.redeclared n.lexeme).isStatic = true := rfl
      have added := quiet.split (acts_report _ static) (acts_addLocal _ _)
      exact absurd added.1 (not_quiet_report _ _)
    · rename_i fresh
      rw [if_neg fresh]
      have added := writes_addLocal quiet
      rw [advance_body, show c.advance.pool = c.pool from (emits_advance c).pooled] at added
      exact Writes.after (emits_advance c) added
  have same : (c.parseVariable thing).2 = c.advance.declareVariable := by
    have deep : 0 < c.advance.declareVariable.body.depth := by
      rw [declareVariable_depth, advance_body]
      exact inside
    simp only [parseVariable, consume_of_check there, deep, if_true]
  rw [same]
  have still : Acts false c.advance c.advance.declareVariable := acts_declareVariable _
  refine ⟨read.acts.trans declared, read.static.still read.acts still, fun quiet =>
    ⟨?_, parsed quiet⟩⟩
  exact still.stream.trans (stream_advance stream)

/-! ## Values -/

/-- What follows the name of a variable. -/
def initializer (depth : Nat) (c : Compiler) : Compiler :=
  if c.check .equal then c.advance.expression (phrase depth) else c.emit .null

theorem acts_initializer (depth : Nat) (c : Compiler) : Acts true c (initializer depth c) := by
  unfold initializer
  split
  · exact (acts_advance _).trans (acts_phrase depth _ _)
  · exact acts_emit _ _

/-- The tokens are read as an initial value. -/
def Initializes (depth : Nat) (init : Option Expression) (us : List Token) : Prop :=
  ∀ ⦃c : Compiler⦄ ⦃m : Token⦄ ⦃rest : List Token⦄, m.kind = .semicolon →
    c.stream = us ++ m :: rest →
    Stage c (initializer depth c) (m :: rest)
      ((Coding c (initializer depth c) (.initial init) ∧
        ∀ e ∈ init, Known c.outer c.body.locals e.names) ∧
          Finishes .unsealed c (initializer depth c))

theorem initializes_none (depth : Nat) : Initializes depth none [] := by
  intro c m rest closed stream
  have passed : c.check .equal = false := by
    rw [check_of_stream stream, closed]
    rfl
  simp only [initializer, passed, Bool.false_eq_true, if_false]
  exact (stage_emit stream rfl).map fun coded =>
    ⟨⟨coded, by simp⟩, finishes_of_last rfl (by decide)⟩

theorem initializes_some {depth : Nat} {q : Token} {p : Precedence} {e : Expression}
    {ts : List Token} (equal : q.kind = .equal) (value : Written p e ts)
    (fuel : ts.length ≤ depth) : Initializes depth (some e) (q :: ts) := by
  intro c m rest closed stream
  obtain ⟨t, ts, rfl, -⟩ := value.head
  have more : c.check .equal = true := by
    rw [check_of_stream stream, equal]
    rfl
  simp only [initializer, more, if_true]
  have valued (stream : c.advance.stream = t :: ts ++ m :: rest) :=
    parsed_of_written value fuel stream (by rw [closed]; rfl) (by rw [closed]; decide)
  refine ((stage_advance stream).andThen (acts_phrase depth _ _) fun stream =>
    (valued stream).stage.and (valued stream).unsealed).map ?_
  rintro ⟨read, ⟨coded, known⟩, finishes⟩
  rw [read.outer, advance_body] at known
  exact ⟨⟨(read.seq coded).of_eq rfl, by simpa using known⟩, finishes.of_body (advance_body c)⟩

/-! ## Declarations -/

/-- A declaration marks its value, unless it can be assigned to. -/
theorem emits_marking (c : Compiler) (assignable : Bool) :
    Emits c (if assignable then c else c.emit .makeConst) (marking assignable) c.pool := by
  cases assignable with
  | true => exact Emits.refl c
  | false => exact emits_emit c .makeConst rfl

/-- Outside every scope the value is bound to the name. -/
theorem emits_defineGlobal {index : Nat} (outside : c.body.depth = 0) (small : index < 2 ^ 32)
    (assignable : Bool) :
    Emits c (c.defineVariable index assignable)
      (marking assignable ++ [.indexed .defineGlobal index]) c.pool := by
  have marked := emits_marking c assignable
  have bound := emits_emitIndexed (if assignable then c else c.emit .makeConst) .defineGlobal
    rfl rfl small
  rw [marked.pooled] at bound
  simp only [defineVariable, marked.depth, outside, Nat.lt_irrefl, if_false]
  exact marked.trans bound

/-- The newest local gets the depth of its scope. -/
theorem writes_markInitialized {name : String} {older : List LocalVariable}
    (inside : 0 < c.body.depth) (newest : c.body.locals = ⟨name, none⟩ :: older) :
    Writes c c.markInitialized [] (⟨name, some c.body.depth⟩ :: older) c.pool := by
  have same : c.markInitialized =
      { c with body := { c.body with locals := ⟨name, some c.body.depth⟩ :: older } } := by
    have deep : c.body.depth ≠ 0 := by omega
    simp only [markInitialized, deep, if_false, mapBody, Body.settleNewest, newest]
  have still := (Emits.refl c).writes
  rw [same]
  refine ⟨still.written, still.pooled, still.signature, rfl, rfl, still.loops, rfl, still.fits, ?_⟩
  intro small
  rw [newest] at small
  exact small

/-- Inside a scope the value stays on the stack as the slot of the local. -/
theorem writes_defineLocal {name : String} {older : List LocalVariable} (index : Nat)
    (inside : 0 < c.body.depth) (newest : c.body.locals = ⟨name, none⟩ :: older)
    (assignable : Bool) :
    Writes c (c.defineVariable index assignable) (ops (marking assignable))
      (⟨name, some c.body.depth⟩ :: older) c.pool := by
  have marked := emits_marking c assignable
  have settled := writes_markInitialized (c := if assignable then c else c.emit .makeConst)
    (by rw [marked.depth]; exact inside) (marked.locals.trans newest)
  rw [marked.depth, marked.pooled] at settled
  have whole := marked.writes.trans settled
  rw [List.append_nil] at whole
  have same : c.defineVariable index assignable =
      (if assignable then c else c.emit .makeConst).markInitialized := by
    simp only [defineVariable, marked.depth, inside, if_true]
  rw [same]
  exact whole

/-- Binding a local writes no return. -/
theorem Finishes.defineLocal {a : Compiler} (h : Finishes .unsealed a c)
    (inside : 0 < c.body.depth) (index : Nat) (assignable : Bool) :
    Finishes .unsealed a (c.defineVariable index assignable) := by
  cases assignable with
  | true =>
      simp only [defineVariable, if_true, inside]
      exact h.after (finishes_markInitialized c)
  | false =>
      have marked : Finishes .unsealed a (c.emit .makeConst) := finishes_of_last rfl (by decide)
      have deep : 0 < (c.emit .makeConst).body.depth := inside
      simp only [defineVariable, Bool.false_eq_true, if_false, deep, if_true]
      exact marked.after (finishes_markInitialized _)

/-- A declaration, once its name is entered. -/
theorem stage_named {m : Token} {us : List Token} {init : Option Expression} {depth : Nat}
    {named : Prop} (parsed : Stage c (c.parseVariable "variable").2 (us ++ m :: f :: rest) named)
    (value : Initializes depth init us) (closed : m.kind = .semicolon) (assignable : Bool) :
    let begun := (c.parseVariable "variable").2
    let valued := initializer depth begun
    let ended := valued.consume .semicolon (.expectedMark ";" "after variable declaration")
    Stage c (c.variableDeclaration (phrase depth) assignable) (f :: rest)
      ((named ∧ (Coding begun valued (.initial init) ∧
        ∀ e ∈ init, Known begun.outer begun.body.locals e.names) ∧ Finishes .unsealed begun valued) ∧
          Coding valued ended .none) := by
  intro begun valued ended
  have before : Stage c ended (f :: rest) _ :=
    (parsed.andThen (acts_initializer depth _) fun stream => value closed stream).andThen
      (acts_consume _ .semicolon (.expectedMark ";" "after variable declaration")) fun stream =>
        stage_consume stream closed _
  have binds : Acts false ended (c.variableDeclaration (phrase depth) assignable) :=
    acts_defineVariable _ _ assignable
  exact (before.andThen binds.toReading fun stream => stage_still stream binds fun _ =>
    True.intro).map And.left

/-- A declaration outside every scope. -/
theorem stage_global {n m : Token} {us : List Token} {init : Option Expression} {depth : Nat}
    (outside : c.body.depth = 0) (name : n.kind = .identifier)
    (value : Initializes depth init us) (closed : m.kind = .semicolon) (assignable : Bool)
    (stream : c.stream = n :: (us ++ m :: f :: rest)) :
    Stage c (c.variableDeclaration (phrase depth) assignable) (f :: rest)
      (Codes (.declare assignable n.lexeme init) c
        (c.variableDeclaration (phrase depth) assignable)) := by
  obtain ⟨g, tail, follows⟩ : ∃ g tail, us ++ m :: f :: rest = g :: tail :=
    List.exists_cons_of_ne_nil (by simp)
  rw [follows] at stream
  have parsed := stage_globalName outside stream name "variable"
  rw [← follows] at parsed
  refine (stage_named parsed value closed assignable).map ?_
  rintro done _ layout _
  obtain ⟨⟨⟨named, index, small⟩, ⟨coded, known⟩, -⟩, ended⟩ := done
  have before := (named.seq coded).seq ended
  have depth := before.depth
  have bound := emits_defineGlobal (depth.trans outside) (index ▸ small) assignable
  have whole : Coding c (c.variableDeclaration (phrase _) assignable) _ :=
    before.seq (coding_of_emits bound)
  have here : c.place.depth = 0 := outside
  rw [named.outer, named.locals] at known
  -- neither marking nor defining returns, so what follows can still be reached
  have apart : ∀ a ∈ marking assignable ++ [.indexed .defineGlobal (c.parseVariable "variable").1],
      a.opcode ≠ .return := by
    simp only [List.forall_mem_append, List.forall_mem_singleton]
    exact ⟨by cases assignable <;> simp [marking, Asm.plain],
      Asm.indexed_ne_return (by decide) (by decide) _⟩
  exact ⟨whole.of_eq (by simp [Statement.code, here, Coder.initial, index]), fun _ => trivial,
    fun e mem => ⟨known e mem, fun inside => absurd outside inside⟩,
    bound.unsealed (by simp) apart, trivial⟩

/-- A declaration inside a scope. -/
theorem stage_local {n m : Token} {us : List Token} {init : Option Expression} {depth : Nat}
    (inside : 0 < c.body.depth) (name : n.kind = .identifier)
    (value : Initializes depth init us) (closed : m.kind = .semicolon) (assignable : Bool)
    (stream : c.stream = n :: (us ++ m :: f :: rest)) :
    Stage c (c.variableDeclaration (phrase depth) assignable) (f :: rest)
      (Codes (.declare assignable n.lexeme init) c
        (c.variableDeclaration (phrase depth) assignable)) := by
  obtain ⟨g, tail, follows⟩ : ∃ g tail, us ++ m :: f :: rest = g :: tail :=
    List.exists_cons_of_ne_nil (by simp)
  rw [follows] at stream
  have parsed := stage_localName inside stream name "variable"
  rw [← follows] at parsed
  refine (stage_named parsed value closed assignable).map ?_
  rintro done steady layout _
  obtain ⟨⟨named, ⟨coded, mentioned⟩, finishes⟩, ended⟩ := done
  have before := (named.seq coded).seq ended
  have depth := before.depth
  have deep : 0 < c.place.depth := inside
  have nowhere : c.place.depth ≠ 0 := by omega
  have bound := writes_defineLocal (c.parseVariable "variable").1 (by rw [depth]; exact inside)
    before.locals assignable
  rw [depth, before.pooled] at bound
  -- the initial value was compiled where the local had no slot yet
  rw [named.locals, named.outer] at mentioned
  have value := initialCode_live mentioned c.pool
  rw [live_pending steady.placed] at value
  have whole : Writes c (c.variableDeclaration (phrase _) assignable) _
    (⟨n.lexeme, some c.place.depth⟩ :: c.place.locals) _ := before.trans bound
  refine ⟨?_, fun _ => trivial, fun e mem => ⟨?_, fun _ => (mentioned e mem).fresh⟩, ?_, trivial⟩
  · simpa [Coding, Statement.code, Coder.initial, nowhere, value] using whole
  · have live := (mentioned e mem).live
    rwa [live_pending steady.placed] at live
  · exact (finishes.to_body (consume_body _ .semicolon _)).defineLocal (by rw [depth]; exact inside)
      (c.parseVariable "variable").1 assignable

/-- A declaration whose word has been read. -/
theorem stage_variableDeclaration {k : Token} {s : Statement} {ts : List Token} {depth : Nat}
    (written : DeclarationWritten s (k :: ts)) (fuel : ts.length ≤ depth)
    (stream : c.stream = ts ++ f :: rest) :
    let declared := c.variableDeclaration (phrase depth) (k.kind == .var)
    Stage c declared (f :: rest) (Codes s c declared) := by
  intro declared
  have either {n m : Token} {us : List Token} {init : Option Expression} {assignable : Bool}
      (word : k.kind = if assignable then .var else .const) (name : n.kind = .identifier)
      (value : Initializes depth init us) (closed : m.kind = .semicolon)
      (stream : c.stream = n :: (us ++ m :: f :: rest)) :
      Stage c declared (f :: rest) (Codes (.declare assignable n.lexeme init) c declared) := by
    obtain rfl : assignable = (k.kind == .var) := by
      rw [word]
      cases assignable <;> rfl
    rcases Nat.eq_zero_or_pos c.body.depth with outside | inside
    · exact stage_global outside name value closed _ stream
    · exact stage_local inside name value closed _ stream
  cases written with
  | plain word name closed => exact either word name (initializes_none depth) closed stream
  | initialized word name equal value closed =>
      simp only [List.length_cons, List.length_append, List.length_nil] at fuel
      exact either word name (initializes_some equal value (by omega)) closed
        (by simpa using stream)

/-- A declaration ends where it is, unless there was an error. -/
def recovered (c : Compiler) : Compiler := if c.panicking then c.synchronize else c

theorem Stage.recovered {c' : Compiler} {after : List Token} {Q : Compiler → Prop}
    (h : Stage c c' after (Q c')) : Stage c c'.recovered after (Q c'.recovered) := by
  have ended : Acts true c' c'.recovered := by
    unfold Compiler.recovered
    split
    · exact acts_synchronize c'
    · exact .refl
  have same (calm : c'.panicking = false) : c'.recovered = c' := by
    unfold Compiler.recovered
    rw [calm]
    rfl
  refine ⟨h.acts.trans ended, h.static.trans h.acts ended fun quiet => ?_, fun quiet => ?_⟩
  · rw [same (h.acts.grows.calm quiet.1 quiet.2)]
    exact .silent fun _ => rfl
  · obtain ⟨first, second⟩ := quiet.split h.acts ended
    rw [same second.1]
    exact h.holds first

theorem compiles_declare {s : Statement} {ts : List Token} (written : DeclarationWritten s ts) :
    Compiles .declaration false s ts := by
  intro depth c f rest fuel stream _
  obtain ⟨depth, rfl⟩ : ∃ d, depth = d + 1 := ⟨depth - 1, by omega⟩
  obtain ⟨k, ts, rfl, word⟩ := written.head
  simp only [List.length_cons] at fuel
  have same : phrase (depth + 1) .declaration c =
      (c.advance.variableDeclaration (phrase depth) (k.kind == .var)).recovered := by
    simp only [phrase, declaration, current_of_stream stream]
    rcases word with word | word <;> (rw [word]; rfl)
  rw [same]
  refine (Stage.advance stream (by simp) (acts_variableDeclaration (acts_phrase depth) _ _)
    fun stream => ?_).recovered (Q := Codes s c)
  exact stage_variableDeclaration written (by omega) stream

/-- A statement may stand where declarations may stand. -/
theorem compiles_statement {ends : Bool} {s : Statement} {ts : List Token}
    (written : StatementWritten .statement ends s ts) (inner : Compiles .statement ends s ts) :
    Compiles .declaration ends s ts := by
  intro depth c f rest fuel stream apart
  obtain ⟨depth, rfl⟩ : ∃ d, depth = d + 1 := ⟨depth - 1, by omega⟩
  have same : phrase (depth + 1) .declaration c = (phrase depth .statement c).recovered := by
    obtain ⟨k, ts, rfl, apart⟩ := written.statement_head
    have current : c.current = k := current_of_stream stream
    rw [phrase, declaration, current]
    refine congrArg Compiler.recovered ?_
    split
    · rename_i word
      exact absurd (.inl word) apart
    · rename_i word
      exact absurd (.inr (.inl word)) apart
    · rename_i word
      exact absurd (.inr (.inr (.inl word))) apart
    · rename_i word
      exact absurd (.inr (.inr (.inr word))) apart
    · rfl
  rw [same]
  exact (inner (by omega) stream apart).recovered

end Compiler
end StackScript
