import StackScript.Proofs.Code.Emission
import StackScript.Proofs.Parsing.Steps
import StackScript.Proofs.Parsing.Strict

/-!
# Balance

However wrong a source is, each function of the grammar closes the scopes, loops and
routines that it opens, and takes back no code (`Balanced`).  The places that a loop waits
to have patched lie inside the code written so far (`Sited`).  Therefore the compiler that
asks never runs into a trap (`Runs`): the difference of two offsets is taken only where the
first is the later one, a scope is closed only where one is open, and the script ends with
no routine around it.
-/

namespace StackScript

/-- The places that a loop remembers lie inside code of the given size. -/
structure LoopRecord.Sited (size : Nat) (loop : LoopRecord) : Prop where
  start : loop.start ≤ size
  breaks : ∀ site ∈ loop.breaks, site + 2 ≤ size
  continues : ∀ site ∈ loop.continues, loop.start ≤ site + 2 ∧ site + 2 ≤ size

theorem LoopRecord.Sited.mono {loop : LoopRecord} {size size' : Nat} (le : size ≤ size')
    (h : loop.Sited size) : loop.Sited size' where
  start := h.start.trans le
  breaks site mem := (h.breaks site mem).trans le
  continues site mem := ⟨(h.continues site mem).1, (h.continues site mem).2.trans le⟩

/-- The loops of a routine remember places inside its code, and its locals have slots that
fit into an operand of one byte. -/
structure Body.Sited (body : Body) : Prop where
  loops : ∀ loop ∈ body.loops, loop.Sited body.chunk.size
  locals : body.locals.length ≤ Body.maxLocals

theorem Body.sited_start (name : Option Text) : (Body.start name).Sited where
  loops loop mem := by cases mem
  locals := show 1 ≤ Body.maxLocals by decide

namespace Compiler

/-- All routines under construction are sited. -/
structure Sited (c : Compiler) : Prop where
  body : c.body.Sited
  enclosing : ∀ body ∈ c.enclosing, body.Sited

/-- From one state to another, scopes and loops have been opened and code has been added;
the routines around are the same. -/
structure Balanced (scopes loops : Nat) (c c' : Compiler) : Prop where
  depth : c'.body.depth = c.body.depth + scopes
  loops : c'.body.loops.length = c.body.loops.length + loops
  enclosing : c'.enclosing = c.enclosing
  grows : c.here ≤ c'.here
  sited : c.Sited → c'.Sited

variable {c c' c'' : Compiler} {scopes loops scopes' loops' : Nat}

namespace Balanced

theorem refl (c : Compiler) : Balanced 0 0 c c := ⟨rfl, rfl, rfl, Nat.le_refl _, id⟩

theorem trans (h : Balanced scopes loops c c') (h' : Balanced scopes' loops' c' c'') :
    Balanced (scopes + scopes') (loops + loops') c c'' where
  depth := by rw [h'.depth, h.depth, Nat.add_assoc]
  loops := by rw [h'.loops, h.loops, Nat.add_assoc]
  enclosing := h'.enclosing.trans h.enclosing
  grows := h.grows.trans h'.grows
  sited := h'.sited ∘ h.sited

/-- What follows is balanced in itself. -/
theorem next (h : Balanced scopes loops c c') (h' : Balanced 0 0 c' c'') :
    Balanced scopes loops c c'' := h.trans h'

end Balanced

/-! ## What never needs to ask -/

theorem balanced_of_body (body : c'.body = c.body) (enclosing : c'.enclosing = c.enclosing) :
    Balanced 0 0 c c' where
  depth := by rw [body]; rfl
  loops := by rw [body]; rfl
  enclosing := enclosing
  grows := by rw [here, here, body]
  sited h := ⟨body ▸ h.body, enclosing ▸ h.enclosing⟩

theorem balanced_advance (c : Compiler) : Balanced 0 0 c c.advance :=
  balanced_of_body (advance_body c) (advance_enclosing c)

theorem balanced_consume (c : Compiler) (kind : TokenKind) (problem : Problem) :
    Balanced 0 0 c (c.consume kind problem) :=
  balanced_of_body (consume_body c kind problem) (consume_enclosing c kind problem)

theorem balanced_report (c : Compiler) (problem : Problem) : Balanced 0 0 c (c.report problem) :=
  balanced_of_body (report_body c problem) (report_enclosing c problem)

theorem balanced_giveUp (c : Compiler) : Balanced 0 0 c c.giveUp := balanced_of_body rfl rfl

theorem balanced_intern (c : Compiler) (chars : String) : Balanced 0 0 c (c.intern chars).2 :=
  balanced_of_body rfl rfl

theorem balanced_skipToStatement (c : Compiler) : Balanced 0 0 c c.skipToStatement := by
  fun_induction skipToStatement c with
  | case1 => exact .refl _
  | case2 => exact .refl _
  | case3 c _ _ ih => exact (balanced_advance c).next ih

theorem balanced_synchronize (c : Compiler) : Balanced 0 0 c c.synchronize := by
  have calm : Balanced 0 0 c { c with panicking := false } := balanced_of_body rfl rfl
  exact calm.next (balanced_skipToStatement _)

/-- Work on the innermost routine that opens and closes nothing. -/
theorem balanced_mapBody {f : Body → Body} (depth : (f c.body).depth = c.body.depth)
    (loops : (f c.body).loops = c.body.loops)
    (size : c.body.chunk.size ≤ (f c.body).chunk.size)
    (locals : c.body.locals.length ≤ Body.maxLocals →
      (f c.body).locals.length ≤ Body.maxLocals) : Balanced 0 0 c (c.mapBody f) where
  depth := depth
  loops := congrArg List.length loops
  enclosing := rfl
  grows := size
  sited h :=
    ⟨⟨fun loop mem => (h.body.loops loop (loops ▸ mem)).mono size, locals h.body.locals⟩,
      h.enclosing⟩

theorem balanced_emit (c : Compiler) (op : Opcode) : Balanced 0 0 c (c.emit op) := by
  unfold emit
  exact balanced_mapBody rfl rfl (Chunk.size_writeOpcode ..) id

theorem balanced_emitWord (c : Compiler) (width word : Nat) :
    Balanced 0 0 c (c.emitWord width word) := by
  unfold emitWord
  exact balanced_mapBody rfl rfl (Chunk.size_writeWord ..) id

theorem balanced_emitByte (c : Compiler) (op : Opcode) (operand : Nat) :
    Balanced 0 0 c (c.emitByte op operand) := (balanced_emit _ _).next (balanced_emitWord _ _ _)

theorem balanced_emitIndexed (c : Compiler) (op : Opcode) (index : Nat) :
    Balanced 0 0 c (c.emitIndexed op index) := by
  unfold emitIndexed
  split
  · exact balanced_emitByte _ _ _
  · exact (balanced_emit _ _).next (balanced_emitWord _ _ _)

theorem balanced_emitReturn (c : Compiler) : Balanced 0 0 c c.emitReturn :=
  (balanced_emit _ _).next (balanced_emit _ _)

theorem balanced_emitJump (c : Compiler) (op : Opcode) : Balanced 0 0 c (c.emitJump op) :=
  (balanced_emit _ _).next (balanced_emitWord _ _ _)

theorem size_addConstant (chunk : Chunk) (value : Value) :
    (chunk.addConstant value).2.size = chunk.size := by
  unfold Chunk.addConstant
  split <;> rfl

theorem balanced_constantIndex (c : Compiler) (value : Value) :
    Balanced 0 0 c (c.constantIndex value).2 := by
  have pooled : Balanced 0 0 c
      (c.mapBody (·.mapChunk fun _ => (c.body.chunk.addConstant value).2)) :=
    balanced_mapBody rfl rfl (Nat.le_of_eq (size_addConstant _ _).symm) id
  unfold constantIndex
  dsimp only
  split
  · exact pooled
  · exact pooled.next (balanced_report _ _)

theorem balanced_emitConstant (c : Compiler) (value : Value) :
    Balanced 0 0 c (c.emitConstant value) :=
  (balanced_constantIndex c value).next (balanced_emitIndexed _ _ _)

theorem balanced_nameIndex (c : Compiler) (name : String) :
    Balanced 0 0 c (c.nameIndex name).2 :=
  (balanced_intern c name).next (balanced_constantIndex _ _)

theorem balanced_foldl {α : Type} {step : Compiler → α → Compiler}
    (hstep : ∀ c x, Balanced 0 0 c (step c x)) (xs : List α) (c : Compiler) :
    Balanced 0 0 c (xs.foldl step c) := by
  induction xs generalizing c with
  | nil => exact .refl c
  | cons x xs ih => exact (hstep c x).next (ih _)

theorem balanced_emitPops (c : Compiler) (locals : List LocalVariable) :
    Balanced 0 0 c (c.emitPops locals) :=
  balanced_foldl (fun c _ => balanced_emit c .pop) locals c

theorem balanced_addLocal (c : Compiler) (name : String) : Balanced 0 0 c (c.addLocal name) := by
  unfold addLocal
  split
  · exact balanced_report _ _
  · rename_i room
    refine balanced_mapBody rfl rfl (Nat.le_refl _) fun _ => ?_
    simp only [List.length_cons]
    omega

theorem balanced_declareVariable (c : Compiler) : Balanced 0 0 c c.declareVariable := by
  unfold declareVariable
  split
  · exact .refl c
  · dsimp only
    split
    · exact (balanced_report _ _).next (balanced_addLocal _ _)
    · exact balanced_addLocal _ _

theorem balanced_parseVariable (c : Compiler) (thing : String) :
    Balanced 0 0 c (c.parseVariable thing).2 := by
  have declared := (balanced_consume c .identifier (.expectedName thing)).next
    (balanced_declareVariable _)
  unfold parseVariable
  dsimp only
  split
  · exact declared
  · exact declared.next (balanced_nameIndex _ _)

theorem balanced_markInitialized (c : Compiler) : Balanced 0 0 c c.markInitialized := by
  have settled : c.body.settleNewest.depth = c.body.depth ∧
      c.body.settleNewest.loops = c.body.loops := by
    unfold Body.settleNewest
    split <;> exact ⟨rfl, rfl⟩
  unfold markInitialized
  split
  · exact .refl c
  · exact balanced_mapBody settled.1 settled.2 (Nat.le_of_eq (by rw [chunk_settleNewest]))
      (by rw [length_settleNewest]; exact id)

theorem balanced_defineVariable (c : Compiler) (index : Nat) (assignable : Bool) :
    Balanced 0 0 c (c.defineVariable index assignable) := by
  have marked : Balanced 0 0 c (if assignable then c else c.emit .makeConst) := by
    split
    · exact .refl c
    · exact balanced_emit _ _
  unfold defineVariable
  dsimp only
  generalize (if assignable then c else c.emit .makeConst) = c' at marked ⊢
  refine marked.next ?_
  split
  · exact balanced_markInitialized _
  · exact balanced_emitIndexed _ _ _

theorem balanced_resolve (c : Compiler) (name : String) : Balanced 0 0 c (c.resolve name).2 := by
  unfold resolve
  split
  · dsimp only
    split
    · exact balanced_report _ _
    · exact .refl c
  · dsimp only
    split
    · exact (balanced_report _ _).next (balanced_nameIndex _ _)
    · exact balanced_nameIndex _ _

theorem balanced_emitRead (c : Compiler) (target : Target) :
    Balanced 0 0 c (c.emitRead target) := by
  cases target
  · exact balanced_emitByte _ _ _
  · exact balanced_emitIndexed _ _ _

theorem balanced_emitWrite (c : Compiler) (target : Target) :
    Balanced 0 0 c (c.emitWrite target) := by
  cases target
  · exact balanced_emitByte _ _ _
  · exact balanced_emitIndexed _ _ _

theorem balanced_emitBinary (c : Compiler) (operator : TokenKind) :
    Balanced 0 0 c (c.emitBinary operator) := by
  have twice (first second : Opcode) : Balanced 0 0 c ((c.emit first).emit second) :=
    (balanced_emit _ _).next (balanced_emit _ _)
  unfold emitBinary
  split
  all_goals first
    | exact twice _ _
    | exact balanced_emit _ _
    | exact .refl c

theorem balanced_emitUnary (c : Compiler) (operator : TokenKind) :
    Balanced 0 0 c (c.emitUnary operator) := by
  unfold emitUnary
  split
  · exact balanced_emit _ _
  · exact balanced_emit _ _
  · exact .refl c

theorem balanced_parameter (c : Compiler) : Balanced 0 0 c c.parameter := by
  have counted : Balanced 0 0 c (c.mapBody fun body => { body with arity := body.arity + 1 }) :=
    balanced_mapBody rfl rfl (Nat.le_refl _) id
  unfold parameter
  dsimp only
  refine counted.next ?_
  split
  · exact ((balanced_of_body (reportAt_body _ _ _) (reportAt_enclosing _ _ _)).next
      (balanced_parseVariable _ _)).next (balanced_defineVariable _ _ _)
  · exact (balanced_parseVariable _ _).next (balanced_defineVariable _ _ _)

theorem balanced_repeatWhile {more : Compiler → Bool} {step : Compiler → Compiler}
    (hstep : ∀ c, Balanced 0 0 c (step c)) (bound : Nat) (c : Compiler) :
    Balanced 0 0 c (repeatWhile more step bound c) := by
  induction bound generalizing c with
  | zero =>
      unfold repeatWhile
      split
      · exact balanced_giveUp c
      · exact .refl c
  | succ bound ih =>
      unfold repeatWhile
      split
      · exact (hstep c).next (ih _)
      · exact .refl c

theorem balanced_parameters (bound : Nat) (c : Compiler) :
    Balanced 0 0 c (c.parameters bound) := by
  unfold parameters
  split
  · exact .refl c
  · exact (balanced_parameter c).next (balanced_repeatWhile
      (fun c => (balanced_advance c).next (balanced_parameter _)) bound _)

/-! ## Runs that never trap -/

theorem ok_bind {α β : Type} (a : α) (f : α → Asking β) : ((.ok a : Asking α) >>= f) = f a := rfl

/-- From sited states a computation that asks gives a result without a trap, and the state it
leads to is balanced. -/
structure Runs {α : Type} (c : Compiler) (x : Asking α) (a : α) (c' : Compiler) : Prop where
  balanced : Balanced 0 0 c c'
  answers : c.Sited → x = .ok a

namespace Runs

variable {α β : Type} {a : α} {b : β} {x : Asking α} {f : α → Asking β} {start : Compiler}

theorem done (h : Balanced 0 0 c c') : Runs c (pure a : Asking α) a c' := ⟨h, fun _ => rfl⟩

/-- A part of a computation, between what came before it and what comes behind it. -/
theorem step (before : Balanced scopes loops start c) (part : Runs c x a c')
    (rest : Balanced scopes loops start c' → Runs start (f a) b c'') :
    Runs start (x >>= f) b c'' where
  balanced := (rest (before.next part.balanced)).balanced
  answers sited := by
    rw [part.answers (before.sited sited)]
    exact (rest (before.next part.balanced)).answers sited

theorem after (before : Balanced 0 0 start c) (part : Runs c x a c') : Runs start x a c' :=
  ⟨before.next part.balanced, fun sited => part.answers (before.sited sited)⟩

theorem bind (part : Runs c x a c') (rest : Balanced 0 0 c c' → Runs c (f a) b c'') :
    Runs c (x >>= f) b c'' := part.step (.refl c) rest

end Runs

/-! ## Jumps -/

theorem here_emitJump (c : Compiler) (op : Opcode) : (c.emitJump op).here = c.here + 3 := by
  rw [emitJump, here_emitWord, here_emit]

/-- The operand of a jump is where the compiler takes it to be. -/
theorem strictEmitJump_eq (c : Compiler) (op : Opcode) :
    c.strictEmitJump op = .ok (c.here + 1, c.emitJump op) := by
  unfold strictEmitJump
  dsimp only
  rw [strictSub_eq (by rw [here_emitJump]; omega), here_emitJump]
  rfl

theorem Runs.jump {α : Type} {a : α} {start : Compiler} {op : Opcode}
    {f : Nat × Compiler → Asking α} (before : Balanced scopes loops start c)
    (rest : Balanced scopes loops start (c.emitJump op) → Runs start (f (c.here + 1, c.emitJump op)) a c'') :
    Runs start (c.strictEmitJump op >>= f) a c'' := by
  rw [strictEmitJump_eq]
  exact rest (before.next (balanced_emitJump c op))

theorem strictPatchWord_eq {site : Nat} (inside : site + 2 ≤ c.here) (word : Nat) :
    c.strictPatchWord site word = .ok (c.mapBody (·.mapChunk (·.patchWord site word))) := by
  have there {i : Nat} (le : i < c.here) : ∃ byte, strictGet c.body.chunk.code i = .ok byte :=
    ⟨_, strictGet_eq (Array.getElem?_eq_getElem le)⟩
  obtain ⟨low, first⟩ := there (show site < c.here by omega)
  obtain ⟨high, second⟩ := there (show site + 1 < c.here by omega)
  unfold strictPatchWord
  rw [first, second]
  rfl

theorem balanced_patchWord (c : Compiler) (site word : Nat) :
    Balanced 0 0 c (c.mapBody (·.mapChunk (·.patchWord site word))) :=
  balanced_mapBody rfl rfl (Nat.le_of_eq (Chunk.size_patchWord ..).symm) id

theorem balanced_patchJump (c : Compiler) (site : Nat) : Balanced 0 0 c (c.patchJump site) := by
  have landed (c : Compiler) (target : Nat) :
      Balanced 0 0 c (c.mapBody fun body => { body with landing := some target }) :=
    balanced_mapBody rfl rfl (Nat.le_refl _) id
  unfold patchJump
  dsimp only
  split
  · exact (balanced_patchWord _ _ _).next (landed _ _)
  · exact (balanced_report _ _).next (landed _ _)

theorem runs_patchJump {site : Nat} (inside : site + 2 ≤ c.here) :
    Runs c (c.strictPatchJump site) (c.patchJump site) (c.patchJump site) where
  balanced := balanced_patchJump c site
  answers _ := by
    unfold strictPatchJump patchJump
    dsimp only
    rw [strictSub_eq (by omega), ok_bind, strictSub_eq (by omega), ok_bind]
    split
    · rw [strictPatchWord_eq inside]
      rfl
    · rfl

theorem balanced_emitLoop (c : Compiler) (start : Nat) :
    Balanced 0 0 c (c.emitLoop start) := by
  unfold emitLoop
  dsimp only
  split
  · exact (balanced_emit _ _).next (balanced_emitWord _ _ _)
  · exact ((balanced_emit _ _).next (balanced_report _ _)).next (balanced_emitWord _ _ _)

theorem runs_emitLoop {start : Nat} (behind : start ≤ c.here) :
    Runs c (c.strictEmitLoop start) (c.emitLoop start) (c.emitLoop start) where
  balanced := balanced_emitLoop c start
  answers _ := by
    unfold strictEmitLoop emitLoop
    dsimp only
    rw [strictSub_eq (by rw [here_emit]; omega)]
    rfl

theorem balanced_patchLoop (c : Compiler) (site start : Nat) :
    Balanced 0 0 c (c.patchLoop site start) := by
  unfold patchLoop
  dsimp only
  split
  · exact balanced_patchWord _ _ _
  · exact balanced_report _ _

theorem runs_patchLoop {site start : Nat} (behind : start ≤ site + 2) (inside : site + 2 ≤ c.here) :
    Runs c (c.strictPatchLoop start site) (c.patchLoop site start) (c.patchLoop site start) where
  balanced := balanced_patchLoop c site start
  answers _ := by
    unfold strictPatchLoop patchLoop
    dsimp only
    rw [strictSub_eq behind, ok_bind]
    split
    · exact strictPatchWord_eq inside _
    · rfl

theorem runs_patchExit {site : Option Nat} :
    let exit := match site with
      | some site => (c.patchJump site).emit .pop
      | none => c
    (∀ s ∈ site, s + 2 ≤ c.here) → Runs c (c.strictPatchExit site) exit exit := by
  intro exit inside
  cases site with
  | none => exact .done (.refl c)
  | some site =>
      exact (runs_patchJump (inside site rfl)).bind fun h =>
        .done (h.next (balanced_emit _ _))

/-! ## Scopes and loops -/

theorem balanced_beginScope (c : Compiler) : Balanced 1 0 c c.beginScope where
  depth := rfl
  loops := rfl
  enclosing := rfl
  grows := Nat.le_refl _
  sited h := ⟨⟨h.body.loops, h.body.locals⟩, h.enclosing⟩

/-- Closing a scope that has been opened. -/
theorem Balanced.endScope (h : Balanced (scopes + 1) loops c c') :
    Balanced scopes loops c c'.endScope := by
  have closed : Balanced scopes loops c
      (c'.mapBody fun body => { body with depth := body.depth - 1 }) := by
    refine ⟨?_, h.loops, h.enclosing, h.grows, fun sited => ?_⟩
    · show c'.body.depth - 1 = _
      rw [h.depth]
      omega
    · exact ⟨⟨(h.sited sited).body.loops, (h.sited sited).body.locals⟩, (h.sited sited).enclosing⟩
  have dropped (c : Compiler) (count : Nat) :
      Balanced 0 0 c (c.mapBody fun body => { body with locals := body.locals.drop count }) := by
    refine balanced_mapBody rfl rfl (Nat.le_refl _) fun small => ?_
    rw [List.length_drop]
    omega
  unfold Compiler.endScope
  exact (closed.next (balanced_emitPops _ _)).next (dropped _ _)

theorem strictEndScope_eq (h : Balanced (scopes + 1) loops c c') :
    c'.strictEndScope = .ok c'.endScope := by
  unfold strictEndScope endScope
  rw [strictSub_eq (by rw [h.depth]; omega)]
  rfl

theorem Runs.close {start : Compiler} (before : Balanced 1 0 start c) :
    Runs start c.strictEndScope c.endScope c.endScope :=
  ⟨before.endScope, fun _ => strictEndScope_eq before⟩

theorem balanced_beginLoop {start : Nat} (behind : start ≤ c.here) :
    Balanced 0 1 c (c.beginLoop start) where
  depth := rfl
  loops := rfl
  enclosing := rfl
  grows := Nat.le_refl _
  sited h := by
    refine ⟨⟨fun loop mem => ?_, h.body.locals⟩, h.enclosing⟩
    rcases List.mem_cons.mp mem with rfl | old
    · exact ⟨behind, fun _ none => (List.not_mem_nil none).elim,
        fun _ none => (List.not_mem_nil none).elim⟩
    · exact h.body.loops loop old

theorem runs_foldl {strict : Compiler → Nat → Asking Compiler} {step : Compiler → Nat → Compiler}
    {sites : List Nat} (each : ∀ {c'}, c.here ≤ c'.here → ∀ site ∈ sites,
      Runs c' (strict c' site) (step c' site) (step c' site)) :
    Runs c (sites.foldlM strict c) (sites.foldl step c) (sites.foldl step c) := by
  induction sites generalizing c with
  | nil => exact .done (.refl c)
  | cons site rest ih =>
      rw [List.foldlM_cons]
      refine (each (Nat.le_refl _) site (.head rest)).bind fun h => .after h ?_
      exact ih fun le other mem => each (h.grows.trans le) other (.tail _ mem)

/-- Closing a loop that has been opened. -/
theorem Balanced.endLoop (h : Balanced scopes (loops + 1) c c') :
    Balanced scopes loops c c'.endLoop := by
  cases open_ : c'.body.loops with
  | nil =>
      have none := h.loops
      rw [open_, List.length_nil] at none
      omega
  | cons loop outer =>
      have closed : Balanced scopes loops c
          (c'.mapBody fun body => { body with loops := outer }) := by
        refine ⟨h.depth, ?_, h.enclosing, h.grows, fun sited => ?_⟩
        · have length := h.loops
          rw [open_, List.length_cons] at length
          show outer.length = _
          omega
        · refine ⟨⟨fun other mem => ?_, (h.sited sited).body.locals⟩, (h.sited sited).enclosing⟩
          exact (h.sited sited).body.loops other (open_ ▸ .tail _ mem)
      unfold Compiler.endLoop
      simp only [open_]
      exact (closed.next (balanced_foldl (fun c _ => balanced_patchLoop c _ _) _ _)).next
        (balanced_foldl (fun c _ => balanced_patchJump c _) _ _)

/-- The places that a loop remembers are still there when it is closed. -/
theorem strictEndLoop_eq (sited : c.Sited) : c.strictEndLoop = .ok c.endLoop := by
  unfold strictEndLoop endLoop
  cases open_ : c.body.loops with
  | nil => rfl
  | cons loop outer =>
      have places := sited.body.loops loop (open_ ▸ .head _)
      have inside {c' : Compiler} {site : Nat} (here : site + 2 ≤ c.here) (le : c.here ≤ c'.here) :
          site + 2 ≤ c'.here := here.trans le
      let closed := c.mapBody fun body => { body with loops := outer }
      have rest : closed.Sited :=
        ⟨⟨fun other mem => sited.body.loops other (open_ ▸ .tail _ mem), sited.body.locals⟩,
          sited.enclosing⟩
      have again : Runs closed
          (loop.continues.reverse.foldlM (fun c site => c.strictPatchLoop loop.start site) closed)
          (loop.continues.reverse.foldl (fun c site => c.patchLoop site loop.start) closed)
          (loop.continues.reverse.foldl (fun c site => c.patchLoop site loop.start) closed) :=
        runs_foldl fun le site mem =>
          have place := places.continues site (List.mem_reverse.mp mem)
          runs_patchLoop place.1 (inside place.2 le)
      have leave (c' : Compiler) (le : c.here ≤ c'.here) : Runs c'
          (loop.breaks.reverse.foldlM (fun c site => c.strictPatchJump site) c')
          (loop.breaks.reverse.foldl (fun c site => c.patchJump site) c')
          (loop.breaks.reverse.foldl (fun c site => c.patchJump site) c') :=
        runs_foldl fun le' site mem => runs_patchJump
          (inside (places.breaks site (List.mem_reverse.mp mem)) (le.trans le'))
      simp only
      rw [again.answers rest, ok_bind]
      exact (leave _ again.balanced.grows).answers (again.balanced.sited rest)

theorem Runs.closeLoop {α : Type} {a : α} {start : Compiler} {f : Compiler → Asking α}
    (before : Balanced scopes (loops + 1) start c)
    (rest : Balanced scopes loops start c.endLoop → Runs start (f c.endLoop) a c'') :
    Runs start (c.strictEndLoop >>= f) a c'' where
  balanced := (rest before.endLoop).balanced
  answers sited := by
    rw [strictEndLoop_eq (before.sited sited), ok_bind]
    exact (rest before.endLoop).answers sited

/-- Changing what the innermost loop remembers. -/
theorem balanced_mapLoop {f : LoopRecord → LoopRecord}
    (keeps : ∀ loop : LoopRecord, loop.Sited c.here → (f loop).Sited c.here) :
    Balanced 0 0 c (c.mapLoop f) := by
  obtain ⟨current, previous, unread, panicking, errors, heap, body, enclosing, completed,
    exhausted⟩ := c
  obtain ⟨name, arity, chunk, locals, depth, loops, last, landing⟩ := body
  cases loops with
  | nil => exact .refl _
  | cons loop outer =>
      refine ⟨rfl, rfl, rfl, Nat.le_refl _, fun sited => ⟨⟨fun other mem => ?_,
        sited.body.locals⟩, sited.enclosing⟩⟩
      rcases List.mem_cons.mp mem with rfl | old
      · exact keeps loop (sited.body.loops loop (.head _))
      · exact sited.body.loops other (.tail _ old)

/-! ## Names -/

/-- A name that is found among the locals has a slot that fits into one byte. -/
theorem strictTarget_eq (sited : c.Sited) (name : String) :
    strictTarget (c.resolve name).1 = .ok (c.resolve name).1 := by
  unfold resolve
  split
  · rename_i slot var found
    have small := (findLocal_lt found).trans_le sited.body.locals
    unfold strictTarget
    exact if_pos small
  · rfl

/-! ## Expressions -/

section Phrases

variable {strict : StrictPhraseCompiler} {parse : PhraseCompiler}
  (hparse : ∀ p c, Runs c (strict p c) (parse p c) (parse p c))
include hparse

theorem runs_variableUse (canAssign : Bool) (c : Compiler) :
    Runs c (strictVariableUse strict canAssign c) (c.variableUse parse canAssign)
      (c.variableUse parse canAssign) := by
  have resolved := balanced_resolve c c.previous.lexeme
  have target : Runs c (strictTarget (c.resolve c.previous.lexeme).1)
      (c.resolve c.previous.lexeme).1 c := ⟨.refl c, fun sited => strictTarget_eq sited _⟩
  unfold strictVariableUse variableUse
  dsimp only
  refine target.bind fun _ => ?_
  split
  · exact .after (resolved.next (balanced_advance _)) <| (hparse _ _).bind fun h =>
      .done (h.next (balanced_emitWrite _ _))
  · exact .done (resolved.next (balanced_emitRead _ _))

theorem runs_openExpression (canAssign : Bool) (c : Compiler) (opening : Opening) :
    Runs c (strictOpenExpression strict canAssign c opening)
      (c.openExpression parse canAssign opening) (c.openExpression parse canAssign opening) := by
  match opening with
  | .grouping => exact (hparse _ c).bind fun h => .done (h.next (balanced_consume _ _ _))
  | .unary =>
      exact (hparse (.expression .unary) c).bind fun h => .done (h.next (balanced_emitUnary _ _))
  | .variable => exact runs_variableUse hparse canAssign c
  | .string => exact .done ((balanced_intern c _).next (balanced_emitConstant _ _))
  | .number =>
      refine .done ?_
      simp only [openExpression, numberLiteral]
      split
      · exact balanced_emitConstant _ _
      · exact balanced_report _ _
  | .literal =>
      refine .done ?_
      simp only [openExpression, wordLiteral]
      split
      · exact balanced_emit _ _
      · exact balanced_emit _ _
      · exact balanced_emit _ _
      · exact .refl c
  | .unsupported => exact .done (balanced_report _ _)

theorem runs_conjunction (c : Compiler) :
    Runs c (strictConjunction strict c) (c.conjunction parse) (c.conjunction parse) := by
  have size := here_emitJump c .jumpIfFalse
  refine Runs.jump (.refl c) fun h => ?_
  have popped := balanced_emit (c.emitJump .jumpIfFalse) .pop
  have operand := hparse (.expression .and) ((c.emitJump .jumpIfFalse).emit .pop)
  have grown := popped.grows.trans operand.balanced.grows
  exact operand.step (h.next popped) fun h => .after h (runs_patchJump (by omega))

theorem runs_disjunction (c : Compiler) :
    Runs c (strictDisjunction strict c) (c.disjunction parse) (c.disjunction parse) := by
  have first := here_emitJump c .jumpIfFalse
  have second := here_emitJump (c.emitJump .jumpIfFalse) .jump
  refine Runs.jump (.refl c) fun h => Runs.jump h fun h => ?_
  refine (runs_patchJump (by omega)).step h fun h => ?_
  have patched := (balanced_patchJump ((c.emitJump .jumpIfFalse).emitJump .jump) (c.here + 1)).next
    (balanced_emit _ .pop)
  have operand := hparse (.expression .or)
    ((((c.emitJump .jumpIfFalse).emitJump .jump).patchJump (c.here + 1)).emit .pop)
  have grown := patched.grows.trans operand.balanced.grows
  exact operand.step (h.next (balanced_emit _ _)) fun h => .after h (runs_patchJump (by omega))

theorem runs_argument (count : Nat) (c : Compiler) :
    Runs c (strictArgument strict count c) (argument parse count c)
      (argument parse count c).2 := by
  refine (hparse (.expression .assignment) c).bind fun h => .done (h.next ?_)
  unfold argument
  dsimp only
  split
  · exact balanced_report _ _
  · exact .refl _

theorem runs_moreArguments (bound count : Nat) (c : Compiler) :
    Runs c (strictMoreArguments strict bound count c) (moreArguments parse bound count c)
      (moreArguments parse bound count c).2 := by
  induction bound generalizing count c with
  | zero =>
      refine .done ?_
      unfold moreArguments
      split
      · exact balanced_giveUp c
      · exact .refl c
  | succ bound ih =>
      unfold strictMoreArguments moreArguments
      split
      · exact .after (balanced_advance c) <| (runs_argument hparse count _).bind fun h =>
          .after h (ih _ _)
      · exact .done (.refl c)

theorem runs_call (bound : Nat) (c : Compiler) :
    Runs c (strictCall strict bound c) (c.call parse bound) (c.call parse bound) := by
  have listed : Runs c (strictArguments strict bound c)
      (if c.check .rightParen then ((0, c) : Nat × Compiler)
        else moreArguments parse bound (argument parse 0 c).1 (argument parse 0 c).2)
      (if c.check .rightParen then ((0, c) : Nat × Compiler)
        else moreArguments parse bound (argument parse 0 c).1 (argument parse 0 c).2).2 := by
    unfold strictArguments
    split
    · exact .done (.refl c)
    · exact (runs_argument hparse 0 c).bind fun h => .after h (runs_moreArguments hparse bound _ _)
  exact listed.bind fun h => .done ((h.next (balanced_consume _ _ _)).next (balanced_emitByte _ _ _))

theorem runs_continueExpression (bound : Nat) (c : Compiler)
    (continuation : Option Continuation) :
    Runs c (strictContinueExpression strict bound c continuation)
      (c.continueExpression parse bound continuation)
      (c.continueExpression parse bound continuation) := by
  match continuation with
  | some .binary => exact (hparse _ _).bind fun h => .done (h.next (balanced_emitBinary _ _))
  | some .and => exact runs_conjunction hparse c
  | some .or => exact runs_disjunction hparse c
  | some .call => exact runs_call hparse bound c
  | some .unsupported => exact .done (balanced_report _ _)
  | none => exact .done (.refl c)

theorem runs_continueOnce (bound : Nat) (c : Compiler) :
    Runs c (strictContinueOnce strict bound c) (continueOnce parse bound c)
      (continueOnce parse bound c) :=
  .after (balanced_advance c) (runs_continueExpression hparse bound _ _)

omit hparse in
theorem runs_repeat {more : Compiler → Bool} {strictStep : Compiler → Asking Compiler}
    {step : Compiler → Compiler} (each : ∀ c, Runs c (strictStep c) (step c) (step c))
    (bound : Nat) (c : Compiler) :
    Runs c (strictRepeat more strictStep bound c) (repeatWhile more step bound c)
      (repeatWhile more step bound c) := by
  induction bound generalizing c with
  | zero =>
      refine .done ?_
      unfold repeatWhile
      split
      · exact balanced_giveUp c
      · exact .refl c
  | succ bound ih =>
      unfold strictRepeat repeatWhile
      split
      · exact (each c).bind fun h => .after h (ih _)
      · exact .done (.refl c)

theorem runs_expressionFrom (bound : Nat) (least : Precedence) (c : Compiler) :
    Runs c (strictExpressionFrom strict bound least c) (c.expressionFrom parse bound least)
      (c.expressionFrom parse bound least) := by
  have ended (canAssign : Bool) (c : Compiler) : Balanced 0 0 c
      (if canAssign && c.check .equal then c.advance.report .invalidAssignmentTarget else c) := by
    split
    · exact (balanced_advance c).next (balanced_report _ _)
    · exact .refl c
  refine .after (balanced_advance c) ?_
  unfold strictExpressionFrom expressionFrom
  dsimp only
  cases c.advance.previous.kind.opening? with
  | none => exact .done (balanced_report _ _)
  | some opening =>
      refine (runs_openExpression hparse (least.admits .assignment) _ opening).bind fun h =>
        .after h ?_
      exact (runs_repeat (runs_continueOnce hparse bound) bound _).bind fun h =>
        .done (h.next (ended _ _))

end Phrases

end Compiler
end StackScript
