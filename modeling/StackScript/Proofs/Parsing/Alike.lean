import StackScript.Proofs.Value.Outline
import StackScript.Proofs.Value.Texts

/-!
# Compilations that cannot be told apart

Two states of the compiler are `Alike` if they agree in everything but lines, spans and the
identities of strings and routines.  Reading, reporting and writing keep states alike: what
the compiler asks of a state is the same for both.  The strings that the two have entered
into their tables since some earlier moment are the same, in the same order.
-/

namespace StackScript

/-- What the compiler sees of a token. -/
def Token.word (t : Token) : TokenKind × String := (t.kind, t.lexeme)

/-- An error without its line and span. -/
def CompileError.notice (e : CompileError) : ErrorLocation × Problem := (e.location, e.problem)

/-- A value that the compiler has made: its strings are the heap's, and if it is a routine it
has been numbered. -/
structure Heap.Owns (heap : Heap) (v : Value) : Prop where
  texts : ∀ t ∈ v.texts, heap.Has t
  routine : ∀ r, v.datum = .routine r → r.id < heap.routines

theorem Heap.Owns.mono {heap heap' : Heap} {v : Value} (h : heap.Owns v) (le : heap.Le heap')
    (count : heap.routines ≤ heap'.routines) : heap'.Owns v :=
  ⟨fun t mem => (h.texts t mem).mono le, fun r same => Nat.lt_of_lt_of_le (h.routine r same) count⟩

namespace Chunk

theorem writeOpcode_alike {chunk chunk' : Chunk} (same : chunk.code = chunk'.code) (op : Opcode)
    (line line' : Nat) : (chunk.writeOpcode op line).code = (chunk'.writeOpcode op line').code :=
  Array.toList_inj.mp (by rw [writeOpcode_code, writeOpcode_code, same])

theorem writeWord_alike {chunk chunk' : Chunk} (same : chunk.code = chunk'.code)
    (width word line line' : Nat) :
    (chunk.writeWord width word line).code = (chunk'.writeWord width word line').code :=
  Array.toList_inj.mp (by rw [writeWord_code, writeWord_code, same])

theorem patchWord_alike {chunk chunk' : Chunk} (same : chunk.code = chunk'.code)
    (offset word : Nat) :
    (chunk.patchWord offset word).code = (chunk'.patchWord offset word).code := by
  cases chunk
  cases chunk'
  cases same
  rfl

end Chunk

namespace Body

/-- Two routines under construction agree but for identities and lines. -/
structure Alike (b b' : Body) : Prop where
  name : b.name.map Text.chars = b'.name.map Text.chars
  arity : b.arity = b'.arity
  code : b.chunk.code = b'.chunk.code
  constants : b.chunk.constants.toList.map Value.outline =
    b'.chunk.constants.toList.map Value.outline
  locals : b.locals = b'.locals
  depth : b.depth = b'.depth
  loops : b.loops = b'.loops
  lastOpcode : b.lastOpcode = b'.lastOpcode
  landing : b.landing = b'.landing

/-- The body holds what the heap owns. -/
structure Owned (heap : Heap) (b : Body) : Prop where
  name : ∀ t ∈ b.name, heap.Has t
  constants : ∀ v ∈ b.chunk.constants, heap.Owns v

theorem Owned.mono {heap heap' : Heap} {b : Body} (h : b.Owned heap) (le : heap.Le heap')
    (count : heap.routines ≤ heap'.routines) : b.Owned heap' :=
  ⟨fun t mem => (h.name t mem).mono le, fun v mem => (h.constants v mem).mono le count⟩

theorem owned_start {heap : Heap} {name : Option Text} (has : ∀ t ∈ name, heap.Has t) :
    (Body.start name).Owned heap := ⟨has, by simp [Body.start, Chunk.empty]⟩

theorem owned_start_some {heap : Heap} {name : Text} (has : heap.Has name) :
    (Body.start (some name)).Owned heap :=
  owned_start fun _ mem => (Option.some.inj mem) ▸ has

theorem Owned.push {heap : Heap} {b : Body} (h : b.Owned heap) {v : Value} (owns : heap.Owns v) :
    (b.mapChunk fun chunk => { chunk with constants := chunk.constants.push v }).Owned heap := by
  refine ⟨h.name, fun w mem => ?_⟩
  rcases Array.mem_push.mp mem with mem | rfl
  · exact h.constants w mem
  · exact owns

theorem alike_start {name name' : Option Text} (same : name.map Text.chars = name'.map Text.chars) :
    (Body.start name).Alike (Body.start name') :=
  ⟨same, rfl, rfl, rfl, rfl, rfl, rfl, rfl, rfl⟩

theorem Alike.size {b b' : Body} (h : b.Alike b') : b.chunk.size = b'.chunk.size := by
  rw [Chunk.size, h.code, Chunk.size]

end Body

namespace Compiler

/-- The strings are in order, and nothing under construction holds others. -/
structure Orderly (heap : Heap) (body : Body) (enclosing : List Body) : Prop where
  valid : heap.Valid
  body : body.Owned heap
  enclosing : ∀ b ∈ enclosing, b.Owned heap

theorem Orderly.mono {heap heap' : Heap} {body : Body} {enclosing : List Body}
    (h : Orderly heap body enclosing) (valid : heap'.Valid) (le : heap.Le heap')
    (count : heap.routines ≤ heap'.routines) : Orderly heap' body enclosing :=
  ⟨valid, h.body.mono le count, fun b mem => (h.enclosing b mem).mono le count⟩

/-- Work on the innermost routine that leaves its name and its constants alone. -/
theorem Orderly.work {heap : Heap} {b b' : Body} {enclosing : List Body}
    (h : Orderly heap b enclosing) (name : b'.name = b.name)
    (constants : b'.chunk.constants = b.chunk.constants) : Orderly heap b' enclosing :=
  ⟨h.valid, ⟨name ▸ h.body.name, constants ▸ h.body.constants⟩,
    h.enclosing⟩

/-- Two states agree but for lines, spans and identities, and have entered the same strings
into two tables. -/
structure Alike (table table' : TextTable) (c c' : Compiler) : Prop where
  current : c.current.word = c'.current.word
  previous : c.previous.word = c'.previous.word
  unread : c.unread.map Token.word = c'.unread.map Token.word
  panicking : c.panicking = c'.panicking
  errors : c.errors.toList.map CompileError.notice = c'.errors.toList.map CompileError.notice
  body : c.body.Alike c'.body
  enclosing : List.Forall₂ Body.Alike c.enclosing c'.enclosing
  exhausted : c.exhausted = c'.exhausted
  texts : ∃ ts, c.heap.texts = table.internAll ts ∧ c'.heap.texts = table'.internAll ts
  orderly : Orderly c.heap c.body c.enclosing
  orderly' : Orderly c'.heap c'.body c'.enclosing

/-- Results that come with states: they are equal, and the states are alike. -/
structure AlikeWith {α : Type} (table table' : TextTable) (r r' : α × Compiler) : Prop where
  value : r.1 = r'.1
  state : Alike table table' r.2 r'.2

section

variable {table table' : TextTable} {c c' a a' b b' : Compiler}

/-- Whether a condition holds is the same for both. -/
theorem rel_ite {α : Type} {R : α → α → Prop} {x x' y y' : α} {p q : Prop} [Decidable p]
    [Decidable q] (same : p ↔ q) (yes : p → R x x') (no : ¬ p → R y y') :
    R (if p then x else y) (if q then x' else y') := by
  by_cases h : p
  · rw [if_pos h, if_pos (same.mp h)]
    exact yes h
  · rw [if_neg h, if_neg fun h' => h (same.mpr h')]
    exact no h

theorem Alike.ite {p q : Prop} [Decidable p] [Decidable q] (same : p ↔ q)
    (yes : p → Alike table table' a a') (no : ¬ p → Alike table table' b b') :
    Alike table table' (if p then a else b) (if q then a' else b') :=
  rel_ite same yes no

theorem AlikeWith.ite {α : Type} {r r' s s' : α × Compiler} {p q : Prop} [Decidable p]
    [Decidable q] (same : p ↔ q) (yes : p → AlikeWith table table' r r')
    (no : ¬ p → AlikeWith table table' s s') :
    AlikeWith table table' (if p then r else s) (if q then r' else s') :=
  rel_ite same yes no

/-- What goes on with equal results from alike states leaves alike states. -/
theorem AlikeWith.bind {α : Type} {r r' : α × Compiler} {f f' : α → Compiler → Compiler}
    (h : AlikeWith table table' r r')
    (next : ∀ {c c' : Compiler} (value : α), Alike table table' c c' →
      Alike table table' (f value c) (f' value c')) :
    Alike table table' (f r.1 r.2) (f' r'.1 r'.2) :=
  h.value ▸ next r.1 h.state

namespace Alike

variable (h : Alike table table' c c')
include h

theorem kind : c.current.kind = c'.current.kind := congrArg Prod.fst h.current

theorem previousKind : c.previous.kind = c'.previous.kind := congrArg Prod.fst h.previous

theorem lexeme : c.previous.lexeme = c'.previous.lexeme := congrArg Prod.snd h.previous

theorem check (kind : TokenKind) : c.check kind = c'.check kind := by
  rw [Compiler.check, h.kind, Compiler.check]

theorem check_iff (kind : TokenKind) : c.check kind = true ↔ c'.check kind = true := by
  rw [h.check]

theorem here : c.here = c'.here := h.body.size

/-! ## Reading and reporting -/

theorem giveUp : Alike table table' c.giveUp c'.giveUp := { h with exhausted := rfl }

theorem recover : Alike table table' { c with panicking := false } { c' with panicking := false } :=
  { h with panicking := rfl }

theorem reportAt {t t' : Token} (same : t.word = t'.word) (problem : Problem) :
    Alike table table' (c.reportAt t problem) (c'.reportAt t' problem) := by
  have kind : t.kind = t'.kind := congrArg Prod.fst same
  have lexeme : t.lexeme = t'.lexeme := congrArg Prod.snd same
  have location : locationOf t = locationOf t' := by
    rw [locationOf, kind, lexeme, locationOf]
  refine .ite (by rw [h.panicking]) (fun _ => h) fun _ => { h with
    panicking := rfl
    errors := ?_ }
  simp only [Array.toList_push, List.map_append, h.errors, List.map_singleton,
    CompileError.notice, location]

theorem report (problem : Problem) : Alike table table' (c.report problem) (c'.report problem) :=
  h.reportAt h.previous problem

theorem reportCurrent (problem : Problem) :
    Alike table table' (c.reportCurrent problem) (c'.reportCurrent problem) :=
  h.reportAt h.current problem

omit h in
theorem fetch {tokens tokens' : List Token} (same : tokens.map Token.word = tokens'.map Token.word)
    (h : Alike table table' c c') : Alike table table' (c.fetch tokens) (c'.fetch tokens') := by
  induction tokens generalizing tokens' c c' with
  | nil =>
      obtain rfl := List.map_eq_nil_iff.mp same.symm
      exact { h with unread := rfl }
  | cons t rest ih =>
      cases tokens' with
      | nil => cases same
      | cons t' rest' =>
          obtain ⟨first, others⟩ := List.cons.inj same
          have kind : t.kind = t'.kind := congrArg Prod.fst first
          have lexeme : t.lexeme = t'.lexeme := congrArg Prod.snd first
          have taken : Alike table table' { c with current := t, unread := rest }
              { c' with current := t', unread := rest' } :=
            { h with current := first, unread := others }
          refine .ite (by rw [kind]) (fun _ => ih others ?_) fun _ => taken
          rw [lexeme]
          exact taken.reportAt first _

theorem advance : Alike table table' c.advance c'.advance :=
  fetch h.unread { h with previous := h.current }

theorem consume (kind : TokenKind) (problem : Problem) :
    Alike table table' (c.consume kind problem) (c'.consume kind problem) :=
  .ite (h.check_iff kind) (fun _ => h.advance) fun _ => h.reportCurrent problem

omit h in
theorem skipToStatement (h : Alike table table' c c') :
    Alike table table' c.skipToStatement c'.skipToStatement := by
  fun_induction Compiler.skipToStatement c generalizing c' with
  | case1 c stop =>
      rw [h.check, h.previousKind, h.kind] at stop
      rw [Compiler.skipToStatement, if_pos stop]
      exact h
  | case2 c go none =>
      rw [h.check, h.previousKind, h.kind] at go
      have empty : c'.unread.isEmpty = true := by
        rw [← List.isEmpty_map (f := Token.word), ← h.unread, List.isEmpty_map]
        exact none
      rw [Compiler.skipToStatement, if_neg go, if_pos empty]
      exact h
  | case3 c go some ih =>
      rw [h.check, h.previousKind, h.kind] at go
      have more : ¬ c'.unread.isEmpty = true := by
        rw [← List.isEmpty_map (f := Token.word), ← h.unread, List.isEmpty_map]
        exact some
      rw [Compiler.skipToStatement.eq_1 c', if_neg go, if_neg more]
      exact ih h.advance

theorem synchronize : Alike table table' c.synchronize c'.synchronize :=
  skipToStatement h.recover

omit h in
theorem repeatWhile (more : Compiler → Bool) {step : Compiler → Compiler}
    (same : ∀ {c c'}, Alike table table' c c' → more c = more c')
    (turn : ∀ {c c'}, Alike table table' c c' → Alike table table' (step c) (step c'))
    (bound : Nat) (h : Alike table table' c c') :
    Alike table table' (repeatWhile more step bound c) (repeatWhile more step bound c') := by
  induction bound generalizing c c' with
  | zero => exact .ite (by rw [same h]) (fun _ => h.giveUp) fun _ => h
  | succ bound ih => exact .ite (by rw [same h]) (fun _ => ih (turn h)) fun _ => h

/-! ## Writing code -/

/-- Work on the innermost routine that leaves its name and its constants alone. -/
theorem work (f f' : Body → Body) (alike : (f c.body).Alike (f' c'.body))
    (name : (f c.body).name = c.body.name) (name' : (f' c'.body).name = c'.body.name)
    (constants : (f c.body).chunk.constants = c.body.chunk.constants)
    (constants' : (f' c'.body).chunk.constants = c'.body.chunk.constants) :
    Alike table table' (c.mapBody f) (c'.mapBody f') :=
  { h with
    body := alike
    orderly := h.orderly.work name constants
    orderly' := h.orderly'.work name' constants' }

theorem emit (op : Opcode) : Alike table table' (c.emit op) (c'.emit op) := by
  refine h.work (·.writeOpcode op c.line) (·.writeOpcode op c'.line) ?_
    rfl rfl (Chunk.writeOpcode_constants ..) (Chunk.writeOpcode_constants ..)
  exact { h.body with
    code := Chunk.writeOpcode_alike h.body.code op _ _
    constants := by simpa [Body.writeOpcode, Body.mapChunk] using h.body.constants
    lastOpcode := rfl }

theorem emitWord (width word : Nat) :
    Alike table table' (c.emitWord width word) (c'.emitWord width word) := by
  refine h.work (·.mapChunk (·.writeWord width word c.line))
    (·.mapChunk (·.writeWord width word c'.line)) ?_
    rfl rfl (Chunk.writeWord_constants ..) (Chunk.writeWord_constants ..)
  exact { h.body with
    code := Chunk.writeWord_alike h.body.code width word _ _
    constants := by simpa [Body.mapChunk] using h.body.constants }

theorem emitByte (op : Opcode) (operand : Nat) :
    Alike table table' (c.emitByte op operand) (c'.emitByte op operand) :=
  (h.emit op).emitWord 1 operand

theorem emitIndexed (op : Opcode) (index : Nat) :
    Alike table table' (c.emitIndexed op index) (c'.emitIndexed op index) :=
  .ite .rfl (fun _ => h.emitByte op index) fun _ => (h.emit _).emitWord 4 index

theorem emitReturn : Alike table table' c.emitReturn c'.emitReturn := (h.emit .null).emit .return

/-! ## Jumps -/

theorem emitJump (op : Opcode) : Alike table table' (c.emitJump op) (c'.emitJump op) :=
  (h.emit op).emitWord 2 maxJump

theorem patchWord (site word : Nat) :
    Alike table table' (c.mapBody (·.mapChunk (·.patchWord site word)))
      (c'.mapBody (·.mapChunk (·.patchWord site word))) := by
  refine h.work (·.mapChunk (·.patchWord site word)) (·.mapChunk (·.patchWord site word)) ?_
    rfl rfl (Chunk.patchWord_constants ..) (Chunk.patchWord_constants ..)
  exact { h.body with
    code := Chunk.patchWord_alike h.body.code site word
    constants := by simpa [Body.mapChunk] using h.body.constants }

theorem patchJump (site : Nat) : Alike table table' (c.patchJump site) (c'.patchJump site) := by
  have patched : Alike table table'
      (if c.here - site - 2 ≤ maxJump then
        c.mapBody (·.mapChunk (·.patchWord site (c.here - site - 2))) else c.report .jumpTooFar)
      (if c'.here - site - 2 ≤ maxJump then
        c'.mapBody (·.mapChunk (·.patchWord site (c'.here - site - 2)))
        else c'.report .jumpTooFar) := by
    rw [h.here]
    exact .ite .rfl (fun _ => h.patchWord _ _) fun _ => h.report _
  refine patched.work (fun body => { body with landing := some c.here })
    (fun body => { body with landing := some c'.here }) ?_ rfl rfl rfl rfl
  exact { patched.body with landing := congrArg some h.here }

theorem emitLoop (start : Nat) : Alike table table' (c.emitLoop start) (c'.emitLoop start) := by
  have written := h.emit .loop
  unfold Compiler.emitLoop
  dsimp only
  rw [written.here]
  exact .ite .rfl (fun _ => written.emitWord _ _) fun _ => (written.report _).emitWord _ _

theorem patchLoop (site start : Nat) :
    Alike table table' (c.patchLoop site start) (c'.patchLoop site start) :=
  .ite .rfl (fun _ => h.patchWord _ _) fun _ => h.report _

/-! ## Scopes and loops -/

theorem beginScope : Alike table table' c.beginScope c'.beginScope :=
  h.work (fun body => { body with depth := body.depth + 1 })
    (fun body => { body with depth := body.depth + 1 })
    { h.body with depth := congrArg (· + 1) h.body.depth } rfl rfl rfl rfl

omit h in
theorem emitPops (locals : List LocalVariable) (h : Alike table table' c c') :
    Alike table table' (c.emitPops locals) (c'.emitPops locals) := by
  induction locals generalizing c c' with
  | nil => exact h
  | cons _ locals ih => exact ih (h.emit .pop)

theorem endScope : Alike table table' c.endScope c'.endScope := by
  have closed : Alike table table'
      (c.mapBody fun body => { body with depth := body.depth - 1 })
      (c'.mapBody fun body => { body with depth := body.depth - 1 }) :=
    h.work (fun body => { body with depth := body.depth - 1 })
      (fun body => { body with depth := body.depth - 1 })
      { h.body with depth := congrArg (· - 1) h.body.depth } rfl rfl rfl rfl
  unfold Compiler.endScope
  extract_lets inner dropped inner' dropped'
  have same : dropped = dropped' := by
    simp only [dropped, dropped', Body.localsDeeperThan, closed.body.locals, closed.body.depth,
      inner, inner']
  rw [same]
  have popped := closed.emitPops dropped'
  exact popped.work (fun body => { body with locals := body.locals.drop dropped'.length })
    (fun body => { body with locals := body.locals.drop dropped'.length })
    { popped.body with locals := congrArg (·.drop dropped'.length) popped.body.locals } rfl rfl rfl rfl

theorem beginLoop (start : Nat) : Alike table table' (c.beginLoop start) (c'.beginLoop start) :=
  h.work (fun body => { body with loops := ⟨start, body.depth, [], []⟩ :: body.loops })
    (fun body => { body with loops := ⟨start, body.depth, [], []⟩ :: body.loops })
    { h.body with loops := by rw [h.body.depth, h.body.loops] } rfl rfl rfl rfl

theorem setLoops (loops : List LoopRecord) :
    Alike table table' (c.mapBody fun body => { body with loops })
      (c'.mapBody fun body => { body with loops }) :=
  h.work (fun body => { body with loops }) (fun body => { body with loops })
    { h.body with loops := rfl } rfl rfl rfl rfl

omit h in
theorem foldl {step : Compiler → Nat → Compiler}
    (turn : ∀ {c c'} site, Alike table table' c c' → Alike table table' (step c site) (step c' site))
    (sites : List Nat) (h : Alike table table' c c') :
    Alike table table' (sites.foldl step c) (sites.foldl step c') := by
  induction sites generalizing c c' with
  | nil => exact h
  | cons site sites ih => exact ih (turn site h)

theorem endLoop : Alike table table' c.endLoop c'.endLoop := by
  unfold Compiler.endLoop
  rw [h.body.loops]
  cases c'.body.loops with
  | nil => exact h
  | cons loop outer =>
      exact foldl (fun site h => h.patchJump site) _
        (foldl (fun site h => h.patchLoop site loop.start) _ (h.setLoops outer))

theorem mapLoop (f : LoopRecord → LoopRecord) :
    Alike table table' (c.mapLoop f) (c'.mapLoop f) := by
  have same (c : Compiler) : c.mapLoop f =
      c.mapBody fun body => { body with loops := body.loops.modifyHead f } := by
    obtain ⟨_, _, _, _, _, _, ⟨_, _, _, _, _, loops, _, _⟩, _, _, _⟩ := c
    cases loops <;> rfl
  rw [same, same]
  exact h.work _ _ { h.body with loops := congrArg (·.modifyHead f) h.body.loops } rfl rfl rfl rfl

/-! ## Constants and strings -/

/-- Entering equal constants, if they are found at the same place. -/
theorem constantIndex {v v' : Value} (outline : v.outline = v'.outline)
    (found : c.body.chunk.constants.findIdx? (· == v) =
      c'.body.chunk.constants.findIdx? (· == v'))
    (owns : c.heap.Owns v) (owns' : c'.heap.Owns v') :
    AlikeWith table table' (c.constantIndex v) (c'.constantIndex v') := by
  have added : AlikeWith table table'
      ((c.body.chunk.addConstant v).1, c.mapBody (·.mapChunk fun _ => (c.body.chunk.addConstant v).2))
      ((c'.body.chunk.addConstant v').1,
        c'.mapBody (·.mapChunk fun _ => (c'.body.chunk.addConstant v').2)) := by
    unfold Chunk.addConstant
    rw [← found]
    cases c.body.chunk.constants.findIdx? (· == v) with
    | some index => exact ⟨rfl, h⟩
    | none =>
        have sizes : c.body.chunk.constants.size = c'.body.chunk.constants.size := by
          simpa using congrArg List.length h.body.constants
        refine ⟨sizes, { h with body := ?_, orderly := ?_, orderly' := ?_ }⟩
        · exact { h.body with
            constants := by
              simp only [Array.toList_push, List.map_append, List.map_singleton, outline,
                h.body.constants, Compiler.mapBody, Body.mapChunk] }
        · exact ⟨h.orderly.valid, h.orderly.body.push owns, h.orderly.enclosing⟩
        · exact ⟨h.orderly'.valid, h.orderly'.body.push owns', h.orderly'.enclosing⟩
  exact .ite (iff_of_eq (congrArg (· < Nat.pow 2 32) added.value)) (fun _ => added)
    fun _ => ⟨rfl, added.state.report _⟩

/-- Entering equal constants that are no routines. -/
theorem plainIndex {v v' : Value} (outline : v.outline = v'.outline)
    (plain : v.asRoutine? = none) (plain' : v'.asRoutine? = none)
    (has : ∀ t ∈ v.texts, c.heap.Has t) (has' : ∀ t ∈ v'.texts, c'.heap.Has t) :
    AlikeWith table table' (c.constantIndex v) (c'.constantIndex v') := by
  have owns {heap : Heap} {v : Value} (plain : v.asRoutine? = none)
      (has : ∀ t ∈ v.texts, heap.Has t) : heap.Owns v := by
    refine ⟨has, fun r same => ?_⟩
    rw [Value.asRoutine?, same] at plain
    cases plain
  refine h.constantIndex outline ?_ (owns plain has) (owns plain' has')
  rw [findIdx?_outline _ plain, findIdx?_outline _ plain', h.body.constants, outline]

omit h in
theorem emitConstant {v v' : Value}
    (indexed : AlikeWith table table' (c.constantIndex v) (c'.constantIndex v')) :
    Alike table table' (c.emitConstant v) (c'.emitConstant v') :=
  indexed.bind fun index h => h.emitIndexed .constant index

theorem emitNumber (x : Float) :
    Alike table table' (c.emitConstant (.number x)) (c'.emitConstant (.number x)) := by
  have none : (Value.number x).texts = [] := rfl
  exact emitConstant (h.plainIndex rfl rfl rfl (by simp [none]) (by simp [none]))

theorem intern (chars : String) : Alike table table' (c.intern chars).2 (c'.intern chars).2 := by
  obtain ⟨ts, texts, texts'⟩ := h.texts
  refine { h with texts := ⟨ts ++ [chars], ?_, ?_⟩, orderly := ?_, orderly' := ?_ }
  · rw [TextTable.internAll_append, ← texts]
    rfl
  · rw [TextTable.internAll_append, ← texts']
    rfl
  · exact h.orderly.mono (h.orderly.valid.intern chars) (Heap.le_intern _ _) (Nat.le_refl _)
  · exact h.orderly'.mono (h.orderly'.valid.intern chars) (Heap.le_intern _ _) (Nat.le_refl _)

theorem chars (chars : String) : (c.intern chars).1.chars = (c'.intern chars).1.chars :=
  (h.orderly.valid.chars_text chars).trans (h.orderly'.valid.chars_text chars).symm

theorem nameIndex (name : String) :
    AlikeWith table table' (c.nameIndex name) (c'.nameIndex name) := by
  have outline : (Value.string (c.intern name).1).outline =
      (Value.string (c'.intern name).1).outline :=
    congrArg (fun chars => (Outline.string chars, true)) (h.chars name)
  exact (h.intern name).plainIndex outline rfl rfl
    (List.forall_mem_singleton.mpr (h.orderly.valid.has_intern name))
    (List.forall_mem_singleton.mpr (h.orderly'.valid.has_intern name))

theorem emitString (chars : String) :
    Alike table table' ((c.intern chars).2.emitConstant (.string (c.intern chars).1))
      ((c'.intern chars).2.emitConstant (.string (c'.intern chars).1)) :=
  emitConstant (h.nameIndex chars)

/-! ## Routines -/

/-- Beginning routines of the same name, which has been looked up. -/
theorem beginRoutine {name name' : Text} (same : name.chars = name'.chars)
    (has : c.heap.Has name) (has' : c'.heap.Has name') :
    Alike table table' (c.beginRoutine (some name)) (c'.beginRoutine (some name')) :=
  { h with
    body := Body.alike_start (congrArg some same)
    enclosing := .cons h.body h.enclosing
    orderly := ⟨h.orderly.valid, Body.owned_start_some has,
      List.forall_mem_cons.mpr ⟨h.orderly.body, h.orderly.enclosing⟩⟩
    orderly' := ⟨h.orderly'.valid, Body.owned_start_some has',
      List.forall_mem_cons.mpr ⟨h.orderly'.body, h.orderly'.enclosing⟩⟩ }

theorem completed : Alike table table' (if c.body.endsWithReturn then c else c.emitReturn)
    (if c'.body.endsWithReturn then c' else c'.emitReturn) := by
  refine .ite ?_ (fun _ => h) fun _ => h.emitReturn
  simp only [Body.endsWithReturn, h.body.lastOpcode, h.body.landing, h.body.size]

/-- The routine completed is new, so it is none of the constants. -/
structure Fresh (r : Routine) (c : Compiler) : Prop where
  owns : c.heap.Owns (.routine r)
  older : ∀ v ∈ c.body.chunk.constants, ∀ s, v.datum = .routine s → s.id < r.id

omit h in
theorem constants_finished (c : Compiler) : c.finished.constants = c.body.chunk.constants := by
  unfold finished
  split
  · rfl
  · simp [Compiler.emitReturn, Compiler.emit, Body.writeOpcode, Compiler.mapBody, Body.mapChunk]

omit h in
theorem fresh_endRoutine (orderly : Orderly c.heap c.body c.enclosing) :
    Fresh c.endRoutine.1 c.endRoutine.2 := by
  rw [endRoutine_eq]
  refine ⟨⟨fun t mem => ?_, ?_⟩, ?_⟩
  · rcases Routine.mem_texts.mp mem with name | ⟨v, there, mem⟩
    · exact orderly.body.name t name
    · rw [Heap.allocate, constants_finished] at there
      exact (orderly.body.constants v there).texts t mem
  · rintro r ⟨⟩
    exact Nat.lt_succ_self _
  · cases outer : c.enclosing with
    | nil => simp [Body.start, Chunk.empty]
    | cons b others =>
        intro v mem s same
        exact ((orderly.enclosing b (by simp [outer])).constants v mem).routine s same

omit h in
theorem orderly_endRoutine (orderly : Orderly c.heap c.body c.enclosing) :
    Orderly c.endRoutine.2.heap c.endRoutine.2.body c.endRoutine.2.enclosing := by
  rw [endRoutine_eq]
  refine Orderly.mono ⟨orderly.valid, ?_, fun b mem => orderly.enclosing b
    (List.mem_of_mem_tail mem)⟩ orderly.valid (Heap.Le.refl _) (Nat.le_succ _)
  cases outer : c.enclosing with
  | nil => exact Body.owned_start (by simp)
  | cons b others => exact orderly.enclosing b (by simp [outer])

/-- The routines around the innermost one are alike, if there are any. -/
theorem around : (c.enclosing.headD (.start none)).Alike (c'.enclosing.headD (.start none)) ∧
    List.Forall₂ Body.Alike c.enclosing.tail c'.enclosing.tail := by
  have enclosing := h.enclosing
  revert enclosing
  generalize c.enclosing = outer
  generalize c'.enclosing = outer'
  rintro (_ | ⟨first, rest⟩)
  · exact ⟨Body.alike_start rfl, .nil⟩
  · exact ⟨first, rest⟩

theorem endRoutine : Alike table table' c.endRoutine.2 c'.endRoutine.2 ∧
    c.endRoutine.1.outline = c'.endRoutine.1.outline := by
  have orderly := orderly_endRoutine h.orderly
  have orderly' := orderly_endRoutine h.orderly'
  have chunk : c.finished.code = c'.finished.code ∧
      c.finished.constants.toList.map Value.outline =
        c'.finished.constants.toList.map Value.outline :=
    ⟨h.completed.body.code, h.completed.body.constants⟩
  rw [endRoutine_eq] at orderly orderly'
  rw [endRoutine_eq, endRoutine_eq]
  refine ⟨{ h with body := ?_, enclosing := ?_, orderly := orderly, orderly' := orderly' }, ?_⟩
  · exact h.around.1
  · exact h.around.2
  · rw [Routine.outline_eq, Routine.outline_eq]
    simp only [Heap.allocate, h.body.name, h.body.arity, chunk]

omit h in
theorem Fresh.absent {r : Routine} (fresh : Fresh r c) :
    c.body.chunk.constants.findIdx? (· == Value.routine r) = none := by
  refine Array.findIdx?_eq_none_iff.mpr fun v mem => Bool.eq_false_iff.mpr fun same => ?_
  have same : v.datum.same (.routine r) = true := same
  cases datum : v.datum with
  | routine s =>
      rw [datum] at same
      exact absurd (eq_of_beq same) (Nat.ne_of_lt (fresh.older v mem s datum))
  | _ =>
      rw [datum] at same
      cases same

/-- Loading a routine that was completed last. -/
theorem emitRoutine {r r' : Routine} (outline : r.outline = r'.outline) (fresh : Fresh r c)
    (fresh' : Fresh r' c') :
    Alike table table' (c.emitConstant (.routine r)) (c'.emitConstant (.routine r')) :=
  emitConstant (h.constantIndex (congrArg (·, true) outline)
    (fresh.absent.trans fresh'.absent.symm) fresh.owns fresh'.owns)

end Alike

end

end Compiler
end StackScript
