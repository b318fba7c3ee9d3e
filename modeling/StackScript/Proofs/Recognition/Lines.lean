import StackScript.Proofs.Recognition.Parts
import StackScript.Proofs.Shape.Part
import StackScript.Proofs.Token.Places

/-!
# Lines of a program

Bytes are written with the line of the token read last.  The first byte is written behind the
first token, so all lines in the tables of a program are lines of its tokens; the line that
the compiler starts with, before it has read anything, is in none of them.  The routines that
a script can get hold of are completed before the script is, so this holds for each of them.
-/

namespace StackScript

/-- Some token of the source is on the line, perhaps the end marker. -/
def Token.OnLine (source : String) (line : Nat) : Prop := ∃ t ∈ Token.scan source, t.line = line

/-- Lines of tokens are lines of the source, counted from one. -/
theorem Token.OnLine.bounds {source : String} {line : Nat} (h : Token.OnLine source line) :
    1 ≤ line ∧ line ≤ source.toList.count '\n' + 1 := by
  obtain ⟨t, mem, rfl⟩ := h
  obtain ⟨before, after, text, begins⟩ := Token.within_of_mem_scan mem
  rw [begins.line, text, List.count_append]
  omega

namespace Compiler

variable {known : Nat → Prop} {reading : Bool} {c c' : Compiler}

/-! ## Lines -/

/-- The lines that have been written, and those that may still be, are of some kind. -/
structure Lined (known : Nat → Prop) (c : Compiler) : Prop where
  previous : known c.previous.line
  current : known c.current.line
  unread : ∀ t ∈ c.unread, known t.line
  body : c.body.chunk.Lined known
  enclosing : ∀ body ∈ c.enclosing, body.chunk.Lined known
  completed : ∀ r ∈ c.completed, r.chunk.Lined known

theorem Lined.reportAt (h : c.Lined known) (token : Token) (problem : Problem) :
    (c.reportAt token problem).Lined known where
  previous := by rw [reportAt_previous]; exact h.previous
  current := by rw [reportAt_current]; exact h.current
  unread := by rw [reportAt_unread]; exact h.unread
  body := by rw [reportAt_body]; exact h.body
  enclosing := by rw [reportAt_enclosing]; exact h.enclosing
  completed := by rw [reportAt_completed]; exact h.completed

theorem Lined.fetch {tokens : List Token} (h : c.Lined known)
    (all : ∀ t ∈ tokens, known t.line) : (c.fetch tokens).Lined known := by
  induction tokens generalizing c with
  | nil => exact { h with unread := fun t mem => by cases mem }
  | cons token rest ih =>
      obtain ⟨first, others⟩ := List.forall_mem_cons.mp all
      have taken : Lined known { c with current := token, unread := rest } :=
        { h with current := first, unread := others }
      unfold Compiler.fetch
      split
      · exact ih (taken.reportAt _ _) others
      · exact taken

/-- When a token is read, the line of the token before it is forgotten. -/
theorem lined_advance (current : known c.current.line) (unread : ∀ t ∈ c.unread, known t.line)
    (body : c.body.chunk.Lined known) (enclosing : ∀ body ∈ c.enclosing, body.chunk.Lined known)
    (completed : ∀ r ∈ c.completed, r.chunk.Lined known) : c.advance.Lined known := by
  have moved : Lined known { c with previous := c.current } :=
    ⟨current, current, unread, body, enclosing, completed⟩
  exact moved.fetch unread

theorem Lined.finished (h : c.Lined known) : c.finished.Lined known := by
  unfold Compiler.finished
  split
  · exact h.body
  · exact (h.body.writeOpcode _ h.previous).writeOpcode _ h.previous

theorem Act.lined (act : Act reading c c') (h : c.Lined known) : c'.Lined known := by
  cases act with
  | read => exact lined_advance h.current h.unread h.body h.enclosing h.completed
  | report | complain => exact h.reportAt _ _
  | giveUp | recover | intern => exact ⟨h.previous, h.current, h.unread, h.body, h.enclosing, h.completed⟩
  | constant => exact { h with body := h.body.addConstant _ }
  | work _ _ _ _ lined => exact { h with body := lined h.previous h.body }
  | beginRoutine =>
      exact { h with
        body := Chunk.lined_empty
        enclosing := List.forall_mem_cons.mpr ⟨h.body, h.enclosing⟩ }
  | endRoutine =>
      rw [endRoutine_eq]
      refine ⟨h.previous, h.current, h.unread, ?_,
        fun body mem => h.enclosing body (List.mem_of_mem_tail mem), fun r mem => ?_⟩
      · show Chunk.Lined known (c.enclosing.headD (.start none)).chunk
        cases around : c.enclosing with
        | nil => exact Chunk.lined_empty
        | cons outer others => exact h.enclosing outer (around ▸ .head _)
      · rcases Array.mem_push.mp mem with old | rfl
        · exact h.completed r old
        · exact h.finished

theorem Acts.lined (acts : Acts reading c c') : c.Lined known → c'.Lined known :=
  acts.preserve Act.lined

/-! ## Routines among constants -/

/-- A routine that has been made a constant is complete. -/
def Complete (c : Compiler) (chunk : Chunk) : Prop :=
  ∀ v ∈ chunk.constants, ∀ r, v.datum = .routine r → r ∈ c.completed

/-- All routines that have been made constants are complete. -/
structure Gathered (c : Compiler) : Prop where
  body : c.Complete c.body.chunk
  enclosing : ∀ body ∈ c.enclosing, c.Complete body.chunk
  completed : ∀ r ∈ c.completed, c.Complete r.chunk

theorem complete_empty (c : Compiler) : c.Complete .empty :=
  fun v mem => absurd mem (Array.not_mem_empty v)

/-- More routines may have been completed since. -/
theorem Complete.mono {chunk : Chunk} (more : ∀ r ∈ c.completed, r ∈ c'.completed)
    (h : c.Complete chunk) : c'.Complete chunk := fun v mem r same => more r (h v mem r same)

theorem Gathered.silent (h : c.Gathered) (body : c'.body = c.body)
    (enclosing : c'.enclosing = c.enclosing) (completed : c'.completed = c.completed) :
    c'.Gathered := by
  have kept {chunk : Chunk} : c.Complete chunk → c'.Complete chunk :=
    .mono fun r mem => completed ▸ mem
  exact ⟨body ▸ kept h.body, fun b mem => kept (h.enclosing b (enclosing ▸ mem)),
    fun r mem => kept (h.completed r (completed ▸ mem))⟩

theorem Gathered.finished (h : c.Gathered) : c.Complete c.finished := by
  unfold Compiler.finished
  split
  · exact h.body
  · intro v mem
    refine h.body v ?_
    simpa only [emitReturn, emit, mapBody, Body.writeOpcode, Body.mapChunk,
      Chunk.writeOpcode_constants] using mem

theorem Act.gathered (act : Act reading c c') (h : c.Gathered) : c'.Gathered := by
  cases act with
  | read => exact h.silent (advance_body c) (advance_enclosing c) (advance_completed c)
  | report | complain =>
      exact h.silent (reportAt_body ..) (reportAt_enclosing ..) (reportAt_completed ..)
  | giveUp | recover | intern => exact h.silent rfl rfl rfl
  -- a routine becomes a constant only after it has been completed
  | constant _ made =>
      refine ⟨fun v mem r same => ?_, h.enclosing, h.completed⟩
      replace mem : v ∈ (c.body.chunk.addConstant _).2.constants := mem
      unfold Chunk.addConstant at mem
      split at mem
      · exact h.body v mem r same
      · rcases Array.mem_push.mp mem with old | rfl
        · exact h.body v old r same
        · cases made with
          | number | string => cases same
          | routine complete =>
              cases same
              exact complete
  | work _ constants => exact ⟨fun v mem => h.body v (constants ▸ mem), h.enclosing, h.completed⟩
  | beginRoutine =>
      exact ⟨complete_empty _, List.forall_mem_cons.mpr ⟨h.body, h.enclosing⟩, h.completed⟩
  | endRoutine =>
      have more : ∀ r ∈ c.completed, r ∈ c.endRoutine.2.completed :=
        (@acts_endRoutine reading c).completed
      rw [endRoutine_eq] at more ⊢
      refine ⟨?_, fun body mem => (h.enclosing body (List.mem_of_mem_tail mem)).mono more,
        fun r mem => ?_⟩
      -- the body that goes on is the innermost enclosing one
      · show Complete _ (c.enclosing.headD (.start none)).chunk
        cases around : c.enclosing with
        | nil => exact complete_empty _
        | cons outer others => exact (h.enclosing outer (around ▸ .head _)).mono more
      · rcases Array.mem_push.mp mem with old | rfl
        · exact (h.completed r old).mono more
        · exact h.finished.mono more

theorem Acts.gathered (acts : Acts reading c c') : c.Gathered → c'.Gathered :=
  acts.preserve Act.gathered

/-! ## Whole programs -/

variable {source : String} {heap : Heap} {script r : Routine}

/-- Nothing comes before the second token, unless there is but one. -/
theorem acts_closing_advance : Acts true (opening source heap).advance (closing source heap) := by
  unfold closing declarations
  dsimp only
  rw [show depthBound (Token.scan source) = 2 * (Token.scan source).length + 4 + 3 + 1 from rfl]
  unfold repeatWhile
  split
  · refine Relation.ReflTransGen.trans ?_ (acts_advance _)
    exact (acts_phrase_advance _ _).trans (acts_repeatWhile (acts_phrase _ _) _ _)
  · exact .refl

theorem mem_of_unread_fetch {tokens : List Token} {t : Token} {c : Compiler}
    (mem : t ∈ (c.fetch tokens).unread) : t ∈ tokens := by
  induction tokens generalizing c with
  | nil => exact mem
  | cons token rest ih =>
      unfold fetch at mem
      split at mem
      · exact .tail _ (ih mem)
      · exact .tail _ mem

theorem lined_opening : (opening source heap).advance.Lined (Token.OnLine source) := by
  have all {t : Token} (mem : t ∈ Token.scan source) : Token.OnLine source t.line := ⟨t, mem, rfl⟩
  have fresh : (opening source heap).body = .start none := advance_body _
  have alone : (opening source heap).enclosing = [] := advance_enclosing _
  have none : (opening source heap).completed = #[] := advance_completed _
  have current : (opening source heap).current ∈ Token.scan source := by
    have stream : (opening source heap).current ∈ (opening source heap).stream := .head _
    rw [stream_opening] at stream
    exact List.mem_of_mem_filter stream
  refine lined_advance (all current) (fun t mem => all (mem_of_unread_fetch mem)) ?_ ?_ ?_
  · rw [fresh]
    exact Chunk.lined_empty
  · rw [alone]
    exact fun body mem => by cases mem
  · rw [none]
    exact fun r mem => absurd mem (Array.not_mem_empty r)

theorem gathered_start (tokens : List Token) (heap : Heap) : (start tokens heap).Gathered where
  body := complete_empty _
  enclosing body mem := by cases mem
  completed r mem := absurd mem (Array.not_mem_empty r)

/-- All routines that a script can get hold of have been completed. -/
theorem within_completed (ok : (compile source heap).result = .ok script)
    (within : script.Within r) : r ∈ (closing source heap).endRoutine.2.completed := by
  have whole : Acts true (start (Token.scan source) heap) (closing source heap).endRoutine.2 :=
    ((acts_advance _).trans (acts_closing source heap)).trans (acts_endRoutine _)
  have gathered := whole.gathered (gathered_start _ heap)
  induction within with
  | self =>
      rw [compile_eq] at ok
      dsimp only at ok
      split at ok
      · cases ok
        cases made_endRoutine (closing source heap) with
        | routine complete => exact complete
      · cases ok
  | constant _ mem same ih => exact gathered.completed _ ih _ mem _ same

/-- The lines of all routines of a program are lines of its tokens. -/
theorem lined_of_ok (ok : (compile source heap).result = .ok script) (within : script.Within r) :
    r.chunk.Lined (Token.OnLine source) := by
  have whole : Acts true (opening source heap).advance (closing source heap).endRoutine.2 :=
    acts_closing_advance.trans (acts_endRoutine _)
  exact (whole.lined lined_opening).completed r (within_completed ok within)

/-- So every look-up in a line table of a program finds the line of a token. -/
theorem onLine_lineAt (ok : (compile source heap).result = .ok script) (within : script.Within r)
    (offset : Nat) : Token.OnLine source (r.chunk.lineAt offset) := by
  refine (lined_of_ok ok within).lineAt ?_ offset
  obtain ⟨layout, p, fine, rfl⟩ := part_of_ok ok within
  obtain ⟨note, there, -⟩ := fine.enters
  obtain ⟨a, code, -⟩ := fine.follows 0 note there
  intro none
  simp [Chunk.decode, none] at code

end Compiler
end StackScript
