import StackScript.Proofs.Recognition.Parts

/-!
# Functions that a source declares

A routine that is a constant of another one goes by the name with which it was declared, and
this name stands in the source behind the word for functions.  Only the script itself
has no name, and it is nobody's constant.
-/

namespace StackScript

/-- Somewhere among the tokens a function of this name is declared. -/
def Token.Declares (ts : List Token) (name : String) : Prop :=
  ∃ word id : Token, [word, id] <:+: ts ∧ word.kind = .fn ∧ id.kind = .identifier ∧ id.lexeme = name

theorem Token.Declares.mono {ts us : List Token} {name : String} (h : Declares ts name)
    (part : ts <:+: us) : Declares us name := by
  obtain ⟨word, id, there, kinds⟩ := h
  exact ⟨word, id, there.trans part, kinds⟩

/-! ## In the source -/

theorem DeclarationWritten.functions_eq {s : Statement} {ts : List Token}
    (h : DeclarationWritten s ts) : s.functions = [] := by
  cases h <;> rfl

theorem InitializerWritten.functions_eq {s : Statement} {ts : List Token}
    (h : InitializerWritten s ts) : s.functions = [] := by
  cases h with
  | none | expression => rfl
  | declaration written => exact written.functions_eq

/-- The functions of a tree are declared by the tokens that write it. -/
theorem StatementWritten.declares {k : Category} {ends : Bool} {s : Statement} {ts : List Token}
    (h : StatementWritten k ends s ts) : ∀ name ∈ s.functions, Token.Declares ts name := by
  induction h with
  | print | expression | leave | again | giveBack | done => exact fun name mem => by cases mem
  | @block l r _ s ts _ _ _ body =>
      exact fun name mem => (body name mem).mono ⟨[l], [r], by simp⟩
  | @when k l r _ _ e s ts us _ _ _ _ _ yes =>
      refine List.forall_mem_append.mpr ⟨fun name mem => ?_, fun name mem => by cases mem⟩
      exact (yes name mem).mono ⟨k :: l :: (ts ++ [r]), [], by simp⟩
  | @choose k l r o _ _ e s t ts us vs _ _ _ _ _ _ _ yes no =>
      refine List.forall_mem_append.mpr ⟨fun name mem => ?_, fun name mem => ?_⟩
      · exact (yes name mem).mono ⟨k :: l :: (ts ++ [r]), o :: vs, by simp⟩
      · exact (no name mem).mono ⟨k :: l :: (ts ++ r :: (us ++ [o])), [], by simp⟩
  | @whileLoop k l r _ _ e s ts us _ _ _ _ _ body =>
      exact fun name mem => (body name mem).mono ⟨k :: l :: (ts ++ [r]), [], by simp⟩
  | @forLoop k l m r _ init test step s is ts us vs _ _ first _ _ _ _ _ body =>
      intro name mem
      have inside : name ∈ s.functions := by
        simpa [Statement.forLoop, Statement.functions, first.functions_eq] using mem
      exact (body name inside).mono ⟨k :: l :: (is ++ (ts ++ m :: (us ++ [r]))), [], by simp⟩
  | declare written =>
      rw [written.functions_eq]
      exact fun name mem => by cases mem
  | @define k n l r b d _ names s ps ts word id _ _ _ _ _ _ body =>
      refine List.forall_mem_cons.mpr ⟨?_, fun name mem => ?_⟩
      · exact ⟨k, n, ⟨[], _, rfl⟩, word, id, rfl⟩
      · exact (body name mem).mono ⟨k :: n :: l :: (ps ++ [r, b]), [d], by simp⟩
  | statement _ ih => exact ih
  | @next _ _ s t ts us _ _ first rest =>
      refine List.forall_mem_append.mpr ⟨fun name mem => ?_, fun name mem => ?_⟩
      · exact (first name mem).mono (List.prefix_append ts us).isInfix
      · exact (rest name mem).mono (List.suffix_append ts us).isInfix

/-- A tree declares what the source that writes it declares. -/
theorem Statement.Writes.declares {s : Statement} {source : String} (h : s.Writes source) :
    ∀ name ∈ s.functions, Token.Declares (Token.scan source) name := by
  obtain ⟨ts, e, ends, same, -, written⟩ := h
  rw [same]
  exact fun name mem => (written.declares name mem).mono (List.prefix_append ts [e]).isInfix

/-! ## Among the constants -/

/-- A function declared in a statement goes by its name there. -/
theorem Statement.name_of_mem_parts {layout : Layout} {outer : List (List LocalVariable)}
    {s : Statement} (proper : s.Proper) {place : Place} {pool : Pool} (sound : pool.Sound)
    {p : Part} (mem : p ∈ s.parts layout outer place pool) :
    (∃ text, p.name = some text ∧ text.chars ∈ s.functions) ∧ p.body.functions ⊆ s.functions := by
  induction s generalizing place pool with
  | next a b first rest =>
      rcases List.mem_append.mp mem with mem | mem
      · obtain ⟨⟨text, name, declared⟩, inside⟩ := first proper.1 sound mem
        exact ⟨⟨text, name, List.mem_append_left _ declared⟩,
          List.subset_append_of_subset_left _ inside⟩
      · obtain ⟨⟨text, name, declared⟩, inside⟩ :=
          rest proper.2 (a.sound_code layout proper.1 place sound) mem
        exact ⟨⟨text, name, List.mem_append_right _ declared⟩,
          List.subset_append_of_subset_right _ inside⟩
  | block s ih => exact ih proper sound mem
  | choose c s t yes no =>
      obtain ⟨test, left, right, -⟩ := proper
      have tested := c.sound_code place.locals test pool sound
      rcases List.mem_append.mp mem with mem | mem
      · obtain ⟨⟨text, name, declared⟩, inside⟩ := yes left tested mem
        exact ⟨⟨text, name, List.mem_append_left _ declared⟩,
          List.subset_append_of_subset_left _ inside⟩
      · obtain ⟨⟨text, name, declared⟩, inside⟩ :=
          no right (s.sound_code layout left place tested) mem
        exact ⟨⟨text, name, List.mem_append_right _ declared⟩,
          List.subset_append_of_subset_right _ inside⟩
  | loop test step s ih =>
      obtain ⟨tested, stepped, inside, -⟩ := proper
      exact ih inside (sound_clauseCode _ stepped (sound_clauseCode _ tested sound)) mem
  | define name parameters s =>
      obtain rfl := List.mem_singleton.mp mem
      -- the name of the routine is the text under which the name was entered
      have valid := (sound.declare place.depth name).heap
      refine ⟨⟨_, rfl, ?_⟩, List.subset_cons_self ..⟩
      rw [show ((pool.declare place.depth name).2.heap.intern name).1.chars = name from
        valid.chars_text name]
      exact List.mem_cons_self ..
  | _ => cases mem

/-- Functions declared inside a part are among those of the whole. -/
theorem Part.Fine.functions_within {layout : Layout} {whole p : Part} (h : whole.Fine layout)
    (sound : whole.pool.Sound) (within : whole.Within layout p) :
    p.body.functions ⊆ whole.body.functions := by
  induction within with
  | self => exact List.Subset.refl _
  | inner within mem ih =>
      have declared := Statement.name_of_mem_parts (h.within within).proper
        (h.sound_within sound within) mem
      exact List.Subset.trans declared.2 ih

/-- A routine that is a constant of a compiled program is one of the functions that the
source declares. -/
theorem Compiler.declared_of_constant {source : String} {heap : Heap} {script r q : Routine}
    (valid : heap.Valid) (ok : (compile source heap).result = .ok script)
    (within : script.Within r) {v : Value} (mem : v ∈ r.chunk.constants)
    (same : v.datum = .routine q) :
    ∃ text, q.name = some text ∧ Token.Declares (Token.scan source) text.chars := by
  obtain ⟨layout, ts, e, ends, tree, tokens, last, written, fine, rfl⟩ := script_of_ok ok
  have writes : tree.Writes source := ⟨ts, e, ends, tokens, last, written⟩
  have sound : (Part.script tree heap).pool.Sound := Pool.sound_empty valid
  obtain ⟨other, p, ⟨rfl, inside⟩, rfl⟩ :=
    (Library.program fine).within ⟨layout, _, ⟨rfl, .self⟩, rfl⟩ within
  obtain ⟨part, declared, rfl⟩ := (fine.within inside).inner_of_constant mem same
  obtain ⟨⟨text, name, known⟩, -⟩ := Statement.name_of_mem_parts (fine.within inside).proper
    (fine.sound_within sound inside) declared
  exact ⟨text, name, writes.declares _ (fine.functions_within sound inside known)⟩

end StackScript
