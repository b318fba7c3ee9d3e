import StackScript.Proofs.Semantics.Expression

/-!
# What evaluation leaves alone

Evaluation adds and removes no variables, and changes none but those that the
expression assigns to.  A call has no access to the variables of its caller.
-/

namespace StackScript

mutual

/-- The names that an expression assigns to. -/
def Expression.assigned : Expression → List String
  | .null | .boolean _ | .number _ | .string _ | .variable _ => []
  | .grouping e | .unary _ e => e.assigned
  | .binary _ a b | .and a b | .or a b => a.assigned ++ b.assigned
  | .assign name e => e.assigned ++ [name]
  | .call f es => f.assigned ++ Expression.listAssigned es

/-- The names that some expressions assign to. -/
def Expression.listAssigned : List Expression → List String
  | [] => []
  | e :: es => e.assigned ++ Expression.listAssigned es

end

namespace Store

/-- The second store has the variables of the first, and their values, except
perhaps those of the newest variables of some names. -/
structure Keeps (assigned : List String) (store store' : Store) : Prop where
  names : store'.names = store.names
  slots : ∀ i, (∀ name ∈ assigned, store.names.idxOf name ≠ i) →
    store'.bindings[i]? = store.bindings[i]?

namespace Keeps

variable {assigned more : List String} {store store' store'' : Store}

theorem refl (assigned : List String) (store : Store) : Keeps assigned store store :=
  ⟨rfl, fun _ _ => rfl⟩

theorem trans (h : Keeps assigned store store') (h' : Keeps more store' store'') :
    Keeps (assigned ++ more) store store'' where
  names := h'.names.trans h.names
  slots i other := by
    rw [h'.slots i, h.slots i]
    · exact fun name mem => other name (List.mem_append_left _ mem)
    · intro name mem
      rw [h.names]
      exact other name (List.mem_append_right _ mem)

theorem left (h : Keeps assigned store store') : Keeps (assigned ++ more) store store' :=
  h.trans (refl more store')

/-- What comes later may touch no variable at all. -/
theorem before (h : Keeps assigned store store') (h' : Keeps [] store' store'') :
    Keeps assigned store store'' := by
  simpa using h.trans h'

/-- Changes of the world are none of the variables. -/
theorem bindings (h : store'.bindings = store.bindings) : Keeps assigned store store' :=
  ⟨by simp only [Store.names, h], fun _ _ => by rw [h]⟩

end Keeps
end Store

theorem map_fst_update (name : String) (v : Value) (bindings : List (String × Value)) :
    (update name v bindings).map Prod.fst = bindings.map Prod.fst := by
  induction bindings with
  | nil => rfl
  | cons newest older ih =>
      unfold update
      split
      · rfl
      · simp [ih]

theorem getElem?_update {name : String} (v : Value) {bindings : List (String × Value)} {i : Nat}
    (other : (bindings.map Prod.fst).idxOf name ≠ i) :
    (update name v bindings)[i]? = bindings[i]? := by
  induction bindings generalizing i with
  | nil => rfl
  | cons newest older ih =>
      simp only [List.map_cons, List.idxOf_cons] at other
      unfold update
      by_cases same : newest.1 = name
      · cases i with
        | zero => simp [same] at other
        | succ i => simp [same]
      · cases i with
        | zero => simp [same]
        | succ i =>
            have different : (newest.1 == name) = false := by simpa using same
            simp only [same, if_false, List.getElem?_cons_succ]
            exact ih (by simpa [different] using other)

namespace Setting

variable {s : Setting} {waiting : List Value} {store store' : Store} {v w : Value}

theorem produce_eq_value (h : s.produce waiting store v = .value w store') : store' = store := by
  unfold produce at h
  split at h
  · cases h
    rfl
  · split at h
    · cases h
    · cases h
      rfl

theorem read_eq_value {name : String} (h : s.read waiting store name = .value w store') :
    store' = store := by
  unfold read at h
  split at h
  · exact produce_eq_value h
  · split at h
    · exact produce_eq_value h
    · cases h

theorem keeps_write {name : String} (h : s.write store name v = .value w store') :
    Store.Keeps [name] store store' := by
  unfold write at h
  split at h
  · split at h
    · cases h
      refine ⟨map_fst_update _ _ _, fun i other => getElem?_update _ ?_⟩
      exact other name (List.mem_singleton_self name)
    · cases h
  · split at h
    · split at h
      · cases h
        exact .bindings rfl
      · cases h
    · cases h

theorem keeps_apply {callee : Value} {arguments : List Value}
    (h : s.apply waiting store callee arguments = .value w store') :
    Store.Keeps [] store store' := by
  unfold apply at h
  split at h
  · cases h
  · cases h
  · cases h
    exact .bindings rfl

end Setting

theorem Outcome.keeps_ofResult {store store' : Store} {result : Except Fault (Value × World)}
    {v : Value} (h : Outcome.ofResult store result = .value v store') :
    Store.Keeps [] store store' := by
  cases result with
  | error => cases h
  | ok =>
      cases h
      exact .bindings rfl

section

variable {s : Setting}

mutual

/-- Evaluation changes no variable but those assigned to. -/
theorem Expression.keeps_evaluate : (e : Expression) → {waiting : List Value} →
    {store store' : Store} → {v : Value} → e.evaluate s waiting store = .value v store' →
      store.Keeps e.assigned store'
  | .null, _, _, _, _, h | .boolean _, _, _, _, _, h | .number _, _, _, _, _, h
  | .string _, _, _, _, _, h => Setting.produce_eq_value h ▸ .refl _ _
  | .variable _, _, _, _, _, h => Setting.read_eq_value h ▸ .refl _ _
  | .grouping e, _, _, _, _, h => e.keeps_evaluate h
  | .unary _ e, _, _, _, _, h => by
      obtain ⟨v, mid, operand, last⟩ := Outcome.bind_eq_value.mp h
      exact (e.keeps_evaluate operand).before (Outcome.keeps_ofResult last)
  | .binary _ a b, _, _, _, _, h => by
      obtain ⟨v, mid, left, h⟩ := Outcome.bind_eq_value.mp h
      obtain ⟨w, mid', right, last⟩ := Outcome.bind_eq_value.mp h
      exact ((a.keeps_evaluate left).trans (b.keeps_evaluate right)).before
        (Outcome.keeps_ofResult last)
  | .and a b, _, _, _, _, h => by
      obtain ⟨v, mid, left, h⟩ := Outcome.bind_eq_value.mp h
      split at h
      · cases h
        exact (a.keeps_evaluate left).left
      · exact (a.keeps_evaluate left).trans (b.keeps_evaluate h)
  | .or a b, _, _, _, _, h => by
      obtain ⟨v, mid, left, h⟩ := Outcome.bind_eq_value.mp h
      split at h
      · exact (a.keeps_evaluate left).trans (b.keeps_evaluate h)
      · cases h
        exact (a.keeps_evaluate left).left
  | .assign _ e, _, _, _, _, h => by
      obtain ⟨v, mid, value, last⟩ := Outcome.bind_eq_value.mp h
      exact (e.keeps_evaluate value).trans (Setting.keeps_write last)
  | .call f es, _, _, _, _, h => by
      obtain ⟨v, mid, callee, h⟩ := Outcome.bind_eq_value.mp h
      obtain ⟨vs, mid', arguments, last⟩ := Outcome.bind_eq_value.mp h
      exact ((f.keeps_evaluate callee).trans (Expression.keeps_evaluateList es arguments)).before
        (Setting.keeps_apply last)

theorem Expression.keeps_evaluateList : (es : List Expression) → {waiting : List Value} →
    {store store' : Store} → {vs : List Value} →
      Expression.evaluateList s es waiting store = .value vs store' →
      store.Keeps (Expression.listAssigned es) store'
  | [], _, _, _, _, h => by
      cases h
      exact .refl _ _
  | e :: es, _, _, _, _, h => by
      obtain ⟨v, mid, first, h⟩ := Outcome.bind_eq_value.mp h
      obtain ⟨vs, mid', others, last⟩ := Outcome.bind_eq_value.mp h
      cases last
      exact (e.keeps_evaluate first).trans (Expression.keeps_evaluateList es others)

end

theorem Expression.names_evaluate {e : Expression} {waiting : List Value} {store store' : Store}
    {v : Value} (h : e.evaluate s waiting store = .value v store') : store'.names = store.names :=
  (e.keeps_evaluate h).names

end

end StackScript
