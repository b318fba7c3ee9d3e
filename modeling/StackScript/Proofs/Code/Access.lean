/-!
# Accesses that ask

A difference may be below zero and an index may lie outside an array.  Here such accesses
have a trap instead of a result, so that programs written with them show whether they ever
run into one.
-/

namespace StackScript

/-- Why an access has no result. -/
inductive Trap where
  /-- There is nothing at that index. -/
  | outOfBounds
  /-- More is taken away than there is. -/
  | belowZero
deriving DecidableEq, Repr

/-- A difference, which must not be negative. -/
def strictSub (a b : Nat) : Except Trap Nat := if b ≤ a then .ok (a - b) else .error .belowZero

/-- An element, which must be there. -/
def strictGet {α : Type} (items : Array α) (index : Nat) : Except Trap α :=
  match items[index]? with
  | some item => .ok item
  | none => .error .outOfBounds

/-- The elements from an index on, which must not lie behind the end. -/
def strictFrom {α : Type} (items : Array α) (index : Nat) : Except Trap (Array α) :=
  if index ≤ items.size then .ok (items.extract index items.size) else .error .outOfBounds

theorem strictSub_eq {a b : Nat} (h : b ≤ a) : strictSub a b = .ok (a - b) := if_pos h

theorem strictGet_eq {α : Type} {items : Array α} {index : Nat} {item : α}
    (h : items[index]? = some item) : strictGet items index = .ok item := by
  simp only [strictGet, h]

theorem strictFrom_eq {α : Type} {items : Array α} {index : Nat} (h : index ≤ items.size) :
    strictFrom items index = .ok (items.extract index items.size) := if_pos h

end StackScript
