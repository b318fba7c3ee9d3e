import Mathlib
import StackScript.Number.Literal

/-!
# Number literals are equal only if they are the same

Equality of numbers is not identity: zero has two signs, and a not-a-number does
not equal itself.  A literal has no sign, so two literals that compare as equal
have the same bits, and one entry of a constant pool can serve both.
-/

namespace StackScript
namespace Number

open Float.Model Float.Model.UnpackedFloat

/-- The bits of a number. -/
abbrev Bits : Type := BitVec Format.binary64.numBits

/-- The number, taken apart, has no negative sign. -/
def Unsigned : UnpackedFloat → Prop
  | .infinity sign | .zero sign | .finite sign _ _ _ => sign = .positive
  | .notANumber => True

/-- The sign bit of a number is clear. -/
def Clear (x : Float) : Prop :=
  @unpackSign Format.binary64 x.toModel.toBits.toBitVec = 0#1

/-! ## The sign survives packing -/

theorem sign_of_parts (sign : Sign) (exponent : BitVec 11) (mantissa : BitVec 52) :
    unpackSign (packComponents .binary64 sign exponent mantissa) = sign.toBitVec := by
  simp only [unpackSign, packComponents, BitVec.extractLsb]
  ext i hi
  grind

theorem sign_pack {f : UnpackedFloat} (h : Unsigned f) :
    unpackSign (UnpackedFloat.pack .binary64 f) = 0#1 := by
  cases f with
  | notANumber => exact sign_of_parts .positive _ _
  | infinity sign =>
      obtain rfl : sign = .positive := h
      exact sign_of_parts .positive _ _
  | zero sign =>
      obtain rfl : sign = .positive := h
      exact sign_of_parts .positive _ _
  | finite sign m e pos =>
      obtain rfl : sign = .positive := h
      unfold UnpackedFloat.pack
      dsimp only
      split
      · exact sign_of_parts .positive _ _
      · split
        · exact sign_of_parts .positive _ _
        · exact sign_of_parts .positive _ _

theorem clear_pack {f : UnpackedFloat} (h : Unsigned f) : Clear (.ofModel (Float.Model.pack f)) :=
  sign_pack h

theorem unsigned_unpack {bits : Bits} (h : unpackSign bits = 0#1) :
    Unsigned (UnpackedFloat.unpack .binary64 bits) := by
  have positive : Sign.ofBitVec (unpackSign bits) = .positive := by
    rw [h]
    rfl
  unfold UnpackedFloat.unpack
  dsimp only
  split
  · split
    · exact positive
    · trivial
  · split
    · split
      · exact positive
      · exact positive
    · exact positive

/-! ## Arithmetic without signs -/

theorem unsigned_round (m : Nat) (e : Int) (accuracy : Accuracy) :
    Unsigned (roundWithAccuracy .binary64 .positive m e accuracy) := by
  unfold roundWithAccuracy
  dsimp only
  split <;> rfl

theorem unsigned_mul {x y : UnpackedFloat} (hx : Unsigned x) (hy : Unsigned y) :
    Unsigned (UnpackedFloat.mul .binary64 x y) := by
  cases x <;> cases y <;> simp only [Unsigned] at hx hy <;> subst_vars <;>
    first | trivial | rfl | exact unsigned_round _ _ _

theorem unsigned_div {x y : UnpackedFloat} (hx : Unsigned x) (hy : Unsigned y) :
    Unsigned (UnpackedFloat.div .binary64 x y) := by
  cases x <;> cases y <;> simp only [Unsigned] at hx hy <;> subst_vars <;>
    first | trivial | rfl | exact unsigned_round _ _ _

theorem unsigned_ofNat (n : Nat) : Unsigned (UnpackedFloat.ofNat .binary64 n) := by
  unfold UnpackedFloat.ofNat UnpackedFloat.ofInt UnpackedFloat.normalize
  split
  · rename_i negative
    rw [Int.compare_eq_lt] at negative
    omega
  · rfl
  · exact unsigned_round _ _ _

theorem unsigned_ofScientific (m : Nat) (e : Int) :
    Unsigned (UnpackedFloat.ofScientific .binary64 m e) := by
  unfold UnpackedFloat.ofScientific
  split
  · rfl
  split
  · rfl
  split
  · rfl
  split
  · exact unsigned_mul rfl rfl
  · exact unsigned_div rfl rfl

/-- A literal has no sign. -/
theorem clear_ofScientific (m : Nat) (s : Bool) (e : Nat) : Clear (Float.ofScientific m s e) := by
  have ten (e : Nat) (h : e < Float.exactlyRepresentablePowersOfTen.size) :
      Unsigned (Float.exactlyRepresentablePowersOfTen[e]).toModel.unpack := by
    refine unsigned_unpack ?_
    revert e
    decide
  have whole : Unsigned (m.toUInt64.toFloat).toModel.unpack :=
    unsigned_unpack (sign_pack (unsigned_ofNat _))
  unfold Float.ofScientific
  split
  · dsimp only
    split
    · exact clear_pack (unsigned_div whole (ten _ _))
    · exact clear_pack (unsigned_mul whole (ten _ _))
  · exact clear_pack (unsigned_ofScientific _ _)

theorem clear_ofLiteral? {lexeme : String} {x : Float} (h : ofLiteral? lexeme = some x) :
    Clear x := by
  unfold ofLiteral? at h
  dsimp only at h
  split at h
  · cases h
  · obtain rfl := Option.some.inj h
    exact clear_ofScientific _ _ _
  · split at h
    · cases h
    · obtain rfl := Option.some.inj h
      exact clear_ofScientific _ _ _
  · cases h

/-! ## Equality -/

/-- The bits of a number are its three parts. -/
theorem parts_of_bits (bits : Bits) :
    packComponents .binary64 (Sign.ofBitVec (unpackSign bits)) (unpackExponent bits)
      (unpackMantissa bits) = bits := by
  have sign (v : BitVec 1) : (Sign.ofBitVec v).toBitVec = v := by
    unfold Sign.ofBitVec
    split
    · rename_i zero
      exact zero.symm
    · rename_i one
      have := v.isLt
      refine BitVec.eq_of_toNat_eq ?_
      have : v.toNat ≠ 0 := fun zero => one (BitVec.eq_of_toNat_eq zero)
      simp only [Sign.toBitVec, BitVec.toNat_ofNat]
      omega
  simp only [packComponents, sign, unpackSign, unpackExponent, unpackMantissa, BitVec.extractLsb]
  ext i hi
  grind

/-- Numbers without sign that compare as equal have the same parts. -/
theorem unpacked_eq_of_beq {x y : UnpackedFloat} (hx : Unsigned x) (hy : Unsigned y)
    (h : x.beq y = true) : x = y := by
  cases x <;> cases y <;> simp only [Unsigned] at hx hy <;> subst_vars <;>
    simp_all [UnpackedFloat.beq, UnpackedFloat.compare, Ordering.then_eq_eq]

/-- The leading digit of a normal number is not written. -/
theorem toNat_leading (mantissa : BitVec 52) :
    (1#1 ++ mantissa).toNat = 2 ^ 52 + mantissa.toNat := by
  rw [BitVec.toNat_append, ← Nat.shiftLeft_add_eq_or_of_lt mantissa.isLt]
  rfl

/-- The three parts of a number can be read off the number taken apart. -/
theorem parts_of_unpacked {a b : Bits}
    (same : UnpackedFloat.unpack .binary64 a = UnpackedFloat.unpack .binary64 b)
    (number : UnpackedFloat.unpack .binary64 a ≠ .notANumber) :
    Sign.ofBitVec (unpackSign a) = Sign.ofBitVec (unpackSign b) ∧
      unpackExponent a = unpackExponent b ∧ unpackMantissa a = unpackMantissa b := by
  have bound (bits : Bits) : (unpackMantissa bits).toNat < 2 ^ 52 := (unpackMantissa bits).isLt
  have inA := bound a
  have inB := bound b
  -- infinities and NaN, then zeros and subnormal numbers, then the rest, for one side and the other
  unfold UnpackedFloat.unpack at same number
  dsimp only at same number
  split at same
  · rename_i ea
    rw [if_pos ea] at number
    split at same
    · rename_i ma
      split at same
      · rename_i eb
        split at same
        · rename_i mb
          simp only [UnpackedFloat.infinity.injEq] at same
          exact ⟨same, ea.trans eb.symm, ma.trans mb.symm⟩
        · cases same
      · split at same
        · split at same <;> cases same
        · cases same
    · rename_i ma
      rw [if_neg ma] at number
      exact absurd rfl number
  · split at same
    · rename_i ea
      split at same
      · rename_i ma
        split at same
        · split at same <;> cases same
        · split at same
          · rename_i eb
            split at same
            · rename_i mb
              simp only [UnpackedFloat.zero.injEq] at same
              exact ⟨same, ea.trans eb.symm, ma.trans mb.symm⟩
            · cases same
          · cases same
      · split at same
        · split at same <;> cases same
        · split at same
          · rename_i eb
            split at same
            · cases same
            · simp only [UnpackedFloat.finite.injEq] at same
              exact ⟨same.1, ea.trans eb.symm, BitVec.eq_of_toNat_eq same.2.1⟩
          · simp only [UnpackedFloat.finite.injEq, toNat_leading] at same
            -- a subnormal mantissa is below the leading bit of a normal one
            exact absurd same.2.1 (by omega)
    · split at same
      · split at same <;> cases same
      · split at same
        · split at same
          · cases same
          · simp only [UnpackedFloat.finite.injEq, toNat_leading] at same
            exact absurd same.2.1 (by omega)
        · simp only [UnpackedFloat.finite.injEq, toNat_leading] at same
          obtain ⟨sign, mantissa, exponent⟩ := same
          exact ⟨sign, BitVec.eq_of_toNat_eq (by omega), BitVec.eq_of_toNat_eq (by omega)⟩

theorem eq_of_beq_of_clear {x y : Float} (hx : Clear x) (hy : Clear y) (h : (x == y) = true) :
    x = y := by
  have equal : x.toModel.unpack.beq y.toModel.unpack = true := h
  have same := unpacked_eq_of_beq (unsigned_unpack hx) (unsigned_unpack hy) equal
  have number : x.toModel.unpack ≠ .notANumber := by
    intro nan
    rw [nan] at equal
    cases equal
  obtain ⟨sign, exponent, mantissa⟩ := parts_of_unpacked same number
  have bits : x.toModel.toBits.toBitVec = y.toModel.toBits.toBitVec := by
    rw [← parts_of_bits x.toModel.toBits.toBitVec, sign, exponent, mantissa, parts_of_bits]
  obtain ⟨⟨⟨a⟩, _⟩⟩ := x
  obtain ⟨⟨⟨b⟩, _⟩⟩ := y
  obtain rfl : a = b := bits
  rfl

/-- Literals that compare as equal denote the same number. -/
theorem literal_eq_of_beq {lexeme lexeme' : String} {x y : Float}
    (hx : ofLiteral? lexeme = some x) (hy : ofLiteral? lexeme' = some y)
    (h : (x == y) = true) : x = y :=
  eq_of_beq_of_clear (clear_ofLiteral? hx) (clear_ofLiteral? hy) h

end Number
end StackScript
