import Mathlib

/-!
# Source map entries and their 64-bit key

A `SrcMapElem` (compiled_method.h) pairs a native code offset `from_`, a `uint32_t`, with a Java
source line `to_`, an `int32_t`. Both fields are `BitVec 32`: `from_` is read unsigned (`toNat`)
and `to_` signed (`toInt`), and the compound assignments of the source wrap as `BitVec`
arithmetic does.

Entries are compared through `operator int64_t`, which packs an entry as
`(static_cast<int64_t>(to_) << 32) | from_`. `toInt_toInt64` shows that this key is exactly
`to_ * 2^32 + from_`: the shift of the sign-extended line does not overflow, and the `|` with
the zero-extended offset acts as `+` (`toInt64_eq_add`). Hence `operator<` is the
lexicographic order on (line, offset) (`lt_iff_lex`) and `operator==` is equality of the pair
(`eq_eq_true_iff`). The linear order of `Int`, transported along the key, is the
`LinearOrder SrcMapElem` used for sorting; its `<` is `operator<` (`lt_eq_true_iff`).
-/

namespace Art

/-- An entry of a source map: the native pc offset `from_` and the Java line `to_`. -/
@[ext]
structure SrcMapElem where
  from_ : BitVec 32
  to_ : BitVec 32
  deriving DecidableEq, Repr

namespace SrcMapElem

/-- `operator int64_t`: the line, sign-extended and shifted up by 32 bits, or-ed with the
zero-extended offset. -/
def toInt64 (e : SrcMapElem) : BitVec 64 :=
  (e.to_.signExtend 64 <<< 32) ||| e.from_.setWidth 64

/-- `operator<`: signed comparison of the 64-bit keys. -/
def lt (e sme : SrcMapElem) : Bool :=
  e.toInt64.slt sme.toInt64

/-- `operator==`: equality of the 64-bit keys. -/
def eq (e sme : SrcMapElem) : Bool :=
  e.toInt64 == sme.toInt64

/-! ## The key is `to_ * 2^32 + from_` -/

/-- Shifting the sign-extended line up by 32 bits leaves the unsigned line times `2^32`: the
copies of the sign bit are shifted out. -/
lemma toNat_signExtend_shiftLeft (t : BitVec 32) :
    (t.signExtend 64 <<< 32).toNat = t.toNat * 2 ^ 32 := by
  simp only [BitVec.toNat_shiftLeft, BitVec.signExtend, BitVec.toNat_ofInt,
    BitVec.toInt_eq_toNat_cond]
  have := t.isLt
  split <;> omega

/-- The signed shift of the line does not overflow. -/
lemma toInt_signExtend_shiftLeft (t : BitVec 32) :
    (t.signExtend 64 <<< 32).toInt = t.toInt * 2 ^ 32 := by
  rw [BitVec.toInt_eq_toNat_cond, BitVec.toInt_eq_toNat_cond, toNat_signExtend_shiftLeft]
  have := t.isLt
  split <;> split <;> omega

lemma toNat_toInt64 (e : SrcMapElem) :
    e.toInt64.toNat = e.to_.toNat * 2 ^ 32 + e.from_.toNat := by
  rw [toInt64, BitVec.toNat_or, toNat_signExtend_shiftLeft, BitVec.toNat_setWidth,
    Nat.mod_eq_of_lt (by have := e.from_.isLt; omega), Nat.mul_comm,
    Nat.mul_add_lt_is_or e.from_.isLt]

/-- The or-ed offset acts as an addition. -/
lemma toInt64_eq_add (e : SrcMapElem) :
    e.toInt64 = (e.to_.signExtend 64 <<< 32) + e.from_.setWidth 64 := by
  apply BitVec.eq_of_toNat_eq
  rw [toNat_toInt64, BitVec.toNat_add, toNat_signExtend_shiftLeft, BitVec.toNat_setWidth]
  have := e.from_.isLt
  have := e.to_.isLt
  omega

/-- The key, read as a signed 64-bit integer, is `to_ * 2^32 + from_` with no wraparound. -/
lemma toInt_toInt64 (e : SrcMapElem) :
    e.toInt64.toInt = e.to_.toInt * 2 ^ 32 + e.from_.toNat := by
  rw [BitVec.toInt_eq_toNat_cond, BitVec.toInt_eq_toNat_cond, toNat_toInt64]
  have := e.from_.isLt
  have := e.to_.isLt
  split <;> split <;> omega

lemma toInt_toInt64_injective : Function.Injective fun e : SrcMapElem => e.toInt64.toInt := by
  intro a b h
  simp only [toInt_toInt64] at h
  have := a.from_.isLt
  have := b.from_.isLt
  exact SrcMapElem.ext (BitVec.eq_of_toNat_eq (by omega)) (BitVec.toInt_inj.mp (by omega))

/-! ## The order of the keys -/

/-- Entries are ordered by their signed 64-bit keys. -/
instance : LinearOrder SrcMapElem :=
  LinearOrder.lift' (fun e => e.toInt64.toInt) toInt_toInt64_injective

lemma lt_iff_toInt (a b : SrcMapElem) : a < b ↔ a.toInt64.toInt < b.toInt64.toInt := Iff.rfl

lemma le_iff_toInt (a b : SrcMapElem) : a ≤ b ↔ a.toInt64.toInt ≤ b.toInt64.toInt := Iff.rfl

/-- `operator<` is the `<` of the transported order. -/
@[simp] lemma lt_eq_true_iff (a b : SrcMapElem) : a.lt b = true ↔ a < b := by
  simp [lt, BitVec.slt, lt_iff_toInt]

/-- `operator<` compares the lines first, signed, and then the offsets, unsigned. -/
lemma lt_iff_lex (a b : SrcMapElem) :
    a < b ↔ a.to_.toInt < b.to_.toInt ∨ (a.to_ = b.to_ ∧ a.from_.toNat < b.from_.toNat) := by
  rw [lt_iff_toInt, toInt_toInt64, toInt_toInt64, ← BitVec.toInt_inj]
  have := a.from_.isLt
  have := b.from_.isLt
  omega

lemma le_iff_lex (a b : SrcMapElem) :
    a ≤ b ↔ a.to_.toInt < b.to_.toInt ∨ (a.to_ = b.to_ ∧ a.from_.toNat ≤ b.from_.toNat) := by
  rw [le_iff_toInt, toInt_toInt64, toInt_toInt64, ← BitVec.toInt_inj]
  have := a.from_.isLt
  have := b.from_.isLt
  omega

/-- An entry at or below `e` whose line is not below `e`'s has `e`'s line and an offset at most
`e`'s. -/
lemma to_eq_and_from_le_of_le {a e : SrcMapElem} (h : a ≤ e) (hto : e.to_.toInt ≤ a.to_.toInt) :
    a.to_ = e.to_ ∧ a.from_.toNat ≤ e.from_.toNat :=
  ((le_iff_lex a e).mp h).resolve_left (not_lt.mpr hto)

/-- `operator==` is equality of the pair. -/
@[simp] lemma eq_eq_true_iff (a b : SrcMapElem) : a.eq b = true ↔ a = b := by
  rw [eq, beq_iff_eq, ← BitVec.toInt_inj]
  exact toInt_toInt64_injective.eq_iff

/-- `operator<` fails from `b` to `a` exactly when `a ≤ b`: the condition `std::sort` keeps between
an entry and every later one. -/
lemma lt_eq_false_iff (a b : SrcMapElem) : b.lt a = false ↔ a ≤ b := by
  rw [← not_lt, ← lt_eq_true_iff, Bool.not_eq_true]

instance : IsTotal SrcMapElem fun a b => b.lt a = false :=
  ⟨fun a b => (le_total a b).imp (lt_eq_false_iff a b).mpr (lt_eq_false_iff b a).mpr⟩

instance : IsTrans SrcMapElem fun a b => b.lt a = false :=
  ⟨fun a b c hab hbc => (lt_eq_false_iff a c).mpr
    (((lt_eq_false_iff a b).mp hab).trans ((lt_eq_false_iff b c).mp hbc))⟩

/-- `operator int64_t` packs an entry without loss: the key is `to_ * 2^32 + from_` as a signed
integer, so `operator<` is the lexicographic order on (line, offset), a strict total order, and
`operator==` is equality of both fields. -/
theorem toInt64_orders_lexicographically :
    (∀ e : SrcMapElem, (e.to_.signExtend 64 <<< 32).toInt = e.to_.toInt * 2 ^ 32 ∧
      e.toInt64 = (e.to_.signExtend 64 <<< 32) + e.from_.setWidth 64 ∧
      e.toInt64.toInt = e.to_.toInt * 2 ^ 32 + e.from_.toNat) ∧
    (∀ a b : SrcMapElem, a.lt b = true ↔
      a.to_.toInt < b.to_.toInt ∨ (a.to_ = b.to_ ∧ a.from_.toNat < b.from_.toNat)) ∧
    (∀ a b : SrcMapElem, a.eq b = true ↔ a.from_ = b.from_ ∧ a.to_ = b.to_) ∧
    IsStrictTotalOrder SrcMapElem (fun a b => a.lt b = true) := by
  refine ⟨fun e => ⟨toInt_signExtend_shiftLeft _, toInt64_eq_add e, toInt_toInt64 e⟩,
    fun a b => (lt_eq_true_iff a b).trans (lt_iff_lex a b), fun a b => ?_, ?_⟩
  · rw [eq_eq_true_iff, SrcMapElem.ext_iff]
  · simp only [lt_eq_true_iff]
    infer_instance

end SrcMapElem

end Art
