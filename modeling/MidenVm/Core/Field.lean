import MidenVm.Foundation.Numerals

namespace MidenVm

/-!
# Field elements and words

The base field of the virtual machine has `2^64 - 2^32 + 1` elements, and a
word is four of them.  Digests, advice-map keys and procedure roots are
words.  A field element is stored canonically, so the integer behind it is
always below the modulus.
-/

/-- The order of the base field. -/
def modulus : Nat := 18446744069414584321

instance : NeZero modulus := ⟨by decide⟩

/-- An element of the base field. -/
abbrev Felt := ZMod modulus

namespace Felt

/-- `Felt::as_canonical_u64`. -/
def asCanonicalU64 (felt : Felt) : Nat := felt.val

theorem asCanonicalU64_lt (felt : Felt) : felt.asCanonicalU64 < modulus := ZMod.val_lt felt

/-- `Felt::new_unchecked` on an integer that is already reduced. -/
def newUnchecked (value : Nat) : Felt := (value : ZMod modulus)

theorem asCanonicalU64_newUnchecked {value : Nat} (reduced : value < modulus) :
    (newUnchecked value).asCanonicalU64 = value := ZMod.val_cast_of_lt reduced

@[simp] theorem newUnchecked_asCanonicalU64 (felt : Felt) :
    newUnchecked felt.asCanonicalU64 = felt := ZMod.natCast_zmod_val felt

theorem newUnchecked_injOn {left right : Nat} (leftReduced : left < modulus)
    (rightReduced : right < modulus) (equal : newUnchecked left = newUnchecked right) :
    left = right := by
  rw [← asCanonicalU64_newUnchecked leftReduced, equal, asCanonicalU64_newUnchecked rightReduced]

end Felt

/-- Four field elements. -/
structure Word where
  a : Felt
  b : Felt
  c : Felt
  d : Felt

namespace Word

def toList (word : Word) : List Felt := [word.a, word.b, word.c, word.d]

/-- `Word::default`. -/
def zero : Word := ⟨0, 0, 0, 0⟩

/-- The limbs in the order of comparison, the last element first. -/
def limbs (word : Word) : Nat ×ₗ Nat ×ₗ Nat ×ₗ Nat :=
  toLex (word.d.asCanonicalU64, toLex (word.c.asCanonicalU64,
    toLex (word.b.asCanonicalU64, word.a.asCanonicalU64)))

theorem limbs_injective : Function.Injective limbs := by
  rintro ⟨a, b, c, d⟩ ⟨a', b', c', d'⟩ same
  have felts := ZMod.val_injective modulus
  simp only [limbs, Felt.asCanonicalU64, toLex_inj, Prod.mk.injEq] at same
  rcases same with ⟨sameD, sameC, sameB, sameA⟩
  rw [felts sameA, felts sameB, felts sameC, felts sameD]

/-- `Ord for Word`. -/
instance : LinearOrder Word := LinearOrder.lift' limbs limbs_injective

instance : LawfulBEq Word := inferInstance

end Word

end MidenVm
