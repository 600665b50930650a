import MyMalloc.Lib.Rounding
import Mathlib.Tactic.Ring
import Mathlib.Tactic.NormNum

/- Unsigned 64-bit arithmetic with an overflow record.

   A C program computes sizes and addresses modulo 2^64. `Sized α` is a value
   computed that way together with one bit: whether some operation on the way
   wrapped. `addS`, `subS` and `mulS` are the three machine operations; the
   monad joins the bits, so `(f x).wrapped = false` says that no intermediate
   operation of `f x` wrapped, not only that its result is right.

   The second half is the mask arithmetic such programs are written in:
   clearing the bits of a mask (`x & ~m`), rounding up to a power of two with
   a mask (`alignUp`), and the or-shift cascade that rounds a word up to the
   next power of two (`roundPow2`). -/
namespace MyMalloc

/-- A value and whether computing it wrapped. -/
structure Sized (α : Type) where
  val : α
  wrapped : Bool
  deriving DecidableEq, Repr

instance : Monad Sized where
  pure a := ⟨a, false⟩
  bind x f := ⟨(f x.val).val, x.wrapped || (f x.val).wrapped⟩

/-- The exact value: nothing wrapped. -/
def exactly {α : Type} (a : α) : Sized α := ⟨a, false⟩

@[simp] theorem exactly_val {α : Type} (a : α) : (exactly a).val = a := rfl
@[simp] theorem exactly_wrapped {α : Type} (a : α) : (exactly a).wrapped = false := rfl
@[simp] theorem pure_eq_exactly {α : Type} (a : α) : (pure a : Sized α) = exactly a := rfl

/-- A computation that did not wrap so far hands its value on. -/
@[simp] theorem exactly_bind {α β : Type} (a : α) (f : α → Sized β) : exactly a >>= f = f a := by
  show (⟨_, _⟩ : Sized β) = f a
  simp [exactly]

def addS (a b : Nat) : Sized Nat := ⟨(a + b) % 2^64, decide (2^64 ≤ a + b)⟩
def subS (a b : Nat) : Sized Nat := ⟨(a + 2^64 - b) % 2^64, decide (a < b)⟩
def mulS (a b : Nat) : Sized Nat := ⟨a * b % 2^64, decide (2^64 ≤ a * b)⟩

theorem addS_exact {a b : Nat} (h : a + b < 2^64) : addS a b = exactly (a + b) := by
  rw [addS, Nat.mod_eq_of_lt h, decide_eq_false (by omega)]; rfl

theorem subS_exact {a b : Nat} (h : b ≤ a) (ha : a < 2^64) : subS a b = exactly (a - b) := by
  have e : (a + 2^64 - b) % 2^64 = a - b := by omega
  rw [subS, e, decide_eq_false (by omega)]; rfl

/-- A computation wrapped if one of its parts did. -/
theorem bind_wrapped {α β : Type} (x : Sized α) (f : α → Sized β) :
    (x >>= f).wrapped = (x.wrapped || (f x.val).wrapped) := rfl

theorem addS_wrapped {a b : Nat} : (addS a b).wrapped = true ↔ 2^64 ≤ a + b := decide_eq_true_iff

/-! ## Masks -/

/-- `x & ~m` on 64-bit words. -/
def maskOff (x m : Nat) : Nat := x &&& (2^64 - 1 - m)

theorem testBit_maskOff {x m : Nat} (hm : m < 2^64) (i : Nat) :
    (maskOff x m).testBit i = (x.testBit i && (decide (i < 64) && !m.testBit i)) := by
  have e : 2^64 - 1 - m = 2^64 - (m + 1) := by omega
  rw [maskOff, e, Nat.testBit_and, Nat.testBit_two_pow_sub_succ hm]

/-- A word is the bits inside a mask plus the bits outside it. -/
theorem and_add_maskOff {x m : Nat} (hx : x < 2^64) (hm : m < 2^64) :
    (x &&& m) + maskOff x m = x := by
  have hor : (x &&& m) ||| maskOff x m = x := by
    apply Nat.eq_of_testBit_eq
    intro i
    rw [Nat.testBit_or, Nat.testBit_and, testBit_maskOff hm]
    by_cases hi : i < 64
    · cases x.testBit i <;> cases m.testBit i <;> simp [hi]
    · have : x.testBit i = false :=
        Nat.testBit_lt_two_pow (lt_of_lt_of_le hx (Nat.pow_le_pow_right (by omega) (by omega)))
      simp [this]
  have hand : (x &&& m) &&& maskOff x m = 0 := by
    apply Nat.eq_of_testBit_eq
    intro i
    rw [Nat.testBit_and, Nat.testBit_and, testBit_maskOff hm, Nat.zero_testBit]
    cases x.testBit i <;> cases m.testBit i <;> simp
  have ha : x &&& m < 2^64 := lt_of_le_of_lt Nat.and_le_left hx
  have hb : maskOff x m < 2^64 := lt_of_le_of_lt Nat.and_le_left hx
  -- disjoint words add without carries
  have hv := BitVec.add_eq_or_of_and_eq_zero (BitVec.ofNat 64 (x &&& m))
    (BitVec.ofNat 64 (maskOff x m)) (by
      apply BitVec.eq_of_toNat_eq
      simp only [BitVec.toNat_and, BitVec.toNat_ofNat, Nat.mod_eq_of_lt ha, Nat.mod_eq_of_lt hb, hand])
  have ht := congrArg BitVec.toNat hv
  simp only [BitVec.toNat_add, BitVec.toNat_or, BitVec.toNat_ofNat, Nat.mod_eq_of_lt ha,
    Nat.mod_eq_of_lt hb, hor] at ht
  have hle : x &&& m ≤ m := Nat.and_le_right
  have hle' : maskOff x m ≤ 2^64 - 1 - m := Nat.and_le_right
  omega

theorem maskOff_le (x m : Nat) : maskOff x m ≤ x := Nat.and_le_left

theorem le_maskOff_add {x m : Nat} (hx : x < 2^64) (hm : m < 2^64) : x ≤ maskOff x m + m := by
  have h := and_add_maskOff hx hm
  have hle : x &&& m ≤ m := Nat.and_le_right
  omega

/-- Clearing the low `k` bits rounds down to a multiple of `2^k`. -/
theorem maskOff_two_pow {x k : Nat} (hx : x < 2^64) (hk : k ≤ 64) :
    maskOff x (2^k - 1) = x - x % 2^k := by
  have hm : 2^k - 1 < 2^64 := by
    have := Nat.pow_le_pow_right (n := 2) (by omega) hk
    have : 0 < 2^k := Nat.two_pow_pos k
    omega
  have h := and_add_maskOff hx hm
  rw [Nat.and_two_pow_sub_one_eq_mod] at h
  omega

theorem dvd_maskOff_two_pow {x k : Nat} (hx : x < 2^64) (hk : k ≤ 64) :
    2^k ∣ maskOff x (2^k - 1) := by
  rw [maskOff_two_pow hx hk]
  exact Nat.dvd_sub_mod x

/-- `(value + alignment - 1) & ~(alignment - 1)`. -/
def alignUp (value alignment : Nat) : Sized Nat := do
  let v ← addS value alignment
  let v ← subS v 1
  let m ← subS alignment 1
  pure (maskOff v m)

/-- Rounding up to a power of two, where `value + alignment` fits a word. -/
theorem alignUp_exact {value k : Nat} (hk : k ≤ 64) (h : value + 2^k < 2^64) :
    alignUp value (2^k) = exactly ((value + 2^k - 1) / 2^k * 2^k) := by
  have hp : 0 < 2^k := Nat.two_pow_pos k
  simp only [alignUp, addS_exact h, subS_exact (a := value + 2^k) (b := 1) (by omega) h,
    subS_exact (a := 2^k) (b := 1) (by omega) (by omega), exactly_bind, pure_eq_exactly,
    maskOff_two_pow (x := value + 2^k - 1) (by omega) hk]
  congr 1
  have := Nat.div_add_mod (value + 2^k - 1) (2^k)
  rw [Nat.mul_comm] at this
  omega

/-- Whatever the alignment, the result is less than one alignment above the value. -/
theorem alignUp_between (value alignment : Nat) (ha : 0 < alignment) (h : value + alignment < 2^64) :
    value ≤ (alignUp value alignment).val ∧ (alignUp value alignment).val < value + alignment := by
  simp only [alignUp, addS_exact h, subS_exact (a := value + alignment) (b := 1) (by omega) h,
    subS_exact (a := alignment) (b := 1) (by omega) (by omega), exactly_bind, pure_eq_exactly, exactly_val]
  have hlo := le_maskOff_add (x := value + alignment - 1) (m := alignment - 1) (by omega) (by omega)
  have hhi := maskOff_le (value + alignment - 1) (alignment - 1)
  omega

/-! ## The next power of two -/

/-- One step of the cascade: `x |= x >> s`. -/
def orShift (s x : Nat) : Nat := x ||| (x >>> s)

/-- `a--; a |= a >> 1; … a |= a >> 32; a++` on 64-bit words. -/
def roundPow2 (a : Nat) : Nat :=
  (orShift 32 (orShift 16 (orShift 8 (orShift 4 (orShift 2 (orShift 1 (a - 1)))))) + 1) % 2^64

/-- The cascade spreads the bits of `a - 1` over the word. -/
theorem roundPow2_eq {a : Nat} (ha : 1 < a) (hlt : a < 2^64) : roundPow2 a = powerAbove a % 2^64 := by
  have hspread := ((((((SpreadBy.refl (a - 1)).double).double).double).double).double).double
  unfold roundPow2 orShift
  rw [hspread.eq_two_pow_sub_one (by omega) (by omega), Nat.sub_add_cancel (Nat.two_pow_pos _),
    powerAbove_eq ha]

/-- Up to `2^63` the next power of two is a word. -/
theorem roundPow2_of_le {a : Nat} (ha : 1 < a) (hle : a ≤ 2^63) : roundPow2 a = powerAbove a := by
  have hup : powerAbove a ≤ 2^63 := powerAbove_le hle
  rw [roundPow2_eq ha (by omega), Nat.mod_eq_of_lt (by omega)]

/-- Above `2^63` it wraps to zero. -/
theorem roundPow2_wraps {a : Nat} (hgt : 2^63 < a) (hlt : a < 2^64) : roundPow2 a = 0 := by
  rw [roundPow2_eq (by omega) hlt, powerAbove_of_lt hgt hlt.le, Nat.mod_self]

end MyMalloc
