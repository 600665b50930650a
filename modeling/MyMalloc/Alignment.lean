import MyMalloc.Adaptive.Services
import MyMalloc.Classic.Ptmalloc.Memalign

/- The alignments that `adaptive_memalign` and `pt_memalign` work with.

   Both round an alignment that is not a power of two with the same cascade of shifts,
   and both give up where it wraps to zero (`memalign_rounds_up`). A power of two is
   left as it is, which is what the cascade would make of it. -/
namespace MyMalloc

open Adaptive Ptmalloc.Words

variable {τ : Type}

theorem adaptiveMemalign_of_lt [DecidableEq τ] (host : Adaptive.Host τ) (t : τ) {alignment : Nat}
    (h : 16 < alignment) (size : Nat) :
    adaptiveMemalign host t alignment size = memalignAt host t size (memalignAlignment alignment) := by
  have h8 : ¬ alignment < 8 := by omega
  unfold adaptiveMemalign
  dsimp only
  rw [if_neg h8, if_neg (by omega)]

/-- `pt_memalign` takes the cascade's word for the alignment. -/
theorem roundAlignment_eq_roundPow2 {alignment : Nat} (h : 16 < alignment) (hlt : alignment < 2^64) :
    roundAlignment alignment = roundPow2 alignment := by
  rw [roundAlignment_eq hlt, roundPow2_eq (by omega) hlt, alignTo, Nat.max_eq_left (by omega)]

/-- Up to `2^63` the cascade gives the least power of two that is not below the alignment, and the two entry
    points use it; above, it gives zero, and they return null. -/
theorem memalign_rounds_up [DecidableEq τ] (a : UInt64) (hgt : 16 < a.toNat) :
    (a.toNat ≤ 2^63 →
      IsLeast {p | p.isPowerOfTwo ∧ a.toNat ≤ p} (roundPow2 a.toNat) ∧
      roundAlignment a.toNat = roundPow2 a.toNat ∧
      ∀ (host : Adaptive.Host τ) t size,
        adaptiveMemalign host t a.toNat size = memalignAt host t size (some (roundPow2 a.toNat))) ∧
    (2^63 < a.toNat →
      roundPow2 a.toNat = 0 ∧
      (∀ (host : Adaptive.Host τ) t size s, ((adaptiveMemalign host t a.toNat size).run (exec host t) s).1 = 0) ∧
      ∀ (host : Ptmalloc.Words.Host) (t : τ) size s, ptMemalign host t a.toNat size s = some (none, s)) := by
  have hlt : a.toNat < 2^64 := a.toNat_lt
  constructor
  · intro hle
    have hcascade : roundPow2 a.toNat = powerAbove a.toNat := roundPow2_of_le (by omega) hle
    refine ⟨?_, roundAlignment_eq_roundPow2 hgt hlt, fun host t size => ?_⟩
    · rw [hcascade]
      exact isLeast_powerAbove _
    · rw [adaptiveMemalign_of_lt host t hgt, memalignAlignment_eq hgt hlt, if_pos hle, hcascade]
  · intro hover
    have hcascade : roundPow2 a.toNat = 0 := roundPow2_wraps hover hlt
    refine ⟨hcascade, fun host t size s => ?_, fun host t size s => ?_⟩
    · rw [adaptiveMemalign_of_lt host t hgt, memalignAlignment_eq hgt hlt, if_neg (by omega)]
      rfl
    · unfold ptMemalign
      rw [roundAlignment_eq_roundPow2 hgt hlt, hcascade, if_pos rfl]
      rfl

theorem memalign_rounds_up_48 : 16 < (48 : UInt64).toNat ∧ (48 : UInt64).toNat ≤ 2^63 ∧
    IsLeast {p | p.isPowerOfTwo ∧ 48 ≤ p} (roundPow2 48) :=
  ⟨by decide, by decide, ((memalign_rounds_up (τ := Unit) 48 (by decide)).1 (by decide)).1⟩

end MyMalloc
