import MyMalloc.Adaptive.Types

/- The size and address arithmetic of `adaptive_services.cpp` and of
   `adaptive_memalign`, as the code computes it, wrapping included, and the
   exact values it yields.

   Each definition keeps the record of its intermediate operations (`Sized`);
   the theorems that follow say that the record is clean on every input the
   allocator feeds it, with one exception in `directSizes`: the page rounding
   of a total of exactly 2^64 - 4096 bytes passes through zero. -/
namespace MyMalloc.Adaptive

def roundUsable (size : Nat) : Sized (Option Nat) := do
  let usable := if size = 0 then 1 else size
  if 2^64 - 1 - 15 < usable then return none
  let sum ← addS usable 15
  return some (maskOff sum 15)

/-- `small_class`: the class index and the usable size. -/
def smallClass (size : Nat) : Sized (Option (Nat × Nat)) := do
  let rounded := if size = 0 then 1 else size
  if smallMax < rounded then return none
  let rounded ← alignUp rounded smallClassStep
  if rounded = 0 ∨ smallMax < rounded then return none
  let index ← subS (rounded / smallClassStep) 1
  return some (index, rounded)

def mediumClass (size : Nat) : Sized (Option (Nat × Nat)) := do
  let rounded := if size = 0 then 1 else size
  if mediumMax < rounded then return none
  let rounded := if rounded ≤ smallMax then smallMax + 1 else rounded
  let rounded ← alignUp rounded mediumClassStep
  if rounded ≤ smallMax ∨ mediumMax < rounded then return none
  let above ← subS rounded smallMax
  let index ← subS (above / mediumClassStep) 1
  return if index < mediumClassCount then some (index, rounded) else none

/-- How `create_pool_page` divides a page: stride, offset of the first block, capacity. -/
def poolGeometry (usable mappedSize : Nat) : Sized (Option (Nat × Nat × Nat)) := do
  let size ← addS hdrOffset usable
  let stride ← alignUp size 16
  let firstBlock ← alignUp sizeofPage 16
  if stride = 0 ∨ mappedSize ≤ firstBlock then return none
  let room ← subS mappedSize firstBlock
  let capacity := room / stride
  if capacity = 0 ∨ 2^32 - 1 < capacity then return none
  return some (stride, firstBlock, capacity)

/-- The guards and sums of `allocate_direct_map`: usable size and mapping size. -/
def directSizes (size alignment : Nat) (debugRedzone : Bool) : Sized (Option (Nat × Nat)) := do
  let alignment := if alignment < 16 then 16 else alignment
  match ← roundUsable size with
  | none => return none
  | some usable =>
    let redzone := if debugRedzone then debugRedzoneSize else 0
    let alignSlack := if 16 < alignment then alignment else 0
    if 2^64 - 1 - hdrOffset < usable then return none
    let total ← addS hdrOffset usable
    if 2^64 - 1 - total < redzone then return none
    let total ← addS total redzone
    if 2^64 - 1 - total < alignSlack then return none
    let total ← addS total alignSlack
    if 2^64 - 1 - (pageSize - 1) < total then return none
    let mapped ← alignUp total pageSize
    return some (usable, mapped)

/-- The user pointer of a direct mapping. -/
def directUser (region alignment : Nat) : Sized Nat := do
  let baseUser ← addS region hdrOffset
  if 16 < alignment then alignUp baseUser alignment else return baseUser

/-- `adaptive_memalign`'s alignment, once it is known to exceed 16: a power of
two as it is, anything else rounded up to one, `none` when that wraps to zero. -/
def memalignAlignment (alignment : Nat) : Option Nat :=
  if alignment &&& (alignment - 1) = 0 then some alignment
  else if roundPow2 alignment = 0 then none
  else some (roundPow2 alignment)

/-! ## Exact values -/

/-- The usable size both `round_usable` and the small classes give. -/
def usable16 (size : Nat) : Nat := ((if size = 0 then 1 else size) + 15) / 16 * 16

theorem le_usable16 (size : Nat) : size ≤ usable16 size := by
  unfold usable16; split <;> omega

theorem usable16_dvd (size : Nat) : 16 ∣ usable16 size := ⟨_, Nat.mul_comm _ _⟩

theorem usable16_pos (size : Nat) : 0 < usable16 size := by
  unfold usable16; split <;> omega

theorem maskOff_fifteen {x : Nat} (h : x < 2^64) : maskOff x 15 = x / 16 * 16 := by
  have e : maskOff x 15 = x - x % 16 := maskOff_two_pow (k := 4) h (by norm_num)
  omega

theorem roundUsable_eq (size : Nat) :
    roundUsable size = exactly (if size ≤ 2^64 - 16 then some (usable16 size) else none) := by
  have hcond : (2^64 - 1 - 15 < if size = 0 then 1 else size) ↔ ¬ size ≤ 2^64 - 16 := by
    split <;> omega
  unfold roundUsable
  by_cases h : size ≤ 2^64 - 16
  · have hle : (if size = 0 then 1 else size) + 15 < 2^64 := by split <;> omega
    simp only [hcond, h, not_true, if_false, if_true, addS_exact hle, exactly_bind, pure_eq_exactly,
      maskOff_fifteen hle, usable16]
  · simp only [hcond, h, not_false_eq_true, if_true, if_false, pure_eq_exactly]

theorem alignUp_sixteen {x : Nat} (h : x + 16 < 2^64) : alignUp x 16 = exactly ((x + 15) / 16 * 16) :=
  alignUp_exact (k := 4) (by norm_num) h

theorem smallClass_eq {size : Nat} (h : size ≤ smallMax) :
    smallClass size = exactly (some (usable16 size / 16 - 1, usable16 size)) := by
  have h' : size ≤ 1024 := h
  have hr : ¬ smallMax < if size = 0 then 1 else size := by unfold smallMax; split <;> omega
  have hu : (if size = 0 then 1 else size) + 16 < 2^64 := by split <;> omega
  have hb : usable16 size ≤ 1024 := by unfold usable16; split <;> omega
  have hp := usable16_pos size
  have hd := usable16_dvd size
  have h0 : ¬ (usable16 size = 0 ∨ smallMax < usable16 size) := by unfold smallMax; omega
  simp only [smallClass, hr, if_false, smallClassStep, alignUp_sixteen hu, exactly_bind]
  rw [← usable16, if_neg h0, subS_exact (by omega) (by omega), exactly_bind, pure_eq_exactly]

/-- The usable size of a medium class. -/
def mediumUsable (size : Nat) : Nat := (size + 1023) / 1024 * 1024

theorem mediumClass_eq {size : Nat} (hlo : smallMax < size) (hhi : size ≤ mediumMax) :
    mediumClass size = exactly (some (mediumUsable size / 1024 - 2, mediumUsable size)) := by
  have h1 : 1024 < size := hlo
  have h2 : size ≤ 65536 := hhi
  have hz : (if size = 0 then 1 else size) = size := if_neg (by omega)
  have hm : ¬ mediumMax < size := by omega
  have hs : ¬ size ≤ smallMax := by omega
  have hal : alignUp size mediumClassStep = exactly (mediumUsable size) :=
    alignUp_exact (k := 10) (by norm_num) (by omega)
  have hd : 1024 ∣ mediumUsable size := ⟨_, Nat.mul_comm _ _⟩
  have hb : 1024 < mediumUsable size ∧ mediumUsable size ≤ 65536 := by unfold mediumUsable; omega
  have hr : ¬ (mediumUsable size ≤ smallMax ∨ mediumMax < mediumUsable size) := by
    unfold smallMax mediumMax; omega
  have hsub : subS (mediumUsable size) smallMax = exactly (mediumUsable size - 1024) :=
    subS_exact (by unfold smallMax; omega) (by omega)
  have hsub1 : subS ((mediumUsable size - 1024) / mediumClassStep) 1 =
      exactly (mediumUsable size / 1024 - 2) := by
    have e : (mediumUsable size - 1024) / mediumClassStep - 1 = mediumUsable size / 1024 - 2 := by
      unfold mediumClassStep; omega
    rw [subS_exact (by unfold mediumClassStep; omega) (by unfold mediumClassStep; omega), e]
  have hc : mediumUsable size / 1024 - 2 < mediumClassCount := by
    show _ < 63; omega
  simp only [mediumClass, hz, hm, hs, hal, hr, hsub, hsub1, hc, if_true, if_false, exactly_bind,
    pure_eq_exactly]

/-- The exact number of bytes a direct mapping needs, before page rounding. -/
def directTotal (size alignment : Nat) (debugRedzone : Bool) : Nat :=
  112 + usable16 size + (if debugRedzone then 16 else 0) + (if 16 < alignment then alignment else 0)

/-- A guarded addition of the code: refused, or exact. -/
theorem guarded_add {α : Type} (a b : Nat) (ha : a < 2^64) (k : Nat → Sized (Option α)) :
    (if 2^64 - 1 - a < b then exactly none else addS a b >>= k) =
      if a + b < 2^64 then k (a + b) else exactly none := by
  by_cases h : a + b < 2^64
  · rw [if_neg (by omega), if_pos h, addS_exact h, exactly_bind]
  · rw [if_pos (by omega), if_neg h]

/-- Rounding up to a page, at the one total where the sum itself wraps. -/
theorem alignUp_page_last : alignUp (2^64 - 4096) pageSize = ⟨2^64 - 4096, true⟩ := by decide

/-- The sums of `allocate_direct_map` are exact; a total beyond 2^64 - 4096 is
refused, and at 2^64 - 4096 itself the rounding wraps on the way to the right result. -/
theorem directSizes_eq (size alignment : Nat) (debugRedzone : Bool) :
    directSizes size alignment debugRedzone =
      ⟨if directTotal size alignment debugRedzone + 4096 ≤ 2^64 then
          some (usable16 size, (directTotal size alignment debugRedzone + 4095) / 4096 * 4096)
        else none,
        decide (directTotal size alignment debugRedzone + 4096 = 2^64)⟩ := by
  have hrefuse : ∀ {T : Nat}, ¬ T + 4096 ≤ 2^64 → ∀ u : Nat,
      (exactly none : Sized (Option (Nat × Nat))) =
        ⟨if T + 4096 ≤ 2^64 then some (u, (T + 4095) / 4096 * 4096) else none,
          decide (T + 4096 = 2^64)⟩ := by
    intro T hT u
    rw [if_neg hT, decide_eq_false (by omega)]
    rfl
  have hslack : (if 16 < (if alignment < 16 then 16 else alignment) then
      (if alignment < 16 then 16 else alignment) else 0) = if 16 < alignment then alignment else 0 := by
    by_cases h : alignment < 16
    · simp [h, Nat.not_lt.mpr (Nat.le_of_lt h)]
    · simp [h]
  have hTeq : directTotal size alignment debugRedzone = hdrOffset + usable16 size +
      (if debugRedzone then debugRedzoneSize else 0) + (if 16 < alignment then alignment else 0) := rfl
  have hle := le_usable16 size
  have h112 : hdrOffset = 112 := rfl
  unfold directSizes
  simp only [roundUsable_eq, exactly_bind, hslack, pure_eq_exactly, hTeq]
  generalize (if debugRedzone then debugRedzoneSize else 0) = redzone
  generalize (if 16 < alignment then alignment else 0) = slack
  by_cases hs : size ≤ 2^64 - 16
  · simp only [hs, if_true]
    rw [guarded_add _ _ (by decide)]
    split
    · next h0 =>
      rw [guarded_add _ _ h0]
      split
      · next h1 =>
        rw [guarded_add _ _ h1]
        generalize hdrOffset + usable16 size + redzone + slack = T
        split
        · next h2 =>
          have hg : 2^64 - 1 - (pageSize - 1) = 2^64 - 4096 := rfl
          rw [hg]
          by_cases hfit : T + 4096 < 2^64
          · have hal : alignUp T pageSize = exactly ((T + 4095) / 4096 * 4096) :=
              alignUp_exact (k := 12) (by norm_num) hfit
            rw [if_neg (by omega), hal, exactly_bind, if_pos (by omega), decide_eq_false (by omega)]
            rfl
          · by_cases hlast : T + 4096 = 2^64
            · obtain rfl : T = 2^64 - 4096 := by omega
              rw [if_neg (by omega), alignUp_page_last, if_pos (by omega), decide_eq_true (by omega)]
              rfl
            · rw [if_pos (by omega), ← hrefuse (by omega)]
        · next h2 => exact hrefuse (by omega) _
      · next h1 => exact hrefuse (by omega) _
    · next h0 => exact hrefuse (by omega) _
  · simp only [hs, if_false]
    exact hrefuse (by omega) _

theorem directUser_small {region alignment : Nat} (h : region + 112 < 2^64) (ha : alignment ≤ 16) :
    directUser region alignment = exactly (region + 112) := by
  rw [directUser, addS_exact (by exact h), exactly_bind, if_neg (by omega)]
  rfl

theorem dvd_directUser {region k : Nat} (hk : k ≤ 63) (hgt : 16 < 2^k) (h : region + 112 + 2^k < 2^64) :
    2^k ∣ (directUser region (2^k)).val := by
  have hup : alignUp (region + hdrOffset) (2^k) = exactly ((region + hdrOffset + 2^k - 1) / 2^k * 2^k) :=
    alignUp_exact (by omega) h
  rw [directUser, addS_exact (by unfold hdrOffset; omega), exactly_bind, if_pos hgt, hup, exactly_val]
  exact Nat.dvd_mul_left ..

/-- The alignments that reach `allocate_direct_map`. -/
def Alignable (alignment : Nat) : Prop := alignment ≤ 16 ∨ ∃ k ≤ 63, alignment = 2^k

/-- For every alignment the block lies inside its mapping, with its redzone; one that is not a power of two only
costs the alignment. -/
theorem direct_room {size alignment usable mapped base : Nat} {redzone : Bool}
    (hs : (directSizes size alignment redzone).val = some (usable, mapped)) (hle : base + mapped ≤ 2^63) :
    ∃ b, (directUser base alignment).val = b + 112 ∧ base ≤ b ∧
      b + 112 + usable + (if redzone then 16 else 0) ≤ base + mapped ∧ size ≤ usable ∧ 0 < usable ∧
      (alignment ≤ 16 → b = base) ∧ (16 < alignment → 112 + alignment ≤ mapped) := by
  rw [directSizes_eq] at hs
  dsimp only at hs
  split at hs
  case isFalse => cases hs
  simp only [Option.some.injEq, Prod.mk.injEq] at hs
  obtain ⟨rfl, rfl⟩ := hs
  have hsize := le_usable16 size
  have hpos := usable16_pos size
  unfold directTotal at *
  by_cases hsmall : alignment ≤ 16
  · rw [directUser_small (by omega) hsmall]
    rw [if_neg (by omega : ¬ 16 < alignment)] at *
    exact ⟨base, rfl, le_rfl, by omega, hsize, hpos, fun _ => rfl, fun h => absurd hsmall (Nat.not_le.mpr h)⟩
  · rw [if_pos (by omega : 16 < alignment)] at *
    have hu := alignUp_between (base + hdrOffset) alignment (by omega)
      (by unfold hdrOffset; omega)
    rw [directUser, addS_exact (by unfold hdrOffset; omega), exactly_bind, if_pos (by omega)]
    unfold hdrOffset at hu ⊢
    exact ⟨(alignUp (base + 112) alignment).val - 112, by omega, by omega, by omega, hsize, hpos,
      fun h => absurd h hsmall, fun _ => by omega⟩

/-- Where the block of a direct mapping lies: aligned, and inside the mapping with its redzone. -/
theorem direct_fits {size alignment usable mapped base : Nat} {redzone : Bool}
    (hs : (directSizes size alignment redzone).val = some (usable, mapped)) (hal : Alignable alignment)
    (hd : pageSize ∣ base) (hle : base + mapped ≤ 2^63) :
    ∃ b, (directUser base alignment).val = b + 112 ∧ base ≤ b ∧ 16 ∣ b ∧
      b + 112 + usable + (if redzone then 16 else 0) ≤ base + mapped ∧
      size ≤ usable ∧ 0 < usable ∧ ∀ k, alignment = 2^k → 2^k ∣ b + 112 := by
  have hd16 : 16 ∣ base := Dvd.dvd.trans ⟨256, rfl⟩ hd
  obtain ⟨b, hb, hlow, hroom, hsize, hpos, hsame, hlong⟩ := direct_room hs hle
  by_cases hsmall : alignment ≤ 16
  · obtain rfl := hsame hsmall
    refine ⟨b, hb, hlow, hd16, hroom, hsize, hpos, fun k hk => ?_⟩
    have h16 : 2^k ∣ 2^4 :=
      Nat.pow_dvd_pow 2 ((Nat.pow_le_pow_iff_right (by norm_num)).mp (by omega : 2^k ≤ 2^4))
    exact h16.trans (by omega)
  · obtain ⟨k, hk, rfl⟩ := hal.resolve_left hsmall
    have hmapped := hlong (by omega)
    have hdvd := dvd_directUser hk (by omega) (by omega : base + 112 + 2^k < 2^64)
    rw [hb] at hdvd
    have h16 : 2^4 ∣ 2^k :=
      Nat.pow_dvd_pow 2 ((Nat.pow_le_pow_iff_right (by norm_num)).mp (by omega : 2^4 ≤ 2^k))
    have hb16 := h16.trans hdvd
    refine ⟨b, hb, hlow, by omega, hroom, hsize, hpos, fun j hj => ?_⟩
    rw [← hj]
    exact hdvd

/-- What `adaptive_memalign` makes of an alignment: the least power of two that is not below it,
unless that is `2^64`. -/
theorem memalignAlignment_eq {alignment : Nat} (hgt : 16 < alignment) (hlt : alignment < 2^64) :
    memalignAlignment alignment = if alignment ≤ 2^63 then some (powerAbove alignment) else none := by
  unfold memalignAlignment
  by_cases hpow : alignment &&& (alignment - 1) = 0
  · obtain ⟨k, rfl⟩ := (Nat.and_sub_one_eq_zero_iff_isPowerOfTwo (by omega)).mp hpow
    have hk : k < 64 := (Nat.pow_lt_pow_iff_right (by decide)).mp hlt
    have hle : 2^k ≤ 2^63 := Nat.pow_le_pow_right (by decide) (by omega)
    rw [if_pos hpow, if_pos hle, powerAbove_two_pow]
  · rw [if_neg hpow]
    by_cases hle : alignment ≤ 2^63
    · have hpos : powerAbove alignment ≠ 0 := by
        have := le_powerAbove alignment
        omega
      rw [if_pos hle, roundPow2_of_le (by omega) hle, if_neg hpos]
    · rw [if_neg hle, roundPow2_wraps (by omega) hlt, if_pos rfl]

theorem memalignAlignment_spec {alignment a : Nat} (hgt : 16 < alignment) (hlt : alignment < 2^64)
    (h : memalignAlignment alignment = some a) : ∃ k, k ≤ 63 ∧ a = 2^k := by
  rw [memalignAlignment_eq hgt hlt] at h
  obtain ⟨hle, e⟩ := Option.ite_none_right_eq_some.mp h
  obtain rfl := Option.some.inj e
  exact ⟨_, (Nat.clog_le_iff_le_pow (by decide)).mpr hle, rfl⟩

-- From here on these functions are known by their exact values only: reducing `% 2^64` on an
-- open term does not end.
attribute [irreducible] roundUsable smallClass mediumClass poolGeometry directSizes directUser
  memalignAlignment

end MyMalloc.Adaptive
