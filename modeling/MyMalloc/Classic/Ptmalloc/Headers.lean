import MyMalloc.Classic.Ptmalloc.Coalesce

/- Header words (`chunk.h`): the size of a chunk with its three flags below it, and
   what the accessors and mutators of a chunk do to it. -/
namespace MyMalloc.Ptmalloc.Words

open Exec

variable {τ : Type}

theorem or_flags {n f : Nat} (hd : 16 ∣ n) (hf : f < 16) : n ||| f = n + f := by
  obtain ⟨m, rfl⟩ := hd
  rw [show 16 * m = 2^4 * m from rfl, Nat.two_pow_add_eq_or_of_lt (by omega)]

/-- `PREV_INUSE` of a header is clear. -/
def Clear (w : Nat) : Prop := w % 2 = 0

instance (w : Nat) : Decidable (Clear w) := inferInstanceAs (Decidable (_ = _))

section words
variable {w n f : Nat}

theorem testBit_seven (i : Nat) : (7 : Nat).testBit i = decide (i < 3) :=
  Nat.testBit_two_pow_sub_one 3 i

theorem testBit_sizeBits (w i : Nat) :
    (sizeBits w).testBit i = (w.testBit i && (decide (i < 64) && !decide (i < 3))) := by
  rw [sizeBits, testBit_maskOff (by decide), testBit_seven]

theorem testBit_prevInuse (i : Nat) : prevInuseBit.testBit i = decide (i < 1) :=
  Nat.testBit_two_pow_sub_one 1 i

theorem sizeBits_or_prevInuse (w : Nat) : sizeBits (w ||| prevInuseBit) = sizeBits w := by
  apply Nat.eq_of_testBit_eq
  intro i
  rw [testBit_sizeBits, testBit_sizeBits, Nat.testBit_or, testBit_prevInuse]
  by_cases hi : i < 3
  · simp [hi]
  · simp [show ¬ i < 1 by omega]

theorem sizeBits_maskOff_prevInuse (w : Nat) : sizeBits (maskOff w prevInuseBit) = sizeBits w := by
  apply Nat.eq_of_testBit_eq
  intro i
  rw [testBit_sizeBits, testBit_sizeBits, testBit_maskOff (by decide), testBit_prevInuse]
  by_cases hi : i < 3
  · simp [hi]
  · have h1 : ¬ i < 1 := by omega
    cases w.testBit i <;> simp [h1]

theorem sizeBits_or (hd : 16 ∣ n) (hn : n < 2^63) (hf : f < 8) : sizeBits (n ||| f) = n := by
  rw [or_flags hd (by omega), sizeBits, show (7 : Nat) = 2^3 - 1 from rfl,
    maskOff_two_pow (by omega) (by decide)]
  omega

theorem clear_maskOff (w : Nat) : Clear (maskOff w prevInuseBit) := by
  unfold Clear
  rw [Nat.mod_two_eq_zero_iff_testBit_zero, testBit_maskOff (by decide)]
  simp [prevInuseBit]

theorem not_clear_or (hd : 16 ∣ n) (hf : f < 8) (hodd : f % 2 = 1) : ¬ Clear (n ||| f) := by
  unfold Clear
  rw [or_flags hd (by omega)]
  omega

theorem and_prevInuse_iff (w : Nat) : w &&& prevInuseBit ≠ 0 ↔ ¬ Clear w := by
  rw [prevInuseBit, Nat.and_one_is_mod]
  exact Iff.rfl

end words

section run
variable {s : State τ} {c n : Nat}

theorem chunkSize_of (hm : s.mapped (c + 8) = true) (hn : sizeBits (s.mem (c + 8)) = n) :
    chunkSize c s = some (n, s) := by
  unfold chunkSize
  rw [bind_run (load_run hm), hn]
  rfl

theorem chunkFlags_of (hm : s.mapped (c + 8) = true) : chunkFlags c s = some (s.mem (c + 8) &&& 7, s) := by
  unfold chunkFlags
  rw [bind_run (load_run hm)]
  rfl

theorem prevInuse_of (hm : s.mapped (c + 8) = true) :
    prevInuse c s = some (decide (¬ Clear (s.mem (c + 8))), s) := by
  unfold prevInuse
  rw [bind_run (load_run hm)]
  simp only [and_prevInuse_iff]
  rfl

theorem markInuse_of (hm : s.mapped (c + 8) = true) (hn : sizeBits (s.mem (c + 8)) = n)
    (hm' : s.mapped (c + n + 8) = true) :
    markInuse c s = some ((), { s with
      mem := Function.update s.mem (c + n + 8) (s.mem (c + n + 8) ||| prevInuseBit) }) := by
  unfold markInuse orSize
  rw [bind_run (chunkSize_of hm hn), bind_run (load_run hm')]
  exact store_run hm'

theorem clearPrevinuse_of (hm : s.mapped (c + 8) = true) (hn : sizeBits (s.mem (c + 8)) = n)
    (hm' : s.mapped (c + n + 8) = true) :
    clearPrevinuse c s = some ((), { s with
      mem := Function.update s.mem (c + n + 8) (maskOff (s.mem (c + n + 8)) prevInuseBit) }) := by
  unfold clearPrevinuse
  rw [bind_run (chunkSize_of hm hn), bind_run (load_run hm')]
  exact store_run hm'

end run

end MyMalloc.Ptmalloc.Words
