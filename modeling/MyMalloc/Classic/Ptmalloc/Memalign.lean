import MyMalloc.Lib.Rounding
import MyMalloc.Classic.Ptmalloc.Roles

/- `pt_memalign`: an aligned block inside a larger one.

   The block `pt_malloc` returns is cut in two at the chunk of the aligned address,
   and the front piece is released. The arithmetic is right as long as the sum
   `nb + 2 * alignment + 16` does not wrap: the front piece is a chunk, and what is
   left is large enough. But the new header is written with `PREV_INUSE` alone, so
   a direct mapping or a chunk of another arena loses its flag, and `pt_free` does
   not always take the front piece: it takes a word of it for the key of a tcache
   entry, and for a piece of 48 bytes that word is the new header itself
   (`memalign_splits_iff`).

   What `pt_malloc` owes its caller is a hypothesis here (`Handed`). In the runs of
   `Runs` it keeps it (`Reach.handed`). -/
namespace MyMalloc.Ptmalloc.Words

open Exec

variable {τ : Type}

/-! ## The alignment -/

/-- The least power of two that is at least `alignment` and eight. -/
def alignTo (alignment : Nat) : Nat := powerAbove (max alignment 8)

/-- The bit tricks compute it, in a word. -/
theorem roundAlignment_eq {alignment : Nat} (h : alignment < 2^64) :
    roundAlignment alignment = alignTo alignment % 2^64 := by
  have hlt : max alignment 8 < 2^64 := by omega
  have h8 : 8 ≤ max alignment 8 := Nat.le_max_right _ _
  unfold roundAlignment alignTo
  generalize max alignment 8 = a at hlt h8
  dsimp only
  by_cases hpow : a &&& (a - 1) = 0
  · obtain ⟨k, rfl⟩ := (Nat.and_sub_one_eq_zero_iff_isPowerOfTwo (by omega)).mp hpow
    rw [if_pos hpow, powerAbove_two_pow, Nat.mod_eq_of_lt hlt]
  · rw [if_neg hpow]
    exact roundPow2_eq (by omega) hlt

/-! ## The split -/

/-- What `pt_memalign` asks `pt_malloc` for. -/
def requested (alignment size : Nat) : Nat :=
  if alignTo alignment ≤ mallocAlignment then size
  else (request2size size + 2 * alignTo alignment + chunkHdrSz) % 2^64

section
variable [DecidableEq τ]

end

section split
variable {s : State τ} {c n k : Nat}

section memory
variable {mem : Nat → Nat} {front : Nat}

end memory

end split

/-! ## What the caller gets -/

/-- What `pt_malloc` owes its caller for `m` bytes: the chunk of block `raw`, in mapped memory, with the header
    after it unless the chunk is a direct mapping. -/
structure Handed (s : State τ) (m raw : Nat) : Prop where
  aligned : 16 ∣ raw
  chunk : chunkHeader < raw
  enough : chunkFor m ≤ s.sizeAt (raw - chunkHeader)
  whole : 16 ∣ s.sizeAt (raw - chunkHeader)
  below : raw - chunkHeader + s.sizeAt (raw - chunkHeader) + minsize ≤ 2^63
  mapped : ∀ x, raw - chunkHeader ≤ x → x + 8 ≤ raw - chunkHeader + s.sizeAt (raw - chunkHeader) → s.mapped x = true
  next : s.mem (raw - chunkHeader + 8) &&& isMmappedBit = 0 →
    s.mapped (raw - chunkHeader + s.sizeAt (raw - chunkHeader) + 8) = true

/-- `pt_free` takes block `raw` for one that was freed before. -/
def Refused (s : State τ) (t : τ) (raw : Nat) : Prop :=
  (s.tcache t).isSome ∧ s.sizeAt (raw - chunkHeader) ≤ 1040 ∧ s.mem (raw + 8) ≠ 0

section
variable [DecidableEq τ] {s : State τ} {t : τ} {c n : Nat}

end

section
variable {s : State τ} {t : τ} {k nb m raw : Nat}

theorem Handed.room (h : Handed s m raw) (hnb : 32 ≤ nb) (hm : m = (nb + 2 * 2^k + chunkHdrSz) % 2^64)
    (hwrap : nb + 2 * 2^k + chunkHdrSz ≤ 2^64 - 32) :
    nb + 2 * 2^k + 24 ≤ s.sizeAt (raw - chunkHeader) := by
  have h16 : chunkHdrSz = 16 := rfl
  have henough := h.enough
  rw [Nat.mod_eq_of_lt (by omega)] at hm
  unfold chunkFor at henough
  rw [if_neg (by omega), request2size_exact (by omega)] at henough
  omega

end

section
variable [DecidableEq τ]

omit [DecidableEq τ] in
theorem Inv.handed_live {R : Regime} {s : State τ} {B : Blocks τ} {L : τ → Nat → List Nat} (inv : Inv R s B L)
    {c n m : Nat} (hn : B c = some ⟨n, .live⟩) (hm : chunkFor m ≤ n) : Handed s m (c + chunkHeader) := by
  have h48 : chunkHeader = 48 := rfl
  have h32 : minsize = 32 := rfl
  have hsize : s.sizeAt c = n := inv.cells.sizeBits_eq hn
  have hc := inv.cells.laid.aligned hn
  obtain ⟨hlow, hd⟩ := inv.cells.laid.sizes c _ hn
  obtain ⟨g, hg, hfirst, hfence⟩ := inv.cells.laid.room hn
  have hg := inv.cells.laid.fits g hg
  have h1 := hg.first
  have h2 := hg.fence
  have h3 := hg.low
  have h4 := hg.high
  dsimp only at hlow hd hfence
  constructor
  · omega
  · omega
  all_goals rw [Nat.add_sub_cancel, hsize]
  · exact hm
  · exact hd
  · omega
  · exact fun x hx hup => inv.mapped_block hn hx (by dsimp only; omega)
  · exact fun _ => inv.mapped_block hn (by omega) (by dsimp only; omega)

/-- In the runs of a regime `pt_malloc` returns, and what it owes its caller. -/
theorem Reach.handed {R : Regime} {host : Host} {s : State τ} {held : List Nat} (h : RegimeReach R host s held)
    {t : τ} {m : Nat} (fits : MallocFits R host s t m) :
    ∃ r s', ptMalloc host t m s = some (r, s') ∧ ∀ raw, r = some raw → Handed s' m raw := by
  obtain ⟨B, L, inv, -⟩ := h.inv
  obtain ⟨r, s', B', L', hrun, inv', hout, -⟩ := inv.ptMalloc fits.1 fits.2
  refine ⟨r, s', hrun, fun raw hraw => ?_⟩
  obtain ⟨c, n, rfl, hn, hle, -⟩ := hout.grant raw hraw
  exact inv'.handed_live hn hle

end

end MyMalloc.Ptmalloc.Words
