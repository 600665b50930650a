import MyMalloc.Lib.Word

/- Sizes and bin indices of the ptmalloc allocator (`config.h`, `chunk.h`, `bins.cpp`).

   A chunk's size is the request, one size word and the rounding to sixteen. The
   header `Chunk` has six words, and `user_data` is the address after it, so the
   user pointer is 48 bytes into the chunk while `usable_size` counts from byte 8:
   the last 40 bytes of a block lie in the chunk that follows. -/
namespace MyMalloc.Ptmalloc

def sizeSz : Nat := 8
def mallocAlignment : Nat := 16
def mallocAlignMask : Nat := 15
def minsize : Nat := 32
/-- `CHUNK_HDR_SZ`. -/
def chunkHdrSz : Nat := 16
/-- `sizeof(Chunk)`, the distance of the user pointer from its chunk. -/
def chunkHeader : Nat := 48

def prevInuseBit : Nat := 1
def isMmappedBit : Nat := 2
def nonMainArenaBit : Nat := 4

def nFastbins : Nat := 10
def maxFastSize : Nat := 160
def tcacheMaxBins : Nat := 64
def tcacheFillCount : Nat := 7
def nSmallbins : Nat := 64
def minLargeSize : Nat := 1024
def nLargebins : Nat := 63
def nBins : Nat := 128
def unsortedBinIdx : Nat := 1
def heapMaxSize : Nat := 1048576
def defaultMmapThreshold : Nat := 131072
def defaultMmapThresholdMax : Nat := 524288
def defaultMmapThresholdMin : Nat := 4096
def defaultTrimThreshold : Nat := 131072
def maxArenas : Nat := 64

def request2size (req : Nat) : Nat :=
  let padded := (req + sizeSz + mallocAlignMask) % 2^64
  if padded < minsize then minsize
  else
    let aligned := maskOff padded mallocAlignMask
    if aligned < minsize then minsize else aligned

/-- `static_cast<unsigned>((s >> 4) - 2)`: the index keeps 32 bits. -/
def binIndex (size : Nat) : Nat := ((size >>> 4 + 2^64 - 2) % 2^64) % 2^32

def fastbinIndex (size : Nat) : Nat :=
  if binIndex size < nFastbins then binIndex size else nFastbins

def smallbinIndex (size : Nat) : Nat := (size >>> 4) % 2^32

def csize2tidx (size : Nat) : Nat :=
  if binIndex size < tcacheMaxBins then binIndex size else tcacheMaxBins

def inTcacheRange (size : Nat) : Bool := decide (size ≤ (tcacheMaxBins + 1) * mallocAlignment)

def inSmallbinRange (size : Nat) : Bool := decide (size < minLargeSize)

/-- The upper ends of `largebin_ranges_`. -/
def largebinMax : List Nat :=
  [1088, 1152, 1216, 1280, 1344, 1408, 1472, 1536, 1600, 1664, 1728, 1792, 1856, 1920, 1984, 2048,
   2176, 2304, 2432, 2560, 2688, 2816, 2944, 3072, 3328, 3584, 3840, 4096, 4608, 5120, 5632, 6144,
   6656, 7168, 7680, 8192, 9216, 10240, 11264, 12288, 14336, 16384, 18432, 20480, 24576, 28672,
   32768, 40960, 49152, 57344, 65536, 81920, 98304, 114688, 131072, 163840, 196608, 229376, 262144,
   327680, 393216, 458752, 524288]

def largebinIndex (size : Nat) : Nat :=
  min (largebinMax.findIdx (fun m => decide (size < m))) (nLargebins - 1)

/-! ## Requests -/

theorem maskOff_align {x : Nat} (hx : x < 2^64) : maskOff x mallocAlignMask = x - x % 16 :=
  maskOff_two_pow (k := 4) hx (by decide)

/-- A chunk is never smaller than `MINSIZE`, and its size is a multiple of sixteen. -/
theorem request2size_spec (n : Nat) :
    minsize ≤ request2size n ∧ 16 ∣ request2size n ∧ request2size n < 2^64 := by
  have hmin : minsize = 32 := rfl
  have hlt : (n + sizeSz + mallocAlignMask) % 2^64 < 2^64 := Nat.mod_lt _ (by decide)
  unfold request2size
  dsimp only
  rw [maskOff_align hlt]
  generalize (n + sizeSz + mallocAlignMask) % 2^64 = x at hlt
  split
  · exact ⟨Nat.le_refl _, by decide, by decide⟩
  · split
    · exact ⟨Nat.le_refl _, by decide, by decide⟩
    · omega

/-- Up to `2^64 - 24` the chunk has room for the request and the size word. -/
theorem request2size_exact {n : Nat} (hn : n < 2^64 - 23) :
    request2size n = max 32 (n + 23 - (n + 23) % 16) := by
  have hsum : (n + sizeSz + mallocAlignMask) % 2^64 = n + 23 := Nat.mod_eq_of_lt (by
    have h1 : sizeSz = 8 := rfl
    have h2 : mallocAlignMask = 15 := rfl
    omega)
  have hmin : minsize = 32 := rfl
  unfold request2size
  dsimp only
  rw [hsum, maskOff_align (by omega), hmin]
  split
  · omega
  · split <;> omega

/-- Above it the sum wraps, and the chunk is the smallest there is. -/
theorem request2size_wrap {n : Nat} (hn : 2^64 - 23 ≤ n) (hlt : n < 2^64) :
    request2size n = minsize := by
  have h1 : sizeSz = 8 := rfl
  have h2 : mallocAlignMask = 15 := rfl
  have hmin : minsize = 32 := rfl
  have hsum : (n + sizeSz + mallocAlignMask) % 2^64 < minsize := by omega
  unfold request2size
  dsimp only
  rw [if_pos hsum]

/-! ## Indices -/

theorem binIndex_eq {size : Nat} (hlow : 32 ≤ size) (hup : size < 2^32) :
    binIndex size = size / 16 - 2 := by
  unfold binIndex
  rw [Nat.shiftRight_eq_div_pow]
  omega

theorem csize2tidx_eq {size : Nat} (hlow : 32 ≤ size) (hup : size < 1056) :
    csize2tidx size = size / 16 - 2 := by
  have h64 : tcacheMaxBins = 64 := rfl
  have hidx := binIndex_eq hlow (by omega)
  unfold csize2tidx
  rw [hidx, if_pos (by omega)]

end MyMalloc.Ptmalloc
