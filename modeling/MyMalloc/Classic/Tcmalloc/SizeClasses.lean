import MyMalloc.Lib.Bisect

/- The size classes of the tcmalloc-like allocator (`size_classes.h`).

   The table has 86 rows and ends at 1080 bytes, while requests up to
   `kMaxSize` (256 KiB) are served from it. `le_sizeToClass_iff` is the exact
   range the table covers.

   Correspondence: `kClassInfo`, `size_to_class`, `class_to_size` are
   `kClassInfo`, `sizeToClass`, `classToSize`. -/
namespace MyMalloc.Tcmalloc

def kNumClasses : Nat := 86
def kMaxSize : Nat := 262144
def kPageSize : Nat := 8192
def kMaxPages : Nat := 256
def kPageShift : Nat := 13

structure SizeClassInfo where
  size : Nat
  pages : Nat
  numToMove : Nat
  deriving DecidableEq, Repr

/-- The sizes of `kClassInfo`, row by row. -/
def classSizes : List Nat :=
  [8, 16, 24, 32, 40, 48, 56, 64, 72, 80, 88, 96, 104, 112, 120, 128, 136, 144, 152, 160,
   168, 176, 184, 192, 200, 208, 216, 224, 232, 240, 248, 256, 264, 272, 280, 288, 296,
   312, 328, 344, 360, 376, 392, 408, 424, 440, 456, 472, 488, 504, 520, 536, 552, 568,
   584, 600, 616, 632, 648, 664, 680, 696, 712, 728, 744, 760, 776, 792, 808, 824, 840,
   856, 872, 888, 904, 920, 936, 952, 968, 984, 1000, 1016, 1032, 1048, 1064, 1080]

/-- `kClassInfo[i]`: every row of the table takes one page and moves 32 objects. -/
def kClassInfo (i : Nat) : SizeClassInfo := ⟨classSizes.getD i 0, 1, 32⟩

def sizeToClass (size : Nat) : Nat :=
  let size := if size = 0 then 1 else size
  if kMaxSize < size then kNumClasses
  else bisect (fun i => (kClassInfo i).size) size kNumClasses 0 (kNumClasses - 1)

def classToSize (i : Nat) : Nat := if kNumClasses ≤ i then 0 else (kClassInfo i).size

theorem classSize_le_last : ∀ i ≤ 85, (kClassInfo i).size ≤ (kClassInfo 85).size := by decide

theorem classSize_bounds : ∀ i < 86, 8 ≤ (kClassInfo i).size ∧ (kClassInfo i).size ≤ 1080 := by
  decide

theorem sizeToClass_lt {n : Nat} (h : n ≤ kMaxSize) : sizeToClass n < kNumClasses := by
  have hle : ¬ kMaxSize < (if n = 0 then 1 else n) := by
    split
    · decide
    · omega
  simp only [sizeToClass, if_neg hle]
  have := (@bisect_spec (fun i => (kClassInfo i).size) (if n = 0 then 1 else n) kNumClasses 0
    (kNumClasses - 1) (by decide) (by decide)).2.1
  have e : kNumClasses = 86 := rfl
  omega

theorem le_classSize {n : Nat} (h : n ≤ 1080) : n ≤ (kClassInfo (sizeToClass n)).size := by
  have hle : ¬ kMaxSize < (if n = 0 then 1 else n) := by
    have : kMaxSize = 262144 := rfl
    split <;> omega
  simp only [sizeToClass, if_neg hle]
  have hlast : (if n = 0 then 1 else n) ≤ (kClassInfo (kNumClasses - 1)).size := by
    have : (kClassInfo (kNumClasses - 1)).size = 1080 := by decide
    split <;> omega
  have hn : n ≤ if n = 0 then 1 else n := by split <;> omega
  exact Nat.le_trans hn (@le_bisect (fun i => (kClassInfo i).size) _ kNumClasses 0
    (kNumClasses - 1) (by decide) (by decide) hlast)

theorem sizeToClass_of_lt {n : Nat} (h : 1080 < n) (hn : n ≤ kMaxSize) : sizeToClass n = 85 := by
  have h0 : ¬ n = 0 := by omega
  simp only [sizeToClass, if_neg h0, if_neg (Nat.not_lt.mpr hn)]
  exact bisect_of_lt classSize_le_last (by decide) (by decide) h

/-- The class chosen covers a small request exactly up to the last row of the table. -/
theorem le_sizeToClass_iff {n : Nat} (hn : n ≤ kMaxSize) :
    n ≤ classToSize (sizeToClass n) ↔ n ≤ 1080 := by
  rw [classToSize, if_neg (Nat.not_le.mpr (sizeToClass_lt hn))]
  refine ⟨fun h => ?_, le_classSize⟩
  exact Nat.le_trans h (classSize_bounds _ (sizeToClass_lt hn)).2

end MyMalloc.Tcmalloc
