import MyMalloc.Classic.Mimalloc.Usable

/- The addresses of blocks, and the way back from them (`types.h`, `mimalloc.cpp`).

   `mi_page_alloc` lays the blocks out from behind the two headers. The lookup starts
   from an address instead: it clears the low bits for the segment, goes through its
   pages, and computes for each where its blocks begin, from the page capacity of the
   segment and the index of the page. Here are both, with the wrap-around of the
   machine's arithmetic; `addresses_agree` says that they give the same.

   `Page.has` in `Malloc` is this lookup for a segment with one page (`pageOf_eq`). -/
namespace MyMalloc.Mimalloc

/-- The fields of `mi_segment_t` that the lookup reads. -/
structure SegmentHead where
  magic : Nat
  pageCount : Nat
  pageCapacity : Nat

/-- Those of `mi_page_t`. -/
structure PageHead where
  blockSize : Nat
  capacity : Nat
  segmentIdx : Nat

/-- The headers in memory, by address. -/
structure Heads where
  segment : Nat → SegmentHead
  page : Nat → PageHead

/-- `sizeof(mi_segment_t)`. -/
def segmentHeadSize : Nat := 32

/-- `sizeof(mi_page_t)`. -/
def pageHeadSize : Nat := 96

/-- `&seg->pages[i]`. -/
def pageAddr (seg i : Nat) : Nat := seg + segmentHeadSize + i * pageHeadSize

def blockStart (m : Heads) (page : Nat) : Nat :=
  let seg := segmentOf page
  let pageCapacity := (m.segment seg).pageCapacity
  let segData := (seg + segmentHeadSize + pageCapacity * pageHeadSize) % 2^64
  let segData := maskOff ((segData + blockAlign - 1) % 2^64) (blockAlign - 1)
  let slice := (segmentSize / pageCapacity + (2^64 - pageHeadSize)) % 2^64
  (segData + (m.page page).segmentIdx * slice) % 2^64

def blockAt (m : Heads) (page i : Nat) : Nat :=
  (blockStart m page + i * (m.page page).blockSize) % 2^64

def blockIndex (m : Heads) (page block : Nat) : Nat :=
  (block + (2^64 - blockStart m page)) % 2^64 / (m.page page).blockSize

/-- Whether `page_of` takes the page. Capacity and block size are multiplied as 32-bit words. -/
def pageHolds (m : Heads) (p page : Nat) : Bool :=
  let size := (m.page page).capacity * (m.page page).blockSize % 2^32
  decide ((m.page page).blockSize ≠ 0 ∧ blockStart m page ≤ p ∧ p < (blockStart m page + size) % 2^64)

def pageOf (m : Heads) (p : Nat) : Option Nat :=
  let seg := segmentOf p
  if seg = 0 ∨ (m.segment seg).magic ≠ segmentMagic then none
  else ((List.range (m.segment seg).pageCount).map (pageAddr seg)).find? (pageHolds m p)

/-- The headers that `mi_segment_alloc(1)` and `mi_page_alloc` write. -/
def writeHeads (m : Heads) (seg : Nat) (pg : Page) : Heads where
  segment := Function.update m.segment seg ⟨segmentMagic, 1, 1⟩
  page := Function.update m.page (pageAddr seg 0) ⟨pg.blockSize, pg.capacity, 0⟩

/-- A segment on its boundary that ends before the address space does. -/
structure IsSegment (seg : Nat) : Prop where
  ne : seg ≠ 0
  dvd : segmentSize ∣ seg
  lt : seg + segmentSize < 2^64

variable {m : Heads} {seg p i j : Nat} {pg : Page}

theorem IsSegment.segmentOf_eq (h : IsSegment seg) (hlo : seg ≤ p) (hhi : p < seg + segmentSize) :
    segmentOf p = seg :=
  Mimalloc.segmentOf_eq h.dvd hlo hhi (Nat.lt_trans hhi h.lt)

/-- `OS::segment_alloc` returns no others. -/
theorem segmentAlloc_isSegment {τ : Type} {host : Host} {s s' : State τ} (h : segmentAlloc host s = (some seg, s')) :
    IsSegment seg := by
  rcases segmentAlloc_cases host s with ⟨-, hno⟩ | ⟨a, hdvd, hne, hle, -, hsome⟩
  · cases h.symm.trans hno
  · obtain rfl := Option.some.inj (Prod.mk.inj (h.symm.trans hsome)).1
    exact ⟨hne, hdvd, by omega⟩

/-- The two formulas for the first block agree: the headers are a multiple of the alignment. -/
theorem blockStart_eq (h : IsSegment seg) :
    blockStart (writeHeads m seg pg) (pageAddr seg 0) = seg + blockOffset := by
  have hsize : segmentSize = 65536 := rfl
  have hlt := h.lt
  have hdvd : 65536 ∣ seg := h.dvd
  have hpage : pageAddr seg 0 = seg + 32 := rfl
  have hseg : segmentOf (pageAddr seg 0) = seg := h.segmentOf_eq (by omega) (by omega)
  have hdata : (seg + 32 + 1 * 96) % 2^64 = seg + 128 := Nat.mod_eq_of_lt (by omega)
  have hup : (seg + 128 + 16 - 1) % 2^64 = seg + 143 := Nat.mod_eq_of_lt (by omega)
  have hmask : maskOff (seg + 143) (16 - 1) = seg + 143 - (seg + 143) % 16 :=
    maskOff_two_pow (x := seg + 143) (k := 4) (by omega) (by decide)
  unfold blockStart segmentHeadSize pageHeadSize blockAlign
  dsimp only
  rw [hseg]
  simp only [writeHeads, Function.update_self]
  rw [hdata, hup, hmask, Nat.zero_mul, show seg + 143 - (seg + 143) % 16 = seg + 128 by omega]
  exact Nat.mod_eq_of_lt (by omega)

theorem blockAt_eq (h : IsSegment seg) (hok : PageOk seg pg) (hi : i < pg.capacity) :
    blockAt (writeHeads m seg pg) (pageAddr seg 0) i = seg + blockOffset + i * pg.blockSize := by
  have hin := (IsBlock.within ⟨i, hi, rfl⟩ : seg + blockOffset ≤ _ ∧ _)
  have hfits := hok.fits
  have hpos := hok.pos
  have hlt := h.lt
  have hsize : ((writeHeads m seg pg).page (pageAddr seg 0)).blockSize = pg.blockSize := by
    simp only [writeHeads, Function.update_self]
  rw [blockAt, blockStart_eq h, hsize]
  exact Nat.mod_eq_of_lt (by omega)

theorem blockIndex_eq (h : IsSegment seg) (hok : PageOk seg pg) (hi : i < pg.capacity) :
    blockIndex (writeHeads m seg pg) (pageAddr seg 0) (seg + blockOffset + i * pg.blockSize) = i := by
  have hin := (IsBlock.within ⟨i, hi, rfl⟩ : seg + blockOffset ≤ _ ∧ _)
  have hfits := hok.fits
  have hlt := h.lt
  have hsize : ((writeHeads m seg pg).page (pageAddr seg 0)).blockSize = pg.blockSize := by
    simp only [writeHeads, Function.update_self]
  rw [blockIndex, blockStart_eq h, hsize]
  have hsub : (seg + blockOffset + i * pg.blockSize + (2^64 - (seg + blockOffset))) % 2^64 = i * pg.blockSize := by
    omega
  rw [hsub, Nat.mul_div_cancel i hok.pos]

/-- In a segment with one page the walk over the pages is the test of that page. -/
theorem pageOf_eq (h : IsSegment seg) (hok : PageOk seg pg) (hlo : seg ≤ p) (hhi : p < seg + segmentSize) :
    pageOf (writeHeads m seg pg) p = if pg.has seg p then some (pageAddr seg 0) else none := by
  have hsize : segmentSize = 65536 := rfl
  have hfits := hok.fits
  have hlt := h.lt
  have hpage : (writeHeads m seg pg).page (pageAddr seg 0) = ⟨pg.blockSize, pg.capacity, 0⟩ := by
    simp only [writeHeads, Function.update_self]
  have hhead : (writeHeads m seg pg).segment seg = ⟨segmentMagic, 1, 1⟩ := by
    simp only [writeHeads, Function.update_self]
  have hprod : pg.capacity * pg.blockSize % 2^32 = pg.capacity * pg.blockSize := Nat.mod_eq_of_lt (by omega)
  have hend : (seg + blockOffset + pg.capacity * pg.blockSize) % 2^64 =
      seg + blockOffset + pg.capacity * pg.blockSize := Nat.mod_eq_of_lt (by omega)
  have hholds : pageHolds (writeHeads m seg pg) p (pageAddr seg 0) = pg.has seg p := by
    unfold pageHolds Page.has
    rw [blockStart_eq h, hpage]
    dsimp only
    rw [hprod, hend]
  unfold pageOf
  dsimp only
  rw [h.segmentOf_eq hlo hhi, hhead, if_neg (by simp [h.ne]), List.range_one, List.map_singleton,
    List.find?_singleton, hholds]

/-- The lookup finds the block `mi_page_alloc` puts at `b`, from its index and from each of its bytes. -/
structure Agrees (m : Heads) (seg : Nat) (pg : Page) (i b : Nat) : Prop where
  given : pg.localFree.reverse[i]? = some b
  blockAt : blockAt m (pageAddr seg 0) i = b
  aligned : blockAlign ∣ b
  inside : seg + blockOffset ≤ b ∧ b + pg.blockSize ≤ seg + segmentSize
  found : ∀ p, b ≤ p → p < b + pg.blockSize → segmentOf p = seg ∧ pageOf m p = some (pageAddr seg 0)
  index : blockIndex m (pageAddr seg 0) b = i

theorem agrees (h : IsSegment seg) (hok : PageOk seg pg) (hi : i < pg.capacity) (h16 : blockAlign ∣ pg.blockSize)
    (hgiven : pg.localFree.reverse[i]? = some (seg + blockOffset + i * pg.blockSize)) :
    Agrees (writeHeads m seg pg) seg pg i (seg + blockOffset + i * pg.blockSize) := by
  have hin := (IsBlock.within ⟨i, hi, rfl⟩ : seg + blockOffset ≤ _ ∧ _)
  have hfits := hok.fits
  refine ⟨hgiven, blockAt_eq h hok hi, ?_, ⟨hin.1, by omega⟩, fun p hlo hhi => ?_, blockIndex_eq h hok hi⟩
  · have hhead : blockAlign ∣ seg + blockOffset :=
      (Nat.dvd_add_iff_left (by decide)).mp (Nat.dvd_trans (by decide) h.dvd)
    exact Nat.dvd_add hhead (Dvd.dvd.mul_left h16 i)
  · have hhas : pg.has seg p = true := decide_eq_true ⟨hok.pos.ne', by omega, by omega⟩
    refine ⟨h.segmentOf_eq (by omega) (by omega), ?_⟩
    rw [pageOf_eq h hok (by omega) (by omega), if_pos hhas]

theorem blockAt_apart (h : IsSegment seg) (hok : PageOk seg pg) (hi : i < pg.capacity) (hj : j < pg.capacity)
    (hne : i ≠ j) :
    Region.Apart ⟨blockAt (writeHeads m seg pg) (pageAddr seg 0) i, pg.blockSize⟩
      ⟨blockAt (writeHeads m seg pg) (pageAddr seg 0) j, pg.blockSize⟩ := by
  -- the block with the lower index ends where the next one begins
  have hstep : ∀ {k l : Nat}, k < l → k * pg.blockSize + pg.blockSize ≤ l * pg.blockSize := by
    intro k l hkl
    rw [← Nat.succ_mul]
    exact Nat.mul_le_mul_right _ hkl
  rw [blockAt_eq h hok hi, blockAt_eq h hok hj]
  unfold Region.Apart
  dsimp only
  rcases Nat.lt_or_gt_of_ne hne with hlt | hlt
  · have := hstep hlt
    omega
  · have := hstep hlt
    omega

theorem freshPage_given (tag : Nat) {size : Nat} (hi : i < (freshPage seg size tag).capacity) :
    (freshPage seg size tag).localFree.reverse[i]? = some (seg + blockOffset + i * size) := by
  change ((List.range (freshPage seg size tag).capacity).reverse.map
    (fun i => seg + blockOffset + i * size)).reverse[i]? = _
  rw [← List.map_reverse, List.reverse_reverse, List.getElem?_map, List.getElem?_range hi, Option.map_some]

/-- Construction and lookup agree on every block of a new page, and no two blocks overlap. -/
theorem addresses_agree (m : Heads) (tag : Nat) {seg c : Nat} (h : IsSegment seg) (hc : c < classCountSmall) :
    let pg := freshPage seg (miClassSize c) tag
    (∀ i < pg.capacity, ∃ b, Agrees (writeHeads m seg pg) seg pg i b) ∧
      ∀ i < pg.capacity, ∀ j < pg.capacity, i ≠ j →
        Region.Apart ⟨blockAt (writeHeads m seg pg) (pageAddr seg 0) i, pg.blockSize⟩
          ⟨blockAt (writeHeads m seg pg) (pageAddr seg 0) j, pg.blockSize⟩ := by
  obtain ⟨hpos, hle⟩ := miClassSize_bounds hc
  obtain ⟨hok, -, -⟩ := freshPage_ok seg tag hpos hle
  have h16 : blockAlign ∣ miClassSize c := by
    rw [miClassSize_small hc]
    exact Nat.dvd_mul_left ..
  refine ⟨fun i hi => ⟨_, agrees h hok hi h16 (freshPage_given tag hi)⟩, fun i hi j hj hne => ?_⟩
  exact blockAt_apart h hok hi hj hne

/-- The first segment there can be, with blocks of 48 bytes. -/
theorem addresses_agree_48 : IsSegment 65536 ∧ 2 < classCountSmall ∧
    ∀ i < 1362, ∃ b, Agrees (writeHeads ⟨fun _ => ⟨0, 0, 0⟩, fun _ => ⟨0, 0, 0⟩⟩ 65536 (freshPage 65536 48 1)) 65536
      (freshPage 65536 48 1) i b := by
  have hseg : IsSegment 65536 := ⟨by decide, by decide, by decide⟩
  exact ⟨hseg, by decide, (addresses_agree _ 1 hseg (c := 2) (by decide)).1⟩

end MyMalloc.Mimalloc
