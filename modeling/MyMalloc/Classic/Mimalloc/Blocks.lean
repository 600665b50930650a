import MyMalloc.Classic.Mimalloc.Malloc

/- Where the blocks of the mimalloc-like allocator lie.

   Every mapping is either a segment or holds one block, and mappings have no
   byte in common. A block is found by the word at the segment boundary below
   it, so the invariant says for each kind of block what stands there: the
   magic number for a block of a segment, the block's own size for a large block
   whose mapping begins on a segment boundary, and words of the mapping itself for
   an aligned block. -/
namespace MyMalloc.Mimalloc

/-- The kernel answers on segment boundaries, and gives every heap its memory. -/
structure Host.Regular (host : Host) : Prop where
  aligned : ∀ k raw, host.mmap k = some raw → segmentSize ∣ raw
  heaps : ∀ k, host.heapMemory k = true

/-! ## Size arithmetic -/

theorem maskOff_page (x : Nat) (hx : x < 2^64) : maskOff x (osPageSize - 1) = x - x % 4096 :=
  maskOff_two_pow (k := 12) hx (by decide)

/-- What is mapped covers the size, unless rounding up wraps; then it is nothing. -/
theorem mapSize_spec {n : Nat} (hn : n < 2^64) :
    (n + 4095 < 2^64 ∧ (mapSize n).wrapped = false ∧ n ≤ (mapSize n).val) ∨
    (2^64 ≤ n + 4095 ∧ (mapSize n).wrapped = true ∧ (mapSize n).val = 0) := by
  have hpage : osPageSize - 1 = 4095 := rfl
  have hlt : (n + 4095) % 2^64 < 2^64 := Nat.mod_lt _ (by decide)
  have hval : (mapSize n).val = (n + 4095) % 2^64 - (n + 4095) % 2^64 % 4096 :=
    maskOff_page _ hlt
  by_cases h : n + 4095 < 2^64
  · refine .inl ⟨h, ?_, ?_⟩
    · simp only [mapSize, hpage, addS_exact h, exactly_bind, pure_eq_exactly, exactly_wrapped]
    · rw [hval, Nat.mod_eq_of_lt h]
      omega
  · refine .inr ⟨by omega, ?_, ?_⟩
    · have hadd : (addS n 4095).wrapped = true := addS_wrapped.mpr (by omega)
      rw [mapSize, bind_wrapped, hpage, hadd, Bool.true_or]
    · rw [hval]
      omega

theorem largeActual_val (n : Nat) :
    (largeActual n).val = maskOff (((n + 8) % 2^64 + 15) % 2^64) 15 := rfl

theorem sixteen_dvd_largeActual (n : Nat) : 16 ∣ (largeActual n).val := by
  rw [largeActual_val]
  exact dvd_maskOff_two_pow (k := 4) (Nat.mod_lt _ (by decide)) (by decide)

/-- Up to `2^64 - 24` the stored size is the request, its size word and the rounding. -/
theorem largeActual_exact {n : Nat} (hn : n ≤ 2^64 - 24) :
    largeActual n = exactly (n + 23 - (n + 23) % 16) := by
  have hmask : maskOff (n + 8 + 15) 15 = n + 23 - (n + 23) % 16 :=
    maskOff_two_pow (k := 4) (x := n + 8 + 15) (by omega) (by decide)
  rw [largeActual, addS_exact (by omega), exactly_bind, addS_exact (by omega), exactly_bind,
    pure_eq_exactly, hmask]

/-- Above it the stored size is at most sixteen. -/
theorem largeActual_wrap {n : Nat} (hn : 2^64 - 24 < n) (hlt : n < 2^64) :
    (largeActual n).wrapped = true ∧ (largeActual n).val ≤ 16 := by
  constructor
  · rw [largeActual, bind_wrapped]
    by_cases h : 2^64 ≤ n + 8
    · rw [addS_wrapped.mpr h, Bool.true_or]
    · have hsecond : (addS (n + 8) 15).wrapped = true := addS_wrapped.mpr (by omega)
      rw [addS_exact (by omega), exactly_val, bind_wrapped, hsecond, Bool.true_or, Bool.or_true]
  · have hdvd := sixteen_dvd_largeActual n
    have hle : (largeActual n).val ≤ ((n + 8) % 2^64 + 15) % 2^64 := maskOff_le _ _
    omega

theorem largeActual_lt (n : Nat) : (largeActual n).val < 2^64 :=
  lt_of_le_of_lt (maskOff_le _ _) (Nat.mod_lt _ (by decide))

theorem segmentOf_eq {seg p : Nat} (hd : segmentSize ∣ seg) (hlo : seg ≤ p)
    (hhi : p < seg + segmentSize) (hlt : p < 2^64) : segmentOf p = seg := by
  have h : segmentOf p = p - p % 65536 := maskOff_two_pow (k := 16) hlt (by decide)
  have hs : segmentSize = 65536 := rfl
  rw [hs] at hd hhi
  rw [h]
  omega

/-! ## The invariant -/

/-- `p` is the `i`-th block of the page, for some `i`. -/
def IsBlock (seg : Nat) (pg : Page) (p : Nat) : Prop :=
  ∃ i < pg.capacity, p = seg + blockOffset + i * pg.blockSize

structure PageOk (seg : Nat) (pg : Page) : Prop where
  pos : 0 < pg.blockSize
  fits : blockOffset + pg.capacity * pg.blockSize ≤ segmentSize
  blocks : ∀ p ∈ pg.localFree, IsBlock seg pg p
  quiet : pg.xthreadFree = []

variable {τ : Type}

/-- Where a held block lies: in a segment, behind its size word, or aligned in a mapping. -/
inductive Placed (s : State τ) (p : Nat) : Prop where
  | small {seg : Nat} {pg : Page} (page : s.page seg = some pg) (block : IsBlock seg pg p)
  | direct {raw actual : Nat} (eq : p = raw + 8) (word : s.word raw = some actual)
      (region : ⟨raw, (mapSize (addS actual 8).val).val⟩ ∈ s.regions)
      (long : 8 < (mapSize (addS actual 8).val).val) (dvd : segmentSize ∣ raw)
      (page : s.page raw = none)
  | aligned {r : Region} (region : r ∈ s.regions) (dvd : segmentSize ∣ r.base)
      (page : s.page r.base = none) (has : r.Has p) (even : 32 ∣ p)

structure Inv (s : State τ) (held : List Nat) : Prop where
  apart : s.regions.Pairwise Region.Apart
  bound : ∀ r ∈ s.regions, 0 < r.size ∧ r.base ≠ 0 ∧ r.base + r.size ≤ 2^63
  segment : ∀ seg pg, s.page seg = some pg →
    ⟨seg, segmentSize⟩ ∈ s.regions ∧ segmentSize ∣ seg ∧ PageOk seg pg
  word : ∀ a w, s.word a = some w → (∃ r ∈ s.regions, r.base = a) ∧ 2 ∣ w
  direct : ∀ t h c, s.heap t = some h → h.pageDirect c ≠ 0 →
    ∃ pg, s.page (h.pageDirect c) = some pg ∧ pg.blockSize = miClassSize c
  free : ∀ seg pg, s.page seg = some pg → pg.localFree.Nodup ∧ ∀ p ∈ pg.localFree, p ∉ held
  placed : ∀ p ∈ held, Placed s p
  lone : ∀ r ∈ s.regions, s.page r.base = none → ∀ p ∈ held, ∀ q ∈ held, r.Has p → r.Has q → p = q

theorem inv_start : Inv (State.start τ) [] :=
  ⟨.nil, nofun, nofun, nofun, nofun, nofun, nofun, nofun⟩

theorem IsBlock.within {seg p : Nat} {pg : Page} (hb : IsBlock seg pg p) :
    seg + blockOffset ≤ p ∧ p + pg.blockSize ≤ seg + blockOffset + pg.capacity * pg.blockSize := by
  obtain ⟨i, hi, rfl⟩ := hb
  have h : (i + 1) * pg.blockSize ≤ pg.capacity * pg.blockSize := Nat.mul_le_mul_right _ hi
  rw [Nat.add_mul, Nat.one_mul] at h
  omega

theorem IsBlock.congr {seg p : Nat} {pg pg' : Page} (hb : IsBlock seg pg p)
    (hsize : pg'.blockSize = pg.blockSize) (hcap : pg'.capacity = pg.capacity) :
    IsBlock seg pg' p := by
  obtain ⟨i, hi, rfl⟩ := hb
  exact ⟨i, hcap ▸ hi, by rw [hsize]⟩

namespace Inv

variable {s : State τ} {held : List Nat}

theorem region_eq (inv : Inv s held) {r r' : Region} (hr : r ∈ s.regions) (hr' : r' ∈ s.regions)
    {a : Nat} (h : r.Has a) (h' : r'.Has a) : r = r' :=
  Region.eq_of_has inv.apart hr hr' h h'

theorem region_apart (inv : Inv s held) {r r' : Region} (hr : r ∈ s.regions)
    (hr' : r' ∈ s.regions) (hne : r ≠ r') : r.Apart r' :=
  inv.apart.forall hr hr' hne

theorem segment_has (inv : Inv s held) {seg p : Nat} {pg : Page} (hpg : s.page seg = some pg)
    (hb : IsBlock seg pg p) : Region.Has ⟨seg, segmentSize⟩ p := by
  obtain ⟨-, -, hok⟩ := inv.segment seg pg hpg
  have hw := hb.within
  have := hok.fits
  have := hok.pos
  exact ⟨by dsimp only; omega, by dsimp only; omega⟩

theorem no_segment (inv : Inv s held) {r : Region} (hr : r ∈ s.regions) (hpage : s.page r.base = none)
    {a : Nat} (ha : r.Has a) : s.page a = none := by
  by_contra hne
  obtain ⟨pg, hpg⟩ := Option.ne_none_iff_exists'.mp hne
  obtain ⟨hmem, -, -⟩ := inv.segment a pg hpg
  have e := inv.region_eq hr hmem ha ⟨Nat.le_refl _, by simp [segmentSize]⟩
  rw [e, hpg] at hpage
  cases hpage

theorem placed_region (inv : Inv s held) {p : Nat} (hp : Placed s p) : ∃ r ∈ s.regions, r.Has p := by
  cases hp with
  | small hpg hb => exact ⟨_, (inv.segment _ _ hpg).1, inv.segment_has hpg hb⟩
  | direct eq _ hr hlong _ _ => exact ⟨_, hr, by dsimp only; omega, by dsimp only; omega⟩
  | aligned hr _ _ has _ => exact ⟨_, hr, has⟩

end Inv

/-- A block stays where it is as long as its region, its page and its size word do. -/
theorem Placed.mono {s s' : State τ} {p : Nat} (hp : Placed s p)
    (hreg : ∀ r ∈ s.regions, r ∈ s'.regions)
    (hpage : ∀ seg pg, s.page seg = some pg → ∃ pg', s'.page seg = some pg' ∧
      pg'.blockSize = pg.blockSize ∧ pg'.capacity = pg.capacity)
    (hnone : ∀ r ∈ s.regions, s.page r.base = none → s'.page r.base = none)
    (hword : ∀ r ∈ s.regions, ∀ w, s.word r.base = some w → s'.word r.base = some w) :
    Placed s' p := by
  cases hp with
  | small hpg hb =>
    obtain ⟨pg', hpg', hsize, hcap⟩ := hpage _ _ hpg
    exact .small hpg' (hb.congr hsize hcap)
  | direct eq hw hr hlong hdvd hnil =>
    exact .direct eq (hword _ hr _ hw) (hreg _ hr) hlong hdvd (hnone _ hr hnil)
  | aligned hr hdvd hnil has heven =>
    exact .aligned (hreg _ hr) hdvd (hnone _ hr hnil) has heven

namespace Inv

variable {s : State τ} {held : List Nat}

variable (inv : Inv s held)
include inv

theorem setPage {seg : Nat} {pg pg' : Page} (hpg : s.page seg = some pg)
    (hsize : pg'.blockSize = pg.blockSize) (hcap : pg'.capacity = pg.capacity)
    (hok : PageOk seg pg') (hfree : pg'.localFree.Nodup ∧ ∀ p ∈ pg'.localFree, p ∉ held) :
    Inv (s.putPage seg pg') held := by
  have hsome : ∀ a q, s.page a = some q → ∃ q', Function.update s.page seg (some pg') a = some q' ∧
      q'.blockSize = q.blockSize ∧ q'.capacity = q.capacity := by
    intro a q hq
    by_cases e : a = seg
    · subst e
      obtain rfl : pg = q := Option.some.inj (hpg.symm.trans hq)
      exact ⟨pg', Function.update_self .., hsize, hcap⟩
    · exact ⟨q, by rw [Function.update_of_ne e, hq], rfl, rfl⟩
  have hnone : ∀ a, s.page a = none → Function.update s.page seg (some pg') a = none := by
    intro a ha
    rw [Function.update_of_ne (fun e => by rw [e, hpg] at ha; cases ha), ha]
  constructor
  · exact inv.apart
  · exact inv.bound
  · intro a q hq
    by_cases e : a = seg
    · subst e
      change Function.update s.page a (some pg') a = some q at hq
      rw [Function.update_self] at hq
      obtain rfl : pg' = q := Option.some.inj hq
      exact ⟨(inv.segment a pg hpg).1, (inv.segment a pg hpg).2.1, hok⟩
    · exact inv.segment a q ((Function.update_of_ne e ..).symm.trans hq)
  · exact inv.word
  · intro t h c hh hc
    obtain ⟨q, hq, hqs⟩ := inv.direct t h c hh hc
    obtain ⟨q', hq', hs, -⟩ := hsome _ q hq
    exact ⟨q', hq', hs.trans hqs⟩
  · intro a q hq
    by_cases e : a = seg
    · subst e
      change Function.update s.page a (some pg') a = some q at hq
      rw [Function.update_self] at hq
      obtain rfl : pg' = q := Option.some.inj hq
      exact hfree
    · exact inv.free a q ((Function.update_of_ne e ..).symm.trans hq)
  · exact fun p hp => (inv.placed p hp).mono (fun _ h => h) hsome (fun r _ => hnone r.base)
      (fun _ _ _ h => h)
  · intro r hr hnil
    refine inv.lone r hr (by_contra fun hne => ?_)
    obtain ⟨q, hq⟩ := Option.ne_none_iff_exists'.mp hne
    obtain ⟨q', hq', -, -⟩ := hsome _ q hq
    cases (hq'.symm.trans hnil)

/-- The heaps change; their pages hold the blocks of the classes they are kept for. -/
theorem setHeap {heap : τ → Option Heap} {calls next : Nat} {once : Bool}
    (hdirect : ∀ t h c, heap t = some h → h.pageDirect c ≠ 0 →
      ∃ pg, s.page (h.pageDirect c) = some pg ∧ pg.blockSize = miClassSize c) :
    Inv { s with heap := heap, heapCalls := calls, nextHeapId := next, initOnce := once } held :=
  ⟨inv.apart, inv.bound, inv.segment, inv.word, hdirect, inv.free,
    fun p hp => (inv.placed p hp).mono (fun _ h => h) (fun _ pg h => ⟨pg, h, rfl, rfl⟩)
      (fun _ _ h => h) (fun _ _ _ h => h), inv.lone⟩

/-- A new mapping, with a page in it if it is a segment, or a size word at its start. -/
theorem addRegion {r : Region} {page : Nat → Option Page}
    {word : Nat → Option Nat} {k : Nat}
    (hsize : 0 < r.size ∧ r.base ≠ 0 ∧ r.base + r.size ≤ 2^63) (hfresh : ∀ r' ∈ s.regions, r'.Apart r)
    (hpage : ∀ a, a ≠ r.base → page a = s.page a)
    (hsegment : ∀ pg, page r.base = some pg → r.size = segmentSize ∧ segmentSize ∣ r.base ∧
      PageOk r.base pg ∧ pg.localFree.Nodup)
    (hword : ∀ a, a ≠ r.base → word a = s.word a) (heven : ∀ w, word r.base = some w → 2 ∣ w) :
    Inv { s with regions := r :: s.regions, page := page, word := word, mmapCalls := k } held := by
  have hne : ∀ r' ∈ s.regions, r'.base ≠ r.base := by
    intro r' hr' e
    have hself : r'.Has r'.base := ⟨Nat.le_refl _, by have := (inv.bound r' hr').1; omega⟩
    exact (hfresh r' hr').not_has hself ⟨by omega, by omega⟩
  have hkept : ∀ a pg, s.page a = some pg → page a = some pg := by
    intro a pg hpg
    rw [hpage a (hne _ (inv.segment a pg hpg).1), hpg]
  -- a held block lies in an older region
  have hold : ∀ p ∈ held, ¬ r.Has p := by
    intro p hp has
    obtain ⟨r₀, hr₀, has₀⟩ := inv.placed_region (inv.placed p hp)
    exact (hfresh r₀ hr₀).not_has has₀ has
  constructor
  · exact List.pairwise_cons.mpr ⟨fun r' hr' => (hfresh r' hr').symm, inv.apart⟩
  · exact List.forall_mem_cons.mpr ⟨hsize, inv.bound⟩
  · intro a pg hpg
    by_cases e : a = r.base
    · subst e
      obtain ⟨h1, h2, h3, -⟩ := hsegment pg hpg
      exact ⟨by rw [← h1]; exact List.mem_cons_self .., h2, h3⟩
    · obtain ⟨h1, h2⟩ := inv.segment a pg ((hpage a e).symm.trans hpg)
      exact ⟨List.mem_cons_of_mem _ h1, h2⟩
  · intro a w hw
    by_cases e : a = r.base
    · subst e
      exact ⟨⟨r, List.mem_cons_self .., rfl⟩, heven w hw⟩
    · obtain ⟨⟨r', hr', hb⟩, h2⟩ := inv.word a w ((hword a e).symm.trans hw)
      exact ⟨⟨r', List.mem_cons_of_mem _ hr', hb⟩, h2⟩
  · intro t h c hh hc
    obtain ⟨pg, hpg, hs⟩ := inv.direct t h c hh hc
    exact ⟨pg, hkept _ _ hpg, hs⟩
  · intro a pg hpg
    by_cases e : a = r.base
    · subst e
      obtain ⟨h1, -, h3, h4⟩ := hsegment pg hpg
      refine ⟨h4, fun p hp hheld => hold p hheld ?_⟩
      have hw := (h3.blocks p hp).within
      have := h3.fits
      have := h3.pos
      exact ⟨by omega, by omega⟩
    · exact inv.free a pg ((hpage a e).symm.trans hpg)
  · intro p hp
    refine (inv.placed p hp).mono (fun _ h => List.mem_cons_of_mem _ h)
      (fun a pg h => ⟨pg, hkept a pg h, rfl, rfl⟩) (fun r' hr' h => ?_) (fun r' hr' w h => ?_)
    · exact (hpage _ (hne r' hr')).trans h
    · exact (hword _ (hne r' hr')).trans h
  · intro r' hr' hnil p hp q hq hasp hasq
    rcases List.mem_cons.mp hr' with rfl | hr'
    · exact absurd hasp (hold p hp)
    · exact inv.lone r' hr' ((hpage _ (hne r' hr')).symm.trans hnil) p hp q hq hasp hasq

theorem notMem_free {r : Region} (hr : r ∈ s.regions)
    (hnil : s.page r.base = none) {p : Nat} (has : r.Has p) {seg : Nat} {pg : Page}
    (hpg : s.page seg = some pg) : p ∉ pg.localFree := by
  intro hp
  obtain ⟨hmem, -, hok⟩ := inv.segment seg pg hpg
  have e := inv.region_eq hr hmem has (inv.segment_has hpg (hok.blocks p hp))
  rw [e, hpg] at hnil
  cases hnil

theorem mono {l : List Nat} (hsub : ∀ p ∈ l, p ∈ held) : Inv s l :=
  ⟨inv.apart, inv.bound, inv.segment, inv.word, inv.direct,
    fun seg pg hpg => ⟨(inv.free seg pg hpg).1, fun p hp hl => (inv.free seg pg hpg).2 p hp (hsub p hl)⟩,
    fun p hp => inv.placed p (hsub p hp),
    fun r hr hnil a ha b hb => inv.lone r hr hnil a (hsub a ha) b (hsub b hb)⟩

theorem hold {p : Nat} (hp : Placed s p)
    (hfree : ∀ seg pg, s.page seg = some pg → p ∉ pg.localFree)
    (hlone : ∀ r ∈ s.regions, s.page r.base = none → r.Has p → ∀ q ∈ held, ¬ r.Has q) :
    Inv s (p :: held) := by
  refine ⟨inv.apart, inv.bound, inv.segment, inv.word, inv.direct, fun seg pg hpg => ?_,
    List.forall_mem_cons.mpr ⟨hp, inv.placed⟩, ?_⟩
  · refine ⟨(inv.free seg pg hpg).1, fun q hq hmem => ?_⟩
    rcases List.mem_cons.mp hmem with rfl | hmem
    · exact hfree seg pg hpg hq
    · exact (inv.free seg pg hpg).2 q hq hmem
  intro r hr hnil a ha b hb hasa hasb
  rcases List.mem_cons.mp ha with rfl | ha' <;> rcases List.mem_cons.mp hb with rfl | hb'
  · rfl
  · exact absurd hasb (hlone r hr hnil hasa b hb')
  · exact absurd hasa (hlone r hr hnil hasb a ha')
  · exact inv.lone r hr hnil a ha' b hb' hasa hasb

theorem hold_small {seg p : Nat} {pg : Page} (hpg : s.page seg = some pg)
    (hb : IsBlock seg pg p) (hout : p ∉ pg.localFree) : Inv s (p :: held) := by
  obtain ⟨hmem, -, -⟩ := inv.segment seg pg hpg
  have has := inv.segment_has hpg hb
  refine inv.hold (.small hpg hb) (fun seg' pg' hpg' hin => ?_) (fun r hr hnil has' => ?_)
  · obtain ⟨hmem', -, hok'⟩ := inv.segment seg' pg' hpg'
    have e := inv.region_eq hmem hmem' has (inv.segment_has hpg' (hok'.blocks p hin))
    obtain rfl : seg = seg' := congrArg Region.base e
    obtain rfl : pg = pg' := Option.some.inj (hpg.symm.trans hpg')
    exact hout hin
  · rw [inv.region_eq hr hmem has' has, hpg] at hnil
    cases hnil

theorem hold_lone {p : Nat} (hp : Placed s p) {r : Region} (hr : r ∈ s.regions)
    (hnil : s.page r.base = none) (has : r.Has p) (hlone : ∀ q ∈ held, ¬ r.Has q) :
    Inv s (p :: held) := by
  refine inv.hold hp (fun _ _ hpg => inv.notMem_free hr hnil has hpg) (fun r' hr' _ has' => ?_)
  rwa [inv.region_eq hr' hr has' has]

end Inv

namespace Inv

variable {s : State τ} {held : List Nat}

theorem mem_unmapped (inv : Inv s held) {r : Region} (hr : r ∈ s.regions) (r' : Region) :
    r' ∈ s.regions.flatMap (·.minus r.base r.size) ↔ r' ∈ s.regions ∧ r' ≠ r := by
  have hminus : ∀ q ∈ s.regions, q ≠ r → q.minus r.base r.size = [q] := fun q hq hne =>
    Region.minus_apart (inv.region_apart hq hr hne) (inv.bound q hq).1
  rw [List.mem_flatMap]
  constructor
  · rintro ⟨q, hq, hmem⟩
    by_cases e : q = r
    · rw [e, Region.minus_self] at hmem
      exact absurd hmem List.not_mem_nil
    · rw [hminus q hq e, List.mem_singleton] at hmem
      exact hmem ▸ ⟨hq, e⟩
  · rintro ⟨hq, hne⟩
    exact ⟨r', hq, by rw [hminus r' hq hne]; exact List.mem_singleton_self _⟩

theorem unmapped_apart (inv : Inv s held) {r : Region} (hr : r ∈ s.regions) :
    (s.regions.flatMap (·.minus r.base r.size)).Pairwise Region.Apart := by
  have hsub : ∀ l : List Region, (∀ q ∈ l, q ∈ s.regions) → l.Pairwise Region.Apart →
      (l.flatMap (·.minus r.base r.size)).Pairwise Region.Apart := by
    intro l hl hp
    induction l with
    | nil => exact .nil
    | cons q l ih =>
      obtain ⟨hq, hp⟩ := List.pairwise_cons.mp hp
      have ih := ih (fun x hx => hl x (List.mem_cons_of_mem _ hx)) hp
      rw [List.flatMap_cons]
      by_cases e : q = r
      · rwa [e, Region.minus_self, List.nil_append]
      · have hqm := hl q (List.mem_cons_self ..)
        rw [Region.minus_apart (inv.region_apart hqm hr e) (inv.bound q hqm).1]
        refine List.pairwise_cons.mpr ⟨fun x hx => ?_, ih⟩
        obtain ⟨y, hy, hxy⟩ := List.mem_flatMap.mp hx
        have hym := hl y (List.mem_cons_of_mem _ hy)
        by_cases e' : y = r
        · rw [e', Region.minus_self] at hxy
          exact absurd hxy List.not_mem_nil
        · rw [Region.minus_apart (inv.region_apart hym hr e') (inv.bound y hym).1,
            List.mem_singleton] at hxy
          exact hxy ▸ hq y hy
  exact hsub _ (fun _ h => h) inv.apart

theorem unmap_empty (inv : Inv s held) {r : Region} (hr : r ∈ s.regions) (hnil : s.page r.base = none)
    (hout : ∀ q ∈ held, ¬ r.Has q) :
    Inv { s with
      regions := s.regions.flatMap (·.minus r.base r.size)
      page := fun a => if r.base ≤ a ∧ a < r.base + r.size then none else s.page a
      word := fun a => if r.base ≤ a ∧ a < r.base + r.size then none else s.word a } held := by
  have hpage : (fun a => if r.base ≤ a ∧ a < r.base + r.size then none else s.page a) = s.page := by
    funext a
    split
    · next h => exact (inv.no_segment hr hnil h).symm
    · rfl
  have hbase : ∀ q ∈ s.regions, q ≠ r → ¬ (r.base ≤ q.base ∧ q.base < r.base + r.size) := by
    intro q hq hne h
    have hself : q.Has q.base := ⟨Nat.le_refl _, by have := (inv.bound q hq).1; omega⟩
    exact hne (inv.region_eq hq hr hself h)
  rw [hpage]
  constructor
  · exact inv.unmapped_apart hr
  · exact fun q hq => inv.bound q ((inv.mem_unmapped hr q).mp hq).1
  · intro a pg hpg
    obtain ⟨h1, h2⟩ := inv.segment a pg hpg
    refine ⟨(inv.mem_unmapped hr _).mpr ⟨h1, fun e => ?_⟩, h2⟩
    rw [← e, hpg] at hnil
    cases hnil
  · intro a w hw
    dsimp only at hw
    split at hw
    · cases hw
    · next hnot =>
      obtain ⟨⟨q, hq, rfl⟩, h2⟩ := inv.word a w hw
      refine ⟨⟨q, (inv.mem_unmapped hr q).mpr ⟨hq, fun e => hnot ?_⟩, rfl⟩, h2⟩
      have := (inv.bound q hq).1
      rw [e] at this ⊢
      omega
  · exact inv.direct
  · exact inv.free
  · intro q hq
    -- a block that is held lies in another region
    have hother : ∀ r' ∈ s.regions, r'.Has q → r' ≠ r := by
      rintro r' - hq' rfl
      exact hout q hq hq'
    cases inv.placed q hq with
    | small hpg hb => exact .small hpg hb
    | direct eq hw hreg hlong hdvd hnil' =>
      have hne := hother _ hreg ⟨by dsimp only; omega, by dsimp only; omega⟩
      exact .direct eq ((if_neg (hbase _ hreg hne)).trans hw)
        ((inv.mem_unmapped hr _).mpr ⟨hreg, hne⟩) hlong hdvd hnil'
    | aligned hreg hdvd hnil' has' heven =>
      exact .aligned ((inv.mem_unmapped hr _).mpr ⟨hreg, hother _ hreg has'⟩) hdvd hnil' has' heven
  · intro r' hr'
    exact inv.lone r' ((inv.mem_unmapped hr r').mp hr').1

theorem unmap (inv : Inv s held) {r : Region} (hr : r ∈ s.regions) (hnil : s.page r.base = none)
    {p : Nat} (hp : p ∈ held) (has : r.Has p) :
    Inv { s with
      regions := s.regions.flatMap (·.minus r.base r.size)
      page := fun a => if r.base ≤ a ∧ a < r.base + r.size then none else s.page a
      word := fun a => if r.base ≤ a ∧ a < r.base + r.size then none else s.word a }
      (held.filter (· ≠ p)) := by
  refine (inv.mono fun q hq => (List.mem_filter.mp hq).1).unmap_empty hr hnil fun q hq hasq => ?_
  obtain ⟨hq, hqp⟩ := List.mem_filter.mp hq
  exact of_decide_eq_true hqp (inv.lone r hr hnil q hq p hp hasq has)

end Inv

end MyMalloc.Mimalloc
