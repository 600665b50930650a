import MyMalloc.Lib.Tiling
import MyMalloc.Classic.Ptmalloc.Bins

/- Heaps as blocks that lie end to end.

   `Blocks` is the abstract heap: the size of the chunk at an address, and what the
   chunk is for. `Laid` says that the chunks of each heap tile it from the first
   one to the fencepost. What the allocator does to a heap is one of three things:
   it gives a chunk another status, it lays out the end of a heap anew, or it adds
   a heap. -/
namespace MyMalloc.Ptmalloc.Words

variable {τ : Type}

/-- What a chunk is for: a block of the user, an entry of a tcache, the top chunk of an arena, or
    nothing any more. -/
inductive Status (τ : Type) where
  | live
  | cached (t : τ) (i : Nat)
  | lost
  | top (k : Nat)
  deriving DecidableEq, Repr

structure Block (τ : Type) where
  size : Nat
  status : Status τ
  deriving DecidableEq, Repr

abbrev Blocks (τ : Type) : Type := Nat → Option (Block τ)

def Blocks.len (B : Blocks τ) (c : Nat) : Option Nat := (B c).map Block.size

theorem Blocks.len_of {B : Blocks τ} {c : Nat} {b : Block τ} (h : B c = some b) :
    B.len c = some b.size := by
  rw [Blocks.len, h, Option.map_some]

theorem Blocks.exists_of_len {B : Blocks τ} {c n : Nat} (h : B.len c = some n) :
    ∃ b, B c = some b ∧ b.size = n := Option.map_eq_some_iff.mp h

def Heap.region (h : Heap) : Region := ⟨h.start, h.size⟩

/-- The place of a heap's chunks in its mapping. -/
structure Heap.Fits (h : Heap) : Prop where
  first : h.start ≤ h.first
  fence : h.fence + 32 ≤ h.start + h.size
  low : 0 < h.start
  high : h.start + h.size ≤ 2^63
  aligned : 16 ∣ h.first

/-- The chunks of `B` tile the heaps. -/
structure Laid (heaps : List Heap) (B : Blocks τ) : Prop where
  fits : ∀ h ∈ heaps, h.Fits
  apart : heaps.Pairwise (fun h h' => h.region.Apart h'.region)
  tiled : ∀ h ∈ heaps, ∃ l, Tiles B.len h.first h.fence l
  placed : ∀ c b, B c = some b → ∃ h ∈ heaps, ∃ l, Tiles B.len h.first h.fence l ∧ c ∈ l
  sizes : ∀ c b, B c = some b → 32 ≤ b.size ∧ 16 ∣ b.size

instance : Std.Symm (fun h h' : Heap => h.region.Apart h'.region) := ⟨fun _ _ => Or.symm⟩

namespace Laid
variable {heaps : List Heap} {B B' : Blocks τ} {c d : Nat} {b b' : Block τ} {h : Heap}

variable (hl : Laid heaps B)
include hl

theorem room (hc : B c = some b) :
    ∃ h ∈ heaps, h.first ≤ c ∧ c + b.size ≤ h.fence := by
  obtain ⟨h, hh, l, ht, hcl⟩ := hl.placed c b hc
  obtain ⟨n, hn, -, hlow, hup⟩ := ht.bounds hcl
  rw [Blocks.len_of hc, Option.some.injEq] at hn
  subst hn
  exact ⟨h, hh, hlow, hup⟩

theorem aligned (hc : B c = some b) : 16 ∣ c := by
  obtain ⟨h, hh, l, ht, hcl⟩ := hl.placed c b hc
  refine (ht.dvd (fun x _ n hn => ?_) (hl.fits h hh).aligned).2 c hcl
  obtain ⟨b', hb', rfl⟩ := Blocks.exists_of_len hn
  exact (hl.sizes x b' hb').2

theorem fence_aligned (hh : h ∈ heaps) : 16 ∣ h.fence := by
  obtain ⟨l, ht⟩ := hl.tiled h hh
  refine (ht.dvd (fun x _ n hn => ?_) (hl.fits h hh).aligned).1
  obtain ⟨b', hb', rfl⟩ := Blocks.exists_of_len hn
  exact (hl.sizes x b' hb').2

theorem first_le_fence (hh : h ∈ heaps) : h.first ≤ h.fence := by
  obtain ⟨l, ht⟩ := hl.tiled h hh
  exact ht.le

theorem eq_of_shared {h' : Heap} (hh : h ∈ heaps) (hh' : h' ∈ heaps) {a : Nat}
    (ha : h.start ≤ a ∧ a < h.start + h.size) (ha' : h'.start ≤ a ∧ a < h'.start + h'.size) :
    h = h' := by
  by_contra hne
  exact (hl.apart.forall hh hh' hne).not_has (r := h.region) ha ha'

/-- The chunks of a heap lie inside its mapping, with the fencepost behind them. -/
theorem inside (hh : h ∈ heaps) :
    h.start ≤ h.first ∧ h.first ≤ h.fence ∧ h.fence + 32 ≤ h.start + h.size :=
  ⟨(hl.fits h hh).first, hl.first_le_fence hh, (hl.fits h hh).fence⟩

/-- So are two heaps whose chunks and fenceposts share an address. -/
theorem heap_unique {h' : Heap} (hh : h ∈ heaps) (hh' : h' ∈ heaps) {a : Nat}
    (ha : h.first ≤ a ∧ a ≤ h.fence) (ha' : h'.first ≤ a ∧ a ≤ h'.fence) : h = h' := by
  have hin := hl.inside hh
  have hin' := hl.inside hh'
  exact hl.eq_of_shared (a := a) hh hh' ⟨by omega, by omega⟩ ⟨by omega, by omega⟩

theorem mem_tile (hh : h ∈ heaps) (hc : B c = some b) (hlow : h.first ≤ c)
    (hup : c < h.fence) : ∃ l, Tiles B.len h.first h.fence l ∧ c ∈ l := by
  obtain ⟨h', hh', l, ht, hcl⟩ := hl.placed c b hc
  obtain ⟨n, -, hpos, hlow', hup'⟩ := ht.bounds hcl
  obtain rfl : h = h' := hl.heap_unique hh hh' ⟨hlow, Nat.le_of_lt hup⟩ ⟨hlow', by omega⟩
  exact ⟨l, ht, hcl⟩

theorem next (hc : B c = some b) :
    (∃ b', B (c + b.size) = some b') ∨ ∃ h ∈ heaps, c + b.size = h.fence := by
  obtain ⟨h, hh, l, ht, hcl⟩ := hl.placed c b hc
  rcases ht.next hcl (Blocks.len_of hc) with hn | hn
  · obtain ⟨n, hlen, -⟩ := ht.bounds hn
    obtain ⟨b', hb', -⟩ := Blocks.exists_of_len hlen
    exact Or.inl ⟨b', hb'⟩
  · exact Or.inr ⟨h, hh, hn⟩

theorem off_fence (hc : B c = some b) (hh : h ∈ heaps) :
    c + b.size ≤ h.fence ∨ h.fence + 32 ≤ c := by
  obtain ⟨h', hh', hlow, hup⟩ := hl.room hc
  have hpos := (hl.sizes c b hc).1
  have hin := hl.inside hh
  have hin' := hl.inside hh'
  by_cases heq : h' = h
  · exact Or.inl (heq ▸ hup)
  · rcases hl.apart.forall hh' hh heq with ha | ha
    · exact Or.inl (by unfold Heap.region at ha; dsimp only at ha; omega)
    · exact Or.inr (by unfold Heap.region at ha; dsimp only at ha; omega)

theorem first_le (hc : B c = some b) (hh : h ∈ heaps)
    (heq : c + b.size = h.fence) : h.first ≤ c := by
  obtain ⟨h', hh', hlow, hup⟩ := hl.room hc
  have hle := hl.first_le_fence hh
  obtain rfl : h = h' := hl.heap_unique (a := h.fence) hh hh' ⟨hle, Nat.le_refl _⟩ ⟨by omega, by omega⟩
  exact hlow

theorem before (hc : B c = some b) (hd : B d = some b') (hlt : c < d) :
    c + b.size ≤ d := by
  obtain ⟨h, hh, l, ht, hcl⟩ := hl.placed c b hc
  obtain ⟨n, hn, -, hlow, hup⟩ := ht.bounds hcl
  rw [Blocks.len_of hc, Option.some.injEq] at hn
  subst hn
  by_cases hdf : d < h.fence
  · obtain ⟨l', ht', hdl⟩ := hl.mem_tile hh hd (by omega) hdf
    obtain rfl := ht.unique ht'
    exact ht.apart hcl hdl (Blocks.len_of hc) hlt
  · omega

theorem disjoint (hc : B c = some b) (hd : B d = some b') (hne : d ≠ c) :
    d + b'.size ≤ c ∨ c + b.size ≤ d := by
  rcases Nat.lt_or_gt_of_ne hne with hlt | hlt
  · exact .inl (hl.before hd hc hlt)
  · exact .inr (hl.before hc hd hlt)

theorem none_inside (hc : B c = some b) {x : Nat} (hlow : c < x)
    (hup : x < c + b.size) : B x = none := by
  cases hx : B x with
  | none => rfl
  | some bx =>
    have := hl.before hc hx hlow
    omega

theorem eq_of_within (hc : B c = some b) {x : Nat} (hx : B x = some b') (hlow : c ≤ x)
    (hup : x < c + b.size) : x = c ∧ b' = b := by
  rcases Nat.eq_or_lt_of_le hlow with rfl | hlt
  · exact ⟨rfl, Option.some.inj (hx.symm.trans hc)⟩
  · rw [hl.none_inside hc hlt hup] at hx
    cases hx

/-! ## What happens to a heap -/

theorem retag (hc : B c = some b) (st : Status τ) :
    Laid heaps (Function.update B c (some ⟨b.size, st⟩)) := by
  have hlen : Blocks.len (Function.update B c (some ⟨b.size, st⟩)) = B.len := by
    funext x
    unfold Blocks.len
    by_cases hx : x = c
    · subst hx
      rw [Function.update_self, hc]
      rfl
    · rw [Function.update_of_ne hx]
  refine ⟨hl.fits, hl.apart, ?_, ?_, ?_⟩
  · rw [hlen]
    exact hl.tiled
  · intro x bx hx
    rw [hlen]
    obtain ⟨b', hb', -⟩ := Blocks.exists_of_len (hlen ▸ Blocks.len_of hx)
    exact hl.placed x b' hb'
  · intro x bx hx
    obtain ⟨b', hb', hsize⟩ := Blocks.exists_of_len (hlen ▸ Blocks.len_of hx)
    exact hsize ▸ hl.sizes x b' hb'

/-- The end of a heap laid out anew, from one of its blocks on. -/
theorem relay (hh : h ∈ heaps) (hc : B c = some b) (hlow : h.first ≤ c)
    (hup : c < h.fence) {l' : List Nat} (hsame : ∀ x, x < c ∨ h.fence ≤ x → B' x = B x)
    (hnew : Tiles B'.len c h.fence l') (hcells : ∀ x, c ≤ x → x < h.fence → B' x ≠ none → x ∈ l')
    (hsizes : ∀ x ∈ l', ∀ b, B' x = some b → 32 ≤ b.size ∧ 16 ∣ b.size) : Laid heaps B' := by
  have hlen : ∀ x, x < c ∨ h.fence ≤ x → B'.len x = B.len x := fun x hx => by
    rw [Blocks.len, Blocks.len, hsame x hx]
  obtain ⟨l, ht, hcl⟩ := hl.mem_tile hh hc hlow hup
  obtain ⟨m, hm, hmem⟩ := ht.retile hcl (fun x hx => hlen x (Or.inl hx)) hnew
  -- the chunks of another heap are all off the part that changes
  have hother : ∀ h' ∈ heaps, h' ≠ h → ∀ l, Tiles B.len h'.first h'.fence l →
      Tiles B'.len h'.first h'.fence l := by
    intro h' hh' hne l ht'
    refine ht'.congr (fun x hx => hlen x ?_)
    obtain ⟨n, hn, -, -, -⟩ := ht'.bounds hx
    obtain ⟨bx, hbx, -⟩ := Blocks.exists_of_len hn
    by_contra hin
    push Not at hin
    obtain ⟨n₁, -, hp₁, hlow₁, hup₁⟩ := ht'.bounds hx
    exact hne (hl.heap_unique (a := x) hh' hh ⟨hlow₁, by omega⟩ ⟨by omega, by omega⟩)
  refine ⟨hl.fits, hl.apart, ?_, ?_, ?_⟩
  · intro h' hh'
    by_cases heq : h' = h
    · exact heq ▸ ⟨m, hm⟩
    · obtain ⟨l, ht'⟩ := hl.tiled h' hh'
      exact ⟨l, hother h' hh' heq l ht'⟩
  · intro x bx hx
    by_cases hin : c ≤ x ∧ x < h.fence
    · refine ⟨h, hh, m, hm, (hmem x).mpr (Or.inr (hcells x hin.1 hin.2 ?_))⟩
      rw [hx]
      exact nofun
    · have hold : B x = some bx := by rw [← hsame x (by omega)]; exact hx
      obtain ⟨h', hh', l₂, ht₂, hxl⟩ := hl.placed x bx hold
      by_cases heq : h' = h
      · subst heq
        obtain rfl := ht.unique ht₂
        obtain ⟨n, -, hp, -, hupx⟩ := ht.bounds hxl
        exact ⟨h', hh', m, hm, (hmem x).mpr (Or.inl ⟨hxl, by omega⟩)⟩
      · exact ⟨h', hh', l₂, hother h' hh' heq l₂ ht₂, hxl⟩
  · intro x bx hx
    by_cases hin : c ≤ x ∧ x < h.fence
    · exact hsizes x (hcells x hin.1 hin.2 (by rw [hx]; exact nofun)) bx hx
    · exact hl.sizes x bx (by rw [← hsame x (by omega)]; exact hx)

theorem grow (hf : h.Fits) (hapart : ∀ h' ∈ heaps, h.region.Apart h'.region)
    {l' : List Nat} (hsame : ∀ x, x < h.first ∨ h.fence ≤ x → B' x = B x)
    (hnew : Tiles B'.len h.first h.fence l')
    (hcells : ∀ x, h.first ≤ x → x < h.fence → B' x ≠ none → x ∈ l')
    (hsizes : ∀ x ∈ l', ∀ b, B' x = some b → 32 ≤ b.size ∧ 16 ∣ b.size) :
    Laid (h :: heaps) B' := by
  -- no block of before starts where the new heap is
  have hfree : ∀ x b, B x = some b → x < h.first ∨ h.fence ≤ x := by
    intro x bx hx
    obtain ⟨h', hh', hlow, hup⟩ := hl.room hx
    have hpos := (hl.sizes x bx hx).1
    have hin := hl.inside hh'
    have h1 := hf.first
    have h2 := hf.fence
    rcases hapart h' hh' with ha | ha <;> (unfold Heap.region at ha; dsimp only at ha; omega)
  have hold : ∀ h' ∈ heaps, ∀ l, Tiles B.len h'.first h'.fence l →
      Tiles B'.len h'.first h'.fence l := by
    intro h' hh' l ht
    refine ht.congr (fun x hx => ?_)
    obtain ⟨n, hn, -, -, -⟩ := ht.bounds hx
    obtain ⟨bx, hbx, -⟩ := Blocks.exists_of_len hn
    rw [Blocks.len, Blocks.len, hsame x (hfree x bx hbx)]
  refine ⟨?_, List.pairwise_cons.mpr ⟨hapart, hl.apart⟩, ?_, ?_, ?_⟩
  · intro h' hh'
    rcases List.mem_cons.mp hh' with rfl | hh'
    · exact hf
    · exact hl.fits h' hh'
  · intro h' hh'
    rcases List.mem_cons.mp hh' with rfl | hh'
    · exact ⟨l', hnew⟩
    · obtain ⟨l, ht⟩ := hl.tiled h' hh'
      exact ⟨l, hold h' hh' l ht⟩
  · intro x bx hx
    by_cases hin : h.first ≤ x ∧ x < h.fence
    · exact ⟨h, List.mem_cons_self, l', hnew, hcells x hin.1 hin.2 (by rw [hx]; exact nofun)⟩
    · obtain ⟨h', hh', l, ht, hxl⟩ := hl.placed x bx (by rw [← hsame x (by omega)]; exact hx)
      exact ⟨h', List.mem_cons_of_mem _ hh', l, hold h' hh' l ht, hxl⟩
  · intro x bx hx
    by_cases hin : h.first ≤ x ∧ x < h.fence
    · exact hsizes x (hcells x hin.1 hin.2 (by rw [hx]; exact nofun)) bx hx
    · exact hl.sizes x bx (by rw [← hsame x (by omega)]; exact hx)

end Laid

end MyMalloc.Ptmalloc.Words
