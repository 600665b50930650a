import MyMalloc.Classic.Ptmalloc.Runs

/- What each chunk of a heap is for, read off memory.

   A chunk is the user's, or the tcache entry of a thread, or in a fastbin or a bin of
   an arena, or the top chunk of one. In runs that lose no chunk the walk of every heap
   ends at its fencepost and every chunk on it is for exactly one of these
   (`heaps_tiled`). A chunk is lost as soon as one of 48 bytes is released: its key,
   which would be zero for a block that was not freed before, is the size field of the
   chunk after it. -/
namespace MyMalloc.Ptmalloc.Words

open Exec

variable {τ : Type} {R : Regime} {s : State τ} {B : Blocks τ} {L : τ → Nat → List Nat}
  {host : Host} {held : List Nat} {c n k : Nat} {t : τ}

/-! ## The places of a chunk -/

/-- The chunk is on a list of `t`'s tcache. -/
def InTcache (s : State τ) (t : τ) (c : Nat) : Prop :=
  ∃ i l, Chain 0 s.mem (binHead (s.tcache t) i) l ∧ c + chunkHeader ∈ l

/-- The chunk is on a fastbin of arena `k`. -/
def InFastbin (s : State τ) (k c : Nat) : Prop :=
  ∃ i l, Chain 0 (fun x => s.mem (x + 16)) ((s.arena k).fast i) l ∧ c ∈ l

/-- The chunk is on the list of a bin of arena `k`, which ends at the bin's sentinel. -/
def InBin (s : State τ) (k c : Nat) : Prop :=
  ∃ i < nBins, ∃ l, Chain (sentinel (s.arena k).base i) (fun x => s.mem (x + 16))
    (s.mem (sentinel (s.arena k).base i + 16)) l ∧ c ∈ l

inductive Role where
  | live
  | cached
  | binned
  | top
  deriving DecidableEq, Repr

def HasRole (s : State τ) (held : List Nat) (c : Nat) : Role → Prop
  | .live => c + chunkHeader ∈ held
  | .cached => ∃ t, InTcache s t c
  | .binned => ∃ k < s.narenas, InFastbin s k c ∨ InBin s k c
  | .top => ∃ k < s.narenas, (s.arena k).top = c

/-- The walk of the heap by `chunk_size` is finite and ends at the fencepost, its chunks are at least
    `MINSIZE` long and aligned, and each has exactly one role. -/
def Tiled (s : State τ) (held : List Nat) (h : Heap) : Prop :=
  ∃ l, Tiles (fun c => some (s.sizeAt c)) h.first h.fence l ∧
    ∀ c ∈ l, minsize ≤ s.sizeAt c ∧ 16 ∣ s.sizeAt c ∧ ∃! role, HasRole s held c role

/-! ## Roles and the invariant -/

namespace Inv

theorem inTcache_iff (inv : Inv R s B L) (t : τ) (c : Nat) :
    InTcache s t c ↔ ∃ i n, B c = some ⟨n, .cached t i⟩ := by
  constructor
  · rintro ⟨i, l, hl, hc⟩
    rw [hl.unique (inv.shelves.chain t i)] at hc
    obtain ⟨d, hd, heq⟩ := List.mem_map.mp hc
    obtain rfl : d = c := Nat.add_right_cancel heq
    exact ⟨i, (inv.shelves.mem_iff t i d).mp hd⟩
  · rintro ⟨i, n, hn⟩
    exact ⟨i, _, inv.shelves.chain t i,
      List.mem_map.mpr ⟨c, (inv.shelves.mem_iff t i c).mpr ⟨n, hn⟩, rfl⟩⟩

theorem not_inFastbin (inv : Inv R s B L) (hk : k < s.narenas) : ¬ InFastbin s k c := by
  rintro ⟨i, l, hl, hc⟩
  rw [hl.eq_nil_iff.mpr ((inv.arenas k hk).fast i)] at hc
  cases hc

theorem not_inBin (inv : Inv R s B L) (hk : k < s.narenas) : ¬ InBin s k c := by
  rintro ⟨i, hi, l, hl, hc⟩
  rw [hl.eq_nil_iff.mpr ((inv.arenas k hk).bins i hi)] at hc
  cases hc

theorem top_iff (inv : Inv R s B L) {b : Block τ} (hc : B c = some b) :
    (∃ k < s.narenas, (s.arena k).top = c) ↔ ∃ k, b.status = .top k := by
  constructor
  · rintro ⟨k, hk, rfl⟩
    have hpos := inv.cells.pos hc
    rcases inv.tops.top k hk with h0 | ⟨m, hm, -⟩
    · omega
    · rw [hc, Option.some.injEq] at hm
      exact ⟨k, by rw [hm]⟩
  · rintro ⟨k, hk⟩
    obtain ⟨m, st⟩ := b
    obtain rfl : st = .top k := hk
    obtain ⟨hlt, htop⟩ := inv.tops.only c m k hc
    exact ⟨k, hlt, htop⟩

/-- A chunk that is not lost has the role its status says, and no other. -/
theorem existsUnique_role (inv : Inv R s B L) (own : Owned B held) {b : Block τ} (hc : B c = some b)
    (hlost : b.status ≠ .lost) : ∃! role, HasRole s held c role := by
  have hlive : HasRole s held c .live ↔ b.status = .live := by
    refine (own _).trans ⟨?_, fun h => ⟨c, ⟨b.size, by rw [hc, ← h]⟩, rfl⟩⟩
    rintro ⟨d, ⟨m, hm⟩, heq⟩
    obtain rfl : c = d := Nat.add_right_cancel heq
    rw [hc, Option.some.injEq] at hm
    rw [hm]
  have hcached : HasRole s held c .cached ↔ ∃ t i, b.status = .cached t i := by
    refine exists_congr (fun t => (inv.inTcache_iff t c).trans (exists_congr (fun i => ⟨?_, ?_⟩)))
    · rintro ⟨m, hm⟩
      rw [hc, Option.some.injEq] at hm
      rw [hm]
    · intro h
      exact ⟨b.size, by rw [hc, ← h]⟩
  have hbinned : ¬ HasRole s held c .binned := fun ⟨k, hk, h⟩ =>
    h.elim (inv.not_inFastbin hk) (inv.not_inBin hk)
  have htop : HasRole s held c .top ↔ ∃ k, b.status = .top k := inv.top_iff hc
  -- the role of the status, and why no other one fits
  obtain ⟨role, hrole, hother⟩ : ∃ role, HasRole s held c role ∧
      ∀ role', HasRole s held c role' → role' = role := by
    cases hst : b.status with
    | live =>
      refine ⟨.live, hlive.mpr hst, fun role' h => ?_⟩
      cases role' with
      | live => rfl
      | cached => obtain ⟨t, i, e⟩ := hcached.mp h; rw [hst] at e; cases e
      | binned => exact absurd h hbinned
      | top => obtain ⟨k, e⟩ := htop.mp h; rw [hst] at e; cases e
    | cached t i =>
      refine ⟨.cached, hcached.mpr ⟨t, i, hst⟩, fun role' h => ?_⟩
      cases role' with
      | live => have e := hlive.mp h; rw [hst] at e; cases e
      | cached => rfl
      | binned => exact absurd h hbinned
      | top => obtain ⟨k, e⟩ := htop.mp h; rw [hst] at e; cases e
    | lost => exact absurd hst hlost
    | top k =>
      refine ⟨.top, htop.mpr ⟨k, hst⟩, fun role' h => ?_⟩
      cases role' with
      | live => have e := hlive.mp h; rw [hst] at e; cases e
      | cached => obtain ⟨t, i, e⟩ := hcached.mp h; rw [hst] at e; cases e
      | binned => exact absurd h hbinned
      | top => rfl
  exact ⟨role, hrole, hother⟩

theorem tiled (inv : Inv R s B L) (own : Owned B held) (hR : R.lossy = false) {h : Heap}
    (hh : h ∈ s.heaps) : Tiled s held h := by
  obtain ⟨l, ht⟩ := inv.cells.laid.tiled h hh
  have hblock : ∀ c ∈ l, ∃ b, B c = some b ∧ s.sizeAt c = b.size := by
    intro c hc
    obtain ⟨n, hn, -⟩ := ht.bounds hc
    obtain ⟨b, hb, -⟩ := Blocks.exists_of_len hn
    exact ⟨b, hb, inv.cells.sizeBits_eq hb⟩
  refine ⟨l, ht.congr (fun c hc => ?_), fun c hc => ?_⟩
  · obtain ⟨b, hb, hsize⟩ := hblock c hc
    rw [Blocks.len_of hb, hsize]
  · obtain ⟨b, hb, hsize⟩ := hblock c hc
    obtain ⟨h1, h2⟩ := inv.cells.laid.sizes c b hb
    rw [hsize]
    exact ⟨h1, h2, inv.existsUnique_role own hb (inv.side.kept hR c b hb)⟩

end Inv

/-! ## Tiling -/

/-- Chunks up to 1008 bytes, none of which is lost, and writes off the size fields. -/
def lossless : Regime := ⟨1008, 0, false, true, by decide, by decide, nofun⟩

/-- In every run whose calls keep to the tcaches and the top chunks and lose no chunk, every heap is
    tiled by chunks with one role each. -/
theorem heaps_tiled [DecidableEq τ] (host : Host) (s : State τ) (held : List Nat)
    (h : RegimeReach lossless host s held) (g : Heap) (hg : g ∈ s.heaps) : Tiled s held g := by
  obtain ⟨B, L, inv, own⟩ := h.inv
  exact inv.tiled own rfl hg

theorem cached_chunk_tiled : ∃ s held, RegimeReach (τ := Unit) lossless spaciousHost s held ∧
    held = [] ∧ s.heaps.length = 2 ∧ ∀ g ∈ s.heaps, Tiled s held g := by
  have heval : (runCalls lossless spaciousHost [.malloc () 100, .free () 50331744]).map
      (fun r => (r.2, r.1.heaps.length)) = some ([], 2) := by decide +kernel
  obtain ⟨⟨s, held⟩, hrun, heq⟩ := Option.map_eq_some_iff.mp heval
  obtain ⟨hheld, hlen⟩ := Prod.mk.inj heq
  have h := reach_of_runCalls hrun
  exact ⟨s, held, h, hheld, hlen, heaps_tiled spaciousHost s held h⟩

/-- A block of the user that is dropped where it lies has no role. -/
theorem Inv.not_hasRole (inv : Inv R s B L) (hc : B c = some ⟨n, .live⟩)
    (hheld : c + chunkHeader ∉ held) (role : Role) : ¬ HasRole s held c role := by
  cases role with
  | live => exact hheld
  | cached =>
    rintro ⟨t, h⟩
    obtain ⟨i, m, hm⟩ := (inv.inTcache_iff t c).mp h
    rw [hc] at hm
    cases hm
  | binned => exact fun ⟨k, hk, h⟩ => h.elim (inv.not_inFastbin hk) (inv.not_inBin hk)
  | top =>
    intro h
    obtain ⟨k, hk⟩ := (inv.top_iff hc).mp h
    cases hk

/-- The state after `pt_malloc(40)`: the first chunk of the heap is a block of 48 bytes. -/
theorem malloc_forty : ∃ (s : State Unit) (B : Blocks Unit) (L : Unit → Nat → List Nat),
    RegimeReach lossless spaciousHost s [50331744] ∧ Inv lossless s B L ∧
      B 50331696 = some ⟨48, .live⟩ ∧ (s.tcache ()).isSome = true ∧
      s.heaps.head? = some ⟨50331648, 1052672, 1, 50331696, 51384288⟩ := by
  have heval : (runCalls lossless spaciousHost [.malloc () 40]).map
      (fun r => (r.2, (r.1.tcache ()).isSome, r.1.sizeAt 50331696, r.1.heaps.head?)) =
      some ([50331744], true, 48, some ⟨50331648, 1052672, 1, 50331696, 51384288⟩) := by
    decide +kernel
  obtain ⟨⟨s, held⟩, hrun, heq⟩ := Option.map_eq_some_iff.mp heval
  obtain ⟨rfl, htc, hsize, hheap⟩ : held = [50331744] ∧ (s.tcache ()).isSome = true ∧
      s.sizeAt 50331696 = 48 ∧
      s.heaps.head? = some ⟨50331648, 1052672, 1, 50331696, 51384288⟩ := by
    simpa only [Prod.mk.injEq] using heq
  have h := reach_of_runCalls hrun
  obtain ⟨B, L, inv, own⟩ := h.inv
  obtain ⟨c, n, hp, hc⟩ := own.live (List.mem_singleton_self _)
  obtain rfl : c = 50331696 := (Nat.add_right_cancel (m := chunkHeader) hp).symm
  obtain rfl : n = 48 := (inv.cells.sizeBits_eq hc).symm.trans hsize
  exact ⟨s, B, L, h, inv, hc, htc, hheap⟩

/-- `pt_free(pt_malloc(40))` loses the chunk: its key is the size field of the top chunk. -/
theorem freed_chunk_lost : ∃ host s held, Reach (τ := Unit) host (fun _ _ => True) s held ∧
    ∃ g ∈ s.heaps, ¬ Tiled s held g := by
  obtain ⟨s, B, L, h, inv, hc, htc, hheap⟩ := malloc_forty
  have hfree : ptFree () 50331744 s = some ((), s) :=
    inv.ptFree_dropped hc htc (by decide) (inv.key_ne_zero hc rfl)
  refine ⟨spaciousHost, s, [], (h.mono (fun _ _ _ => trivial)).step (.free () 50331744)
    (Or.inr (List.mem_singleton_self _)) trivial (bind_run hfree), _, List.mem_of_head? hheap, ?_⟩
  rintro ⟨l, htiles, hrole⟩
  -- the lost chunk is the first one of the heap
  cases l with
  | nil =>
    have hends : 50331696 = 51384288 := htiles
    omega
  | cons d l =>
    obtain ⟨rfl, -⟩ := htiles
    obtain ⟨-, -, role, hhas, -⟩ := hrole _ (List.mem_cons_self ..)
    exact inv.not_hasRole hc List.not_mem_nil role hhas

end MyMalloc.Ptmalloc.Words
