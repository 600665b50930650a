import MyMalloc.Classic.Ptmalloc.Blocks
import MyMalloc.Classic.Ptmalloc.FreeLists
import MyMalloc.Classic.Ptmalloc.Headers
import MyMalloc.Lib.Joining

/- Boundary tags (`chunk.h`, `coalesce.cpp`).

   The bit `PREV_INUSE` of a header says whether the chunk before it is in a bin, and
   where it is, the word in front of the header is the size of that chunk. `HeapsOk`
   states this together with the lists of the arena and the tiling of its heaps.

   A chunk that is merged with its neighbours is made of several chunks while it is in
   no list: those from `b` up to `e`. All that changes when it becomes one chunk is said
   here; what the program does to get there is said in the modules that use it. -/
namespace MyMalloc.Ptmalloc.Words

open Exec

variable {τ : Type}

/-- The chunk is in the unsorted, a small or a large bin. -/
def Binned (L : Shelf → List Nat) (c : Nat) : Prop := ∃ i, c ∈ L (.bin i)

/-- The tag of a chunk: the bit behind it, and its foot. -/
structure Tag (mem : Nat → Nat) (L : Shelf → List Nat) (c n : Nat) : Prop where
  bit : Clear (mem (c + n + 8)) ↔ Binned L c
  foot : Binned L c → mem (c + n) = n

/-- No chunk ends at `c`. -/
def Foremost (N : Nat → Option Nat) (c : Nat) : Prop := ∀ b m, N b = some m → b + m ≠ c

/-- The chunks `N` as blocks of a heap. -/
def chunks (N : Nat → Option Nat) : Blocks Unit := fun c => (N c).map (⟨·, .live⟩)

theorem chunks_len (N : Nat → Option Nat) : (chunks N).len = N := by
  funext c
  cases h : N c <;> simp [Blocks.len, chunks, h]

theorem chunks_some {N : Nat → Option Nat} {c n : Nat} (h : N c = some n) :
    chunks N c = some ⟨n, .live⟩ := by
  rw [chunks, h]
  rfl

theorem exists_of_chunks {N : Nat → Option Nat} {c : Nat} {b : Block Unit} (h : chunks N c = some b) :
    N c = some b.size := by
  obtain ⟨n, hn, rfl⟩ := Option.map_eq_some_iff.mp h
  exact hn

/-- The heaps of arena `k`. -/
def State.heapsOf (s : State τ) (k : Nat) : List Heap := s.heaps.filter (fun h => decide (h.arena = k))

/-- Arena `k` with the chunks `N` and the free lists `L`: the lists are well formed, the chunks tile
    the heaps, the top chunk is in no list, and the tags of the chunks `P` are right. -/
structure TagsOn (P : Nat → Nat → Prop) (s : State τ) (k : Nat) (N : Nat → Option Nat)
    (L : Shelf → List Nat) : Prop where
  lists : s.Lists k N L
  laid : Laid (s.heapsOf k) (chunks N)
  top : (s.arena k).top = 0 ∨ (∃ n, N (s.arena k).top = some n) ∧ ∀ sh, (s.arena k).top ∉ L sh
  front : ∀ c n, N c = some n → Foremost N c → ¬ Clear (s.mem (c + 8))
  tag : ∀ c n, N c = some n → P c n → Tag s.mem L c n

/-- An arena whose heaps, lists and tags are all in order. -/
abbrev HeapsOk (s : State τ) (k : Nat) (N : Nat → Option Nat) (L : Shelf → List Nat) : Prop :=
  TagsOn (fun _ _ => True) s k N L

namespace TagsOn
variable {P Q : Nat → Nat → Prop} {s : State τ} {k : Nat} {N : Nat → Option Nat} {L : Shelf → List Nat} {c n : Nat}

theorem mono (h : TagsOn P s k N L) (hQ : ∀ c n, N c = some n → Q c n → P c n) : TagsOn Q s k N L :=
  ⟨h.lists, h.laid, h.top, h.front, fun c n hc hq => h.tag c n hc (hQ c n hc hq)⟩

theorem top_ne {sh : Shelf} (h : TagsOn P s k N L) (hc : c ∈ L sh) : (s.arena k).top ≠ c := by
  rintro rfl
  rcases h.top with h0 | ⟨-, hout⟩
  · obtain ⟨-, n, hn⟩ := h.lists.listed sh _ hc
    have := (h.lists.chunk _ n hn).2.2.2.1
    omega
  · exact hout sh hc

/-- Where the top chunk is, seen from another chunk. -/
theorem top_out (h : TagsOn P s k N L) (hc : N c = some n) (hne : (s.arena k).top ≠ c) :
    (s.arena k).top < c ∨ c + n ≤ (s.arena k).top := by
  have hch := h.lists.chunk c n hc
  rcases h.top with h0 | ⟨⟨m, hm⟩, -⟩
  · omega
  · have := h.lists.disjoint hc hm hne
    omega

end TagsOn

/-- No two neighbours are both in bins. -/
def Parted (N : Nat → Option Nat) (L : Shelf → List Nat) : Prop :=
  ∀ c n, N c = some n → Binned L c → ¬ Binned L (c + n)

/-! ## Chunks in hand -/

/-- The chunks from `b` up to `e` are in no list. -/
structure InHand (N : Nat → Option Nat) (L : Shelf → List Nat) (b e : Nat) : Prop where
  tiles : ∃ l, Tiles N b e l
  lt : b < e
  out : ∀ c, b ≤ c → c < e → ∀ sh, c ∉ L sh

namespace InHand
variable {mapped : Nat → Bool} {mem : Nat → Nat} {base : Nat} {fast : Nat → Nat}
  {N : Nat → Option Nat} {L L' : Shelf → List Nat} {b c e m n : Nat}

theorem sub (h : InHand N L b e) (hsub : ∀ sh c, c ∈ L' sh → c ∈ L sh) : InHand N L' b e :=
  ⟨h.tiles, h.lt, fun c h1 h2 sh hm => h.out c h1 h2 sh (hsub sh c hm)⟩

theorem single (h : FreeLists mapped mem base fast N L) (hc : N c = some n) (hout : ∀ sh, c ∉ L sh) :
    InHand N L c (c + n) := by
  have hch := h.chunk c n hc
  refine ⟨⟨[c], rfl, n, hc, by omega, rfl⟩, by omega, fun x h1 h2 sh hm => ?_⟩
  obtain ⟨-, m, hx⟩ := h.listed sh x hm
  rcases Nat.eq_or_lt_of_le h1 with rfl | hlt
  · exact hout sh hm
  · have := h.apart c n x m hc hx hlt
    omega

theorem append {m : Nat} (h : InHand N L b m) (h' : InHand N L m e) : InHand N L b e := by
  obtain ⟨l, hl⟩ := h.tiles
  obtain ⟨l', hl'⟩ := h'.tiles
  refine ⟨⟨l ++ l', hl.append hl'⟩, h.lt.trans h'.lt, fun c h1 h2 => ?_⟩
  rcases Nat.lt_or_ge c m with hc | hc
  · exact h.out c h1 hc
  · exact h'.out c hc h2

theorem first (h : InHand N L b e) : ∃ n, N b = some n ∧ b + n ≤ e := by
  obtain ⟨l, hl⟩ := h.tiles
  cases l with
  | nil =>
    obtain rfl : b = e := hl
    exact absurd h.lt (Nat.lt_irrefl b)
  | cons x l =>
    obtain ⟨-, n, hn, -, htl⟩ := hl
    exact ⟨n, hn, htl.le⟩

theorem last (h : InHand N L b e) : ∃ c n, N c = some n ∧ b ≤ c ∧ c + n = e := by
  obtain ⟨l, hl⟩ := h.tiles
  have hlt := h.lt
  clear h
  induction l generalizing b with
  | nil =>
    obtain rfl : b = e := hl
    exact absurd hlt (Nat.lt_irrefl b)
  | cons x l ih =>
    obtain ⟨-, n, hn, hpos, htl⟩ := hl
    rcases Nat.eq_or_lt_of_le htl.le with heq | hlt'
    · exact ⟨b, n, hn, Nat.le_refl b, heq⟩
    · obtain ⟨c, m, hc, hle, hend⟩ := ih htl hlt'
      exact ⟨c, m, hc, by omega, hend⟩

theorem ends (hh : InHand N L b e) (h : FreeLists mapped mem base fast N L) (hc : N c = some n)
    (hout : c < b ∨ e ≤ c) : c + n ≤ b ∨ e ≤ c := by
  rcases hout with hlt | hle
  · obtain ⟨m, hm, -⟩ := hh.first
    exact .inl (h.apart c n b m hc hm hlt)
  · exact .inr hle

theorem span (hh : InHand N L b e) (h : FreeLists mapped mem base fast N L) :
    (∀ a, b ≤ a → a ≤ e + 8 → mapped a = true) ∧ (e + 16 ≤ base ∨ base + 2168 ≤ b) := by
  obtain ⟨l, hl⟩ := hh.tiles
  have hlt := hh.lt
  clear hh
  induction l generalizing b with
  | nil =>
    obtain rfl : b = e := hl
    exact absurd hlt (Nat.lt_irrefl b)
  | cons x l ih =>
    obtain ⟨-, n, hn, hpos, htl⟩ := hl
    have hoff := h.off b n hn
    have hw := h.words b n hn
    rcases Nat.eq_or_lt_of_le htl.le with rfl | hlt'
    · exact ⟨hw, hoff⟩
    · obtain ⟨hmap, hside⟩ := ih htl hlt'
      refine ⟨fun a h1 h2 => ?_, by omega⟩
      rcases Nat.lt_or_ge a (b + n) with ha | ha
      · exact hw a h1 (by omega)
      · exact hmap a ha h2

theorem bounds (hh : InHand N L b e) (h : FreeLists mapped mem base fast N L) :
    b + 32 ≤ e ∧ 16 ∣ b ∧ 16 ∣ e ∧ 0 < b ∧ e < 2^63 := by
  obtain ⟨n, hn, hle⟩ := hh.first
  obtain ⟨c, m, hc, -, rfl⟩ := hh.last
  have h1 := h.chunk b n hn
  have h2 := h.chunk c m hc
  omega

end InHand

/-! ## The merged chunk -/

section merged
variable {mapped : Nat → Bool} {mem mem' : Nat → Nat} {base : Nat} {fast : Nat → Nat}
  {N : Nat → Option Nat} {L L' : Shelf → List Nat} {b c e n : Nat}

theorem FreeLists.merge (h : FreeLists mapped mem base fast N L) (hh : InHand N L b e)
    (hoff : ∀ a, ¬ OffLinks base L a → mem' a = mem a) (hself : sizeBits (mem' (b + 8)) = e - b)
    (hhead : ∀ c n, N c = some n → c < b ∨ e ≤ c → sizeBits (mem' (c + 8)) = n) :
    FreeLists mapped mem' base fast (merge N b e) L := by
  have hlt := hh.lt
  obtain ⟨hmap, hside⟩ := hh.span h
  have hb := hh.bounds h
  refine h.retag hoff (fun c n hc => ?_) (fun c n d m hc hd hcd => ?_) (fun c n hc => ?_) (fun c n hc => ?_)
    (fun c n hc => ?_) (fun sh c hc => ?_)
  · rcases merge_cases hc with ⟨rfl, rfl⟩ | ⟨-, hc⟩
    · omega
    · exact h.chunk c n hc
  · rcases merge_cases hc with ⟨rfl, rfl⟩ | ⟨hc', hcN⟩ <;> rcases merge_cases hd with ⟨rfl, rfl⟩ | ⟨hd', hdN⟩
    · omega
    · omega
    · have := hh.ends h hcN hc'
      omega
    · exact h.apart c n d m hcN hdN hcd
  · rcases merge_cases hc with ⟨rfl, rfl⟩ | ⟨-, hc⟩
    · intro a h1 h2
      exact hmap a h1 (by omega)
    · exact h.words c n hc
  · rcases merge_cases hc with ⟨rfl, rfl⟩ | ⟨hc', hc⟩
    · exact hself
    · exact hhead c n hc hc'
  · rcases merge_cases hc with ⟨rfl, rfl⟩ | ⟨-, hc⟩
    · omega
    · exact h.off c n hc
  · obtain ⟨-, n, hn⟩ := h.listed sh c hc
    refine ⟨n, (merge_of_out hlt ?_).trans hn⟩
    by_contra hin
    exact hh.out c (by omega) (by omega) sh hc

/-- The words that change when the chunk from `b` up to `e` becomes one and is put in a list. -/
def Rewrites (base : Nat) (L : Shelf → List Nat) (b e : Nat) (mem mem' : Nat → Nat) : Prop :=
  ∀ a, OffLinks base L a → a ≠ b + 8 → a ≠ b + 16 → a ≠ b + 24 → a ≠ e → a ≠ e + 8 → mem' a = mem a

theorem Tag.kept (ht : Tag mem L c n) (h : FreeLists mapped mem base fast N L) (hh : InHand N L b e)
    (hw : Rewrites base L b e mem mem') (hb : ¬ Clear (mem' (b + 8)))
    (hbefore : c + n = b → ¬ Binned L c) (hbin : Binned L' c ↔ Binned L c) (hc : N c = some n)
    (hout : c < b ∨ e ≤ c) : Tag mem' L' c n := by
  obtain ⟨-, hfoot, hbit⟩ := h.offLinks_head hc
  have hends := hh.ends h hc hout
  have hbd := hh.bounds h
  have hch := h.chunk c n hc
  have hsame : mem' (c + n) = mem (c + n) := hw _ hfoot (by omega) (by omega) (by omega) (by omega) (by omega)
  refine ⟨?_, fun hm => ?_⟩
  · rw [hbin]
    by_cases heq : c + n = b
    · rw [heq]
      exact ⟨fun hclear => absurd hclear hb, fun hm => absurd hm (hbefore heq)⟩
    · rw [hw _ hbit (by omega) (by omega) (by omega) (by omega) (by omega)]
      exact ht.bit
  · rw [hsame]
    exact ht.foot (hbin.mp hm)

theorem front_kept (h : FreeLists mapped mem base fast N L) (hh : InHand N L b e)
    (hw : Rewrites base L b e mem mem') (hb : ¬ Clear (mem' (b + 8)))
    (hfront : ∀ c n, N c = some n → Foremost N c → ¬ Clear (mem (c + 8)))
    (hc : merge N b e c = some n) (hfore : Foremost (merge N b e) c) : ¬ Clear (mem' (c + 8)) := by
  have hbd := hh.bounds h
  rcases merge_cases hc with ⟨rfl, rfl⟩ | ⟨hout, hc⟩
  · exact hb
  · have hne : c ≠ e := fun heq => hfore b (e - b) merge_self (by omega)
    have hch := h.chunk c n hc
    rw [hw _ (h.offLinks_head hc).1 (by omega) (by omega) (by omega) (by omega) (by omega)]
    refine hfront c n hc fun d m hd hend => ?_
    -- a chunk that ends at `c` is none of the run, so it is still there
    have hdout : d < b ∨ e ≤ d := by
      by_contra hin
      obtain ⟨x, k, hx, -, hxe⟩ := hh.last
      rcases Nat.lt_trichotomy d x with hlt | rfl | hlt
      · have := h.apart d m x k hd hx hlt
        omega
      · rw [hx] at hd
        have := Option.some.inj hd
        omega
      · have := h.apart x k d m hx hd hlt
        omega
    exact hfore d m ((merge_of_out hh.lt hdout).trans hd) hend

theorem Laid.merge {heaps : List Heap} (hl : Laid heaps (chunks N)) (h : FreeLists mapped mem base fast N L)
    (hh : InHand N L b e) : Laid heaps (chunks (MyMalloc.merge N b e)) := by
  have hlt := hh.lt
  obtain ⟨m, hm, hmle⟩ := hh.first
  obtain ⟨run, hrun⟩ := hh.tiles
  have hbd := hh.bounds h
  obtain ⟨H, hH, l, ht, hbl⟩ := hl.placed b _ (chunks_some hm)
  rw [chunks_len] at ht
  obtain ⟨_, -, hmpos, hlow, hup⟩ := ht.bounds hbl
  have hfence : N H.fence = none := by
    cases hf : N H.fence with
    | none => rfl
    | some n =>
      have hf32 := (h.chunk _ n hf).1
      rcases hl.off_fence (chunks_some hf) hH with hle | hle
      · dsimp only at hle
        omega
      · omega
  obtain ⟨-, l₂, -, -, hfrom⟩ := ht.split hbl
  obtain ⟨l₃, hrest⟩ := hfrom.rest hrun hfence
  have hle := hrest.le
  have hcells : ∀ x ∈ l₃, e ≤ x := fun x hx => by
    obtain ⟨_, -, -, hx, -⟩ := hrest.bounds hx
    exact hx
  have hnew : Tiles (chunks (MyMalloc.merge N b e)).len b H.fence (b :: l₃) := by
    rw [chunks_len]
    refine ⟨rfl, e - b, merge_self, by omega, ?_⟩
    rw [Nat.add_sub_cancel' hlt.le]
    exact hrest.congr fun x hx => merge_of_out hlt (.inr (hcells x hx))
  refine hl.relay hH (chunks_some hm) hlow (by omega) (fun x hx => ?_) hnew (fun x h1 h2 hx => ?_)
    (fun x hx bx hbx => ?_)
  · rw [chunks, chunks, merge_of_out hlt (by omega)]
  · obtain ⟨bx, hbx⟩ := Option.ne_none_iff_exists'.mp hx
    rcases merge_cases (exists_of_chunks hbx) with ⟨rfl, -⟩ | ⟨hout, hxN⟩
    · exact List.mem_cons_self
    · refine List.mem_cons_of_mem _ (hrest.mem_of_apart (fun c n hc hcx => ?_) (by omega) h2)
      exact h.apart c n x _ hc hxN hcx
  · rcases merge_cases (exists_of_chunks hbx) with ⟨rfl, hsize⟩ | ⟨-, hxN⟩
    · omega
    · have := h.chunk x _ hxN
      exact ⟨this.1, this.2.1⟩

end merged

/-! ## What a step keeps -/

/-- What no step of a merge changes. -/
structure Kept (k : Nat) (s s' : State τ) : Prop where
  regions : s'.regions = s.regions
  heaps : s'.heaps = s.heaps
  base : (s'.arena k).base = (s.arena k).base
  fast : (s'.arena k).fast = (s.arena k).fast

namespace Kept
variable {k : Nat} {s s' s'' : State τ}

theorem refl (s : State τ) : Kept k s s := ⟨rfl, rfl, rfl, rfl⟩

theorem trans (h : Kept k s s') (h' : Kept k s' s'') : Kept k s s'' :=
  ⟨h'.regions.trans h.regions, h'.heaps.trans h.heaps, h'.base.trans h.base, h'.fast.trans h.fast⟩

theorem mapped (h : Kept k s s') : s'.mapped = s.mapped := by
  funext a
  unfold State.mapped
  rw [h.regions]

theorem heapsOf (h : Kept k s s') : s'.heapsOf k = s.heapsOf k := by
  unfold State.heapsOf
  rw [h.heaps]

theorem lists {mem : Nat → Nat} {N : Nat → Option Nat} {L : Shelf → List Nat} (h : Kept k s s')
    (hl : FreeLists s.mapped mem (s.arena k).base (s.arena k).fast N L) (hmem : s'.mem = mem) : s'.Lists k N L := by
  unfold State.Lists
  rw [h.mapped, hmem, h.base, h.fast]
  exact hl

end Kept

theorem forgetRemainder_run (k p : Nat) (s : State τ) :
    ∃ s', forgetRemainder k p s = some ((), s') ∧ Kept k s s' ∧ (s'.arena k).top = (s.arena k).top ∧
      s'.mem = s.mem := by
  have hav : getArenaRec k s = some (s.arena k, s) := rfl
  unfold forgetRemainder
  rw [bind_run hav]
  split
  · refine ⟨_, rfl, ⟨rfl, rfl, ?_, ?_⟩, ?_, rfl⟩ <;> simp only [Function.update_self]
  · exact ⟨s, rfl, .refl s, rfl, rfl⟩

/-! ## Unlinking a neighbour -/

/-- The chunks, which of them are in bins, and the top chunk. -/
def cellsOf (N : Nat → Option Nat) (L : Shelf → List Nat) (top : Nat) : MyMalloc.Cells := ⟨N, Binned L, top⟩

/-- The lists without the chunk `p`. -/
def without (L : Shelf → List Nat) (p : Nat) : Shelf → List Nat := fun sh =>
  (L sh).filter (fun c => decide (c ≠ p))

section
variable {L : Shelf → List Nat} {c p : Nat} {sh : Shelf}

theorem mem_without : c ∈ without L p sh ↔ c ∈ L sh ∧ c ≠ p := by
  rw [without, List.mem_filter, decide_eq_true_eq]

theorem binned_without : Binned (without L p) c ↔ Binned L c ∧ c ≠ p := by
  unfold Binned
  simp only [mem_without, exists_and_right]

theorem without_eq_self (h : ∀ sh, p ∉ L sh) : without L p = L := by
  funext sh
  rw [without, List.filter_eq_self]
  exact fun c hc => decide_eq_true fun e => h sh (e ▸ hc)

theorem not_listed_without : p ∉ without L p sh := fun h => (mem_without.mp h).2 rfl

end

theorem FreeLists.remove {mapped : Nat → Bool} {mem : Nat → Nat} {base i p : Nat} {fast : Nat → Nat}
    {N : Nat → Option Nat} {L : Shelf → List Nat} (h : FreeLists mapped mem base fast N L)
    (hp : p ∈ L (.bin i)) : FreeLists mapped (unlinkMem mem p) base fast N (without L p) := by
  obtain ⟨l₁, l₂, hl⟩ := List.append_of_mem hp
  have heq : without L p = Words.remove L p := by
    funext sh
    rw [without, Words.remove, (h.nodup sh).erase_eq_filter]
    exact List.filter_congr fun c _ => decide_not
  rw [heq, h.remove_eq hl]
  exact h.unlink hl

section steps
variable {P Q : Nat → Nat → Prop} {s s' : State τ} {k : Nat} {N : Nat → Option Nat} {L : Shelf → List Nat}
  {b c e f i m n p : Nat}

theorem TagsOn.remove (h : TagsOn P s k N L) (hp : p ∈ L (.bin i)) (hk : Kept k s s')
    (htop : (s'.arena k).top = (s.arena k).top) (hmem : s'.mem = unlinkMem s.mem p) :
    TagsOn (fun c n => P c n ∧ c ≠ p) s' k N (without L p) := by
  have hoff : ∀ a, OffLinks (s.arena k).base L a → s'.mem a = s.mem a := fun a ha => by
    rw [hmem]
    exact h.lists.unlinkMem_off hp ha
  refine ⟨hk.lists (h.lists.remove hp) hmem, ?_, ?_, fun c n hc hfore => ?_, fun c n hc hP => ?_⟩
  · rw [hk.heapsOf]
    exact h.laid
  · rw [htop]
    exact h.top.imp_right fun ⟨hn, hout⟩ => ⟨hn, fun sh hm => hout sh (mem_without.mp hm).1⟩
  · rw [hoff _ (h.lists.offLinks_head hc).1]
    exact h.front c n hc hfore
  · obtain ⟨-, hfoot, hbit⟩ := h.lists.offLinks_head hc
    have ht := h.tag c n hc hP.1
    refine ⟨?_, fun hb => ?_⟩
    · rw [hoff _ hbit, binned_without, and_iff_left hP.2]
      exact ht.bit
    · rw [hoff _ hfoot]
      exact ht.foot (binned_without.mp hb).1

/-- `unlink_free_chunk` of a chunk in a bin, with `last_remainder` kept right. -/
theorem TagsOn.takeNeighbour_run (h : TagsOn P s k N L) (hp : p ∈ L (.bin i)) :
    ∃ s₁ s₂, unlinkFreeChunk k p s = some (true, s₁) ∧ forgetRemainder k p s₁ = some ((), s₂) ∧ Kept k s s₂ ∧
      (s₂.arena k).top = (s.arena k).top ∧ s₂.mem = unlinkMem s.mem p ∧
      TagsOn (fun c n => P c n ∧ c ≠ p) s₂ k N (without L p) := by
  obtain ⟨s₂, hrun, hk, htop, hmem⟩ := forgetRemainder_run k p { s with mem := unlinkMem s.mem p }
  have hk' : Kept k s s₂ := ⟨hk.regions, hk.heaps, hk.base, hk.fast⟩
  exact ⟨_, s₂, h.lists.unlinkFreeChunk_run hp, hrun, hk', htop, hmem, h.remove hp hk' htop hmem⟩

theorem TagsOn.mergeNext_run (h : TagsOn P s k N L) (c psize : Nat) (hp : p ∈ L (.bin i)) (hn : N p = some n) :
    ∃ s', mergeNext k c psize p s = some (psize + n, s') ∧ Kept k s s' ∧
      (s'.arena k).top = (s.arena k).top ∧ s'.mem = unlinkMem s.mem p ∧
      TagsOn (fun c n => P c n ∧ c ≠ p) s' k N (without L p) := by
  obtain ⟨s₁, s₂, hrun₁, hrun₂, hrest⟩ := h.takeNeighbour_run hp
  have hsize := chunkSize_of (h.lists.words p n hn (p + 8) (by omega) (by omega)) (h.lists.head p n hn)
  refine ⟨s₂, ?_, hrest⟩
  unfold mergeNext
  rw [bind_run hsize, bind_run hrun₁, if_pos rfl, bind_run hrun₂]
  rfl

/-- The merge of the chunks in hand with the one before, which is taken out of its bin if it is in one. -/
theorem TagsOn.mergeBackward_run (h : TagsOn P s k N L) (hh : InHand N L p e)
    (hP : ∀ b m, N b = some m → b + m = p → P b m) :
    ∃ b s', mergeBackward k p (e - p) s = some ((b, e - b), s') ∧ Kept k s s' ∧
      (s'.arena k).top = (s.arena k).top ∧ (∀ a, OffLinks (s.arena k).base L a → s'.mem a = s.mem a) ∧
      (cellsOf N L (s.arena k).top).From p b ∧ b ≤ p ∧ InHand N (without L b) b e ∧
      TagsOn (fun c n => P c n ∧ c ≠ b) s' k N (without L b) := by
  obtain ⟨n, hp, -⟩ := hh.first
  have hlt := hh.lt
  have hw := h.lists.words p n hp
  have hinuse := prevInuse_of (s := s) (hw (p + 8) (by omega) (by omega))
  by_cases hclear : Clear (s.mem (p + 8))
  · -- some chunk ends here, and it is in a bin
    have hpred : ∃ b m, N b = some m ∧ b + m = p := by
      by_contra hno
      push Not at hno
      exact h.front p n hp (fun b m hb => hno b m hb) hclear
    obtain ⟨b, m, hb, rfl⟩ := hpred
    have ht := h.tag b m hb (hP b m hb rfl)
    obtain ⟨i, hi⟩ := ht.bit.mp hclear
    have hfoot := ht.foot ⟨i, hi⟩
    have hch := h.lists.chunk b m hb
    obtain ⟨s₁, s₂, hrun₁, hrun₂, hk, htop, hmem, h'⟩ := h.takeNeighbour_run hi
    have hload : load (b + m) s = some (m, s) := by
      rw [load_run (hw _ (Nat.le_refl _) (by omega)), hfoot]
    have hsize : chunkSize (b + m - m) s = some (m, s) := by
      rw [Nat.add_sub_cancel]
      exact chunkSize_of (h.lists.words b m hb (b + 8) (by omega) (by omega)) (h.lists.head b m hb)
    have hmin : minsize = 32 := rfl
    have hsum : e - (b + m) + m = e - b := by omega
    refine ⟨b, s₂, ?_, hk, htop, fun a ha => ?_, .before hb rfl ⟨i, hi⟩, Nat.le_add_right b m, ?_, h'⟩
    · unfold mergeBackward
      rw [bind_run hinuse, if_neg (by simp [hclear]), bind_run hload, if_neg (by omega), bind_run hsize,
        if_neg (by simp), Nat.add_sub_cancel, bind_run hrun₁, if_pos rfl, bind_run hrun₂, hsum]
      rfl
    · rw [hmem]
      exact h.lists.unlinkMem_off hi ha
    · have hone : InHand N (without L b) b (b + m) := .single h'.lists hb fun sh => not_listed_without
      exact hone.append (hh.sub fun sh c hc => (mem_without.mp hc).1)
  · have hself := without_eq_self (hh.out p (Nat.le_refl p) hlt)
    refine ⟨p, s, ?_, .refl s, rfl, fun a _ => rfl, .alone fun b m hb hend hm => hclear ?_, Nat.le_refl p,
      hself.symm ▸ hh, hself.symm ▸ h.mono fun c n _ hc => hc.1⟩
    · unfold mergeBackward
      rw [bind_run hinuse, if_pos (by simp [hclear])]
      rfl
    · subst hend
      exact ((h.tag b m hb (hP b m hb rfl)).bit).mpr hm

/-- What the chunks in hand start with is in no fastbin. -/
theorem FreeLists.from_not_fast {mapped : Nat → Bool} {mem : Nat → Nat} {base top : Nat} {fast : Nat → Nat}
    (h : FreeLists mapped mem base fast N L) (hp : p ∉ L (.fast i)) (hfrom : (cellsOf N L top).From p b) :
    b ∉ L (.fast i) := by
  cases hfrom with
  | alone _ => exact hp
  | before _ _ hbin =>
    obtain ⟨j, hj⟩ := hbin
    intro hm
    cases h.once _ _ b hm hj

/-- The lists with `p` in front of the unsorted bin. -/
def unsort (L : Shelf → List Nat) (p : Nat) : Shelf → List Nat :=
  Function.update L (.bin unsortedBinIdx) (p :: L (.bin unsortedBinIdx))

theorem mem_unsort {sh : Shelf} : c ∈ unsort L p sh ↔ c ∈ L sh ∨ c = p ∧ sh = .bin unsortedBinIdx := by
  unfold unsort
  by_cases hsh : sh = .bin unsortedBinIdx
  · subst hsh
    rw [Function.update_self, List.mem_cons]
    tauto
  · rw [Function.update_of_ne hsh]
    tauto

theorem binned_unsort (hne : c ≠ p) : Binned (unsort L p) c ↔ Binned L c :=
  exists_congr fun _ => mem_unsort.trans ⟨fun h => h.resolve_right fun h => hne h.1, .inl⟩

theorem binned_unsort_self : Binned (unsort L p) p := ⟨unsortedBinIdx, mem_unsort.mpr (.inr ⟨rfl, rfl⟩)⟩

/-- Memory with the header and the foot of the merged chunk, and the bit behind it cleared. -/
def closeMem (mem : Nat → Nat) (b e f : Nat) : Nat → Nat :=
  Function.update (Function.update (Function.update mem (b + 8) ((e - b) ||| f)) e (e - b)) (e + 8)
    (maskOff (mem (e + 8)) prevInuseBit)

theorem FreeLists.close {mapped : Nat → Bool} {mem : Nat → Nat} {base : Nat} {fast : Nat → Nat}
    (h : FreeLists mapped mem base fast N L) (hh : InHand N L b e) (hf : f < 8) :
    FreeLists mapped (closeMem mem b e f) base fast (MyMalloc.merge N b e) L := by
  have hbd := hh.bounds h
  obtain ⟨m, hm, -⟩ := hh.first
  obtain ⟨x, n, hx, -, hxe⟩ := hh.last
  obtain ⟨-, hoff1, hoff2⟩ := h.offLinks_head hx
  rw [hxe] at hoff1 hoff2
  refine h.merge hh (fun a ha => ?_) ?_ (fun c n hc hout => ?_)
  · unfold closeMem
    rw [OffLinks.update hoff2 ha, OffLinks.update hoff1 ha, OffLinks.update (h.offLinks_head hm).1 ha]
  · unfold closeMem
    rw [Function.update_of_ne (by omega), Function.update_of_ne (by omega), Function.update_self]
    exact sizeBits_or (by omega) (by omega) hf
  · have hch := h.chunk c n hc
    unfold closeMem
    by_cases hce : c = e
    · subst hce
      rw [Function.update_self, sizeBits_maskOff_prevInuse]
      exact h.head c n hc
    · rw [Function.update_of_ne (by omega), Function.update_of_ne (by omega), Function.update_of_ne (by omega)]
      exact h.head c n hc

theorem TagsOn.place_run (h : TagsOn P s k N L) (hh : InHand N L b e) (hf : f < 8) (hodd : f % 2 = 1)
    (htop : (s.arena k).top < b ∨ e ≤ (s.arena k).top)
    (hQ : ∀ c n, N c = some n → Q c n → c < b ∨ e ≤ c → P c n ∧ (c + n = b → ¬ Binned L c)) :
    ∃ s', placeUnsorted k b (e - b) f s = some ((), s') ∧ Kept k s s' ∧
      (s'.arena k).top = (s.arena k).top ∧ Rewrites (s.arena k).base L b e s.mem s'.mem ∧
      TagsOn Q s' k (merge N b e) (unsort L b) := by
  have hbd := hh.bounds h.lists
  have hlt := hh.lt
  obtain ⟨m, hm, -⟩ := hh.first
  obtain ⟨x, k', hx, -, hxe⟩ := hh.last
  obtain ⟨-, hoff1, hoff2⟩ := h.lists.offLinks_head hx
  rw [hxe] at hoff1 hoff2
  have hoff0 := (h.lists.offLinks_head hm).1
  obtain ⟨hmap, -⟩ := hh.span h.lists
  have h₁ : State.Lists { s with mem := closeMem s.mem b e f } k (merge N b e) L := h.lists.close hh hf
  have hnot : ∀ sh, b ∉ L sh := hh.out b (Nat.le_refl b) hlt
  -- what the link words do not change
  have hclose : ∀ a, OffLinks (s.arena k).base L a → a ≠ b + 16 → a ≠ b + 24 →
      pushMem (closeMem s.mem b e f) (sentinel (s.arena k).base unsortedBinIdx) b a = closeMem s.mem b e f a :=
    fun a ha h1 h2 => h₁.pushMem_off (by decide) (by decide) ha h1 h2
  have hw : Rewrites (s.arena k).base L b e s.mem
      (pushMem (closeMem s.mem b e f) (sentinel (s.arena k).base unsortedBinIdx) b) := by
    intro a ha h8 h16 h24 he he8
    rw [hclose a ha h16 h24, closeMem, Function.update_of_ne he8, Function.update_of_ne he, Function.update_of_ne h8]
  have hhead : ¬ Clear (pushMem (closeMem s.mem b e f) (sentinel (s.arena k).base unsortedBinIdx) b (b + 8)) := by
    rw [hclose _ hoff0 (by omega) (by omega), closeMem, Function.update_of_ne (by omega),
      Function.update_of_ne (by omega), Function.update_self]
    exact not_clear_or (by omega) hf hodd
  refine ⟨{ s with mem := pushMem (closeMem s.mem b e f) (sentinel (s.arena k).base unsortedBinIdx) b }, ?_,
    ⟨rfl, rfl, rfl, rfl⟩, rfl, hw, ?_⟩
  · have hadd : b + (e - b) = e := Nat.add_sub_cancel' hlt.le
    have hword : Function.update (Function.update s.mem (b + 8) ((e - b) ||| f)) e (e - b) (e + 8) = s.mem (e + 8) := by
      rw [Function.update_of_ne (by omega), Function.update_of_ne (by omega)]
    unfold placeUnsorted setHead setFoot
    rw [bind_run (store_run (hmap _ (by omega) (by omega))), hadd,
      bind_run (store_run (by exact hmap _ (by omega) (by omega))), if_pos (by omega),
      bind_run (load_run (by exact hmap _ (by omega) (by omega))),
      bind_run (store_run (by exact hmap _ (by omega) (by omega)))]
    change pushFront (sentinel (s.arena k).base unsortedBinIdx) b { s with mem := (Function.update _ (e + 8)
      (maskOff (Function.update (Function.update s.mem (b + 8) ((e - b) ||| f)) e (e - b) (e + 8)) prevInuseBit)) } = _
    rw [hword]
    exact h₁.pushFront_run (by decide) (by decide) merge_self
  · refine ⟨h₁.push (by decide) (by decide) merge_self hnot, h.laid.merge h.lists hh, ?_,
      fun c n hc hfore => front_kept h.lists hh hw hhead h.front hc hfore, fun c n hc hq => ?_⟩
    · refine h.top.imp_right fun ⟨⟨n, hn⟩, hout⟩ => ⟨⟨n, (merge_of_out hlt htop).trans hn⟩, fun sh hmem => ?_⟩
      rcases mem_unsort.mp hmem with hmem | ⟨heq, -⟩
      · exact hout sh hmem
      · dsimp only at heq
        omega
    · rcases merge_cases hc with ⟨rfl, rfl⟩ | ⟨hout, hcN⟩
      · have hadd : c + (e - c) = e := Nat.add_sub_cancel' hlt.le
        refine ⟨?_, fun _ => ?_⟩ <;> rw [hadd] <;> dsimp only
        · refine ⟨fun _ => binned_unsort_self, fun _ => ?_⟩
          rw [hclose _ hoff2 (by omega) (by omega), closeMem, Function.update_self]
          exact clear_maskOff _
        · rw [hclose _ hoff1 (by omega) (by omega), closeMem, Function.update_of_ne (by omega), Function.update_self]
      · obtain ⟨hP, hbefore⟩ := hQ c n hcN hq hout
        exact (h.tag c n hcN hP).kept h.lists hh hw hhead hbefore (binned_unsort (by omega)) hcN hout

/-- What the merge with the top chunk leaves. -/
def State.grow (s : State τ) (k b v : Nat) : State τ := { s with
  mem := Function.update s.mem (b + 8) v
  arena := Function.update s.arena k { s.arena k with top := b } }

theorem TagsOn.grow (h : TagsOn P s k N L) (hh : InHand N L b e) (hf : f < 8) (hodd : f % 2 = 1)
    (htop : (s.arena k).top = e) (hm : N e = some m)
    (hQ : ∀ c n, N c = some n → Q c n → c < b ∨ e + m ≤ c → P c n ∧ (c + n = b → ¬ Binned L c))
    (hQtop : Q b (e + m - b) → P e m) :
    InHand N L b (e + m) ∧ Kept k s (s.grow k b ((e - b + m) ||| f)) ∧
      Rewrites (s.arena k).base L b (e + m) s.mem (s.grow k b ((e - b + m) ||| f)).mem ∧
      TagsOn Q (s.grow k b ((e - b + m) ||| f)) k (merge N b (e + m)) L := by
  have hout : ∀ sh, e ∉ L sh := fun sh hm => h.top_ne hm htop
  have hrun := hh.append (InHand.single h.lists hm hout)
  have hbd := hrun.bounds h.lists
  have hlt := hrun.lt
  have hlt' := hh.lt
  obtain ⟨n₀, hn₀, -⟩ := hrun.first
  have hoff := (h.lists.offLinks_head hn₀).1
  have hsum : e - b + m = e + m - b := by omega
  have hw : Rewrites (s.arena k).base L b (e + m) s.mem (s.grow k b ((e - b + m) ||| f)).mem :=
    fun a _ h8 _ _ _ _ => Function.update_of_ne h8 _ _
  have hself : (s.grow k b ((e - b + m) ||| f)).mem (b + 8) = (e - b + m) ||| f := Function.update_self ..
  have hhead : ¬ Clear ((s.grow k b ((e - b + m) ||| f)).mem (b + 8)) := by
    rw [hself]
    exact not_clear_or (by omega) hf hodd
  have hk : Kept k s (s.grow k b ((e - b + m) ||| f)) := by
    refine ⟨rfl, rfl, ?_, ?_⟩ <;> simp only [State.grow, Function.update_self]
  have htop' : ((s.grow k b ((e - b + m) ||| f)).arena k).top = b := by
    simp only [State.grow, Function.update_self]
  refine ⟨hrun, hk, hw, hk.lists ?_ rfl, h.laid.merge h.lists hrun, ?_,
    fun c n hc hfore => front_kept h.lists hrun hw hhead h.front hc hfore, fun c n hc hq => ?_⟩
  · refine h.lists.merge hrun (fun a ha => OffLinks.update hoff ha) ?_ (fun c n hc hc' => ?_)
    · have hsize : sizeBits ((e - b + m) ||| f) = e - b + m := sizeBits_or (by omega) (by omega) hf
      rw [hself, hsize, hsum]
    · have hsame : (s.grow k b ((e - b + m) ||| f)).mem (c + 8) = s.mem (c + 8) :=
        Function.update_of_ne (by omega) _ _
      rw [hsame]
      exact h.lists.head c n hc
  · rw [htop']
    exact .inr ⟨⟨_, merge_self⟩, hrun.out b (Nat.le_refl b) hlt⟩
  · rcases merge_cases hc with ⟨rfl, rfl⟩ | ⟨hc', hcN⟩
    · have hadd : c + (e + m - c) = e + m := by omega
      have ht := h.tag e m hm (hQtop hq)
      have hnot : ¬ Binned L c := fun ⟨i, hi⟩ => hrun.out c (Nat.le_refl c) hlt _ hi
      have hnote : ¬ Binned L e := fun ⟨i, hi⟩ => hout _ hi
      refine ⟨?_, fun hb => absurd hb hnot⟩
      have hsame : (s.grow k c ((e - c + m) ||| f)).mem (e + m + 8) = s.mem (e + m + 8) :=
        Function.update_of_ne (by omega) _ _
      rw [hadd, hsame, ht.bit]
      exact ⟨fun hb => absurd hb hnote, fun hb => absurd hb hnot⟩
    · obtain ⟨hP, hbefore⟩ := hQ c n hcN hq hc'
      exact (h.tag c n hcN hP).kept h.lists hrun hw hhead hbefore Iff.rfl hcN hc'

end steps

/-! ## An arena with every kind of chunk -/

/-- Chunks of 64 bytes in one heap: one in a fastbin, one in the unsorted bin, one in use, and the top
    chunk. -/
def fourChunks : Nat → Option Nat := fun c =>
  if c = 1048624 ∨ c = 1048688 ∨ c = 1048752 ∨ c = 1048816 then some 64 else none

def fourLists : Shelf → List Nat :=
  Function.update (Function.update (fun _ => []) (.bin unsortedBinIdx) [1048688]) (.fast 2) [1048624]

def fourHeap : Heap := ⟨1048576, 65536, 0, 1048624, 1048880⟩

/-- The headers, and the foot of the chunk in the bin. -/
def fourTags : Nat → Nat := fun a =>
  if a = 1048632 ∨ a = 1048696 ∨ a = 1048824 then 65
  else if a = 1048752 ∨ a = 1048760 then 64
  else if a = 1048888 then 33
  else 0

def fourArena : State Unit where
  mem := pushMem (initBins 4096 fourTags) (sentinel 4096 unsortedBinIdx) 1048688
  regions := [⟨4096, 4096⟩, ⟨1048576, 65536⟩]
  mmapCalls := 2
  arena := fun _ => ⟨4096, 1048816, 0, Function.update (fun _ => 0) 2 1048624⟩
  narenas := 1
  heaps := [fourHeap]
  initialised := true
  mainLocked := false
  threadArena := fun _ => none
  tcache := fun _ => none
  mmapThreshold := 131072

theorem fourChunks_some {c n : Nat} (h : fourChunks c = some n) :
    n = 64 ∧ (c = 1048624 ∨ c = 1048688 ∨ c = 1048752 ∨ c = 1048816) := by
  unfold fourChunks at h
  split at h
  · next hc => exact ⟨(Option.some.inj h).symm, hc⟩
  · cases h

theorem mem_fourLists {sh : Shelf} {c : Nat} :
    c ∈ fourLists sh ↔ (sh = .fast 2 ∧ c = 1048624) ∨ (sh = .bin unsortedBinIdx ∧ c = 1048688) := by
  unfold fourLists
  by_cases h1 : sh = .fast 2
  · subst h1
    simp
  · by_cases h2 : sh = .bin unsortedBinIdx
    · subst h2
      simp
    · simp [h1, h2]

theorem binned_four {c : Nat} : Binned fourLists c ↔ c = 1048688 := by
  constructor
  · rintro ⟨i, hi⟩
    rcases mem_fourLists.mp hi with ⟨hsh, -⟩ | ⟨-, hc⟩
    · cases hsh
    · exact hc
  · rintro rfl
    exact ⟨unsortedBinIdx, mem_fourLists.mpr (.inr ⟨rfl, rfl⟩)⟩

theorem lists_four : fourArena.Lists 0 fourChunks fourLists := by
  have hmapped : ∀ a, (4096 ≤ a ∧ a + 8 ≤ 8192) ∨ (1048576 ≤ a ∧ a + 8 ≤ 1114112) →
      fourArena.mapped a = true := by
    intro a ha
    unfold State.mapped fourArena
    simp only [List.any_cons, List.any_nil, Bool.or_false, Bool.or_eq_true, decide_eq_true_eq]
    omega
  have hempty : FreeLists fourArena.mapped (initBins 4096 fourTags) 4096 (fun _ => 0) fourChunks (fun _ => []) := by
    refine .init (fun c n h => ?_) (fun c n d m h h' hlt => ?_) (fun c n h a h1 h2 => ?_) (fun c n h => ?_)
      (fun a h1 h2 => hmapped a (by omega)) (fun c n h => ?_)
    · have := fourChunks_some h
      omega
    · have h1 := fourChunks_some h
      have h2 := fourChunks_some h'
      omega
    · have := fourChunks_some h
      exact hmapped a (by omega)
    · obtain ⟨rfl, rfl | rfl | rfl | rfl⟩ := fourChunks_some h <;> decide
    · have := fourChunks_some h
      omega
  have hpush := hempty.push (i := unsortedBinIdx) (p := 1048688) (n := 64) (by decide) (by decide) rfl nofun
  have hout : ∀ sh, 1048624 ∉ Function.update (fun _ => []) (Shelf.bin unsortedBinIdx) [1048688] sh := fun sh hm => by
    rcases mem_update hm with ⟨-, hm⟩ | ⟨-, hm⟩ <;> simp at hm
  have hfast := hpush.pushFast (i := 2) (p := 1048624) (n := 64) (by decide) rfl hout
  rw [Function.update_eq_self_iff.mpr (by decide)] at hfast
  exact hfast

theorem laid_four : Laid (fourArena.heapsOf 0) (chunks fourChunks) := by
  have hheaps : fourArena.heapsOf 0 = [fourHeap] := rfl
  have htiles : Tiles fourChunks 1048624 1048880 [1048624, 1048688, 1048752, 1048816] :=
    ⟨rfl, 64, rfl, by decide, rfl, 64, rfl, by decide, rfl, 64, rfl, by decide, rfl, 64, rfl, by decide, rfl⟩
  rw [hheaps]
  refine ⟨fun h hh => ?_, List.pairwise_singleton _ _, fun h hh => ?_, fun c b hc => ?_, fun c b hc => ?_⟩
  · obtain rfl := List.mem_singleton.mp hh
    exact ⟨by decide, by decide, by decide, by decide, by decide⟩
  · obtain rfl := List.mem_singleton.mp hh
    rw [chunks_len]
    exact ⟨_, htiles⟩
  · obtain ⟨-, hc'⟩ := fourChunks_some (exists_of_chunks hc)
    rw [chunks_len]
    exact ⟨fourHeap, List.mem_singleton_self _, _, htiles, by simpa using hc'⟩
  · obtain ⟨hsize, -⟩ := fourChunks_some (exists_of_chunks hc)
    omega

theorem heapsOk_four : HeapsOk fourArena 0 fourChunks fourLists := by
  refine ⟨lists_four, laid_four, .inr ⟨⟨64, rfl⟩, fun sh hm => ?_⟩, fun c n hc hfore => ?_, fun c n hc _ => ?_⟩
  · have htop : (fourArena.arena 0).top = 1048816 := rfl
    rw [htop] at hm
    rcases mem_fourLists.mp hm with ⟨-, heq⟩ | ⟨-, heq⟩ <;> exact absurd heq (by decide)
  · -- only the first chunk has none before it
    obtain ⟨-, hcases⟩ := fourChunks_some hc
    rcases hcases with rfl | rfl | rfl | rfl
    · decide
    · exact absurd rfl (hfore 1048624 64 rfl)
    · exact absurd rfl (hfore 1048688 64 rfl)
    · exact absurd rfl (hfore 1048752 64 rfl)
  · obtain ⟨hn, hcases⟩ := fourChunks_some hc
    rw [hn]
    refine ⟨?_, fun hb => ?_⟩
    · rw [binned_four]
      rcases hcases with rfl | rfl | rfl | rfl <;> decide
    · rw [binned_four.mp hb]
      decide

end MyMalloc.Ptmalloc.Words
