import MyMalloc.Classic.Ptmalloc.Moves

/- The end of a heap, and new heaps.

   A block is cut from the top chunk, takes all of it, or grows into it; a heap is
   added with its top chunk, or with a block in front of it. In each case the end
   of one heap is laid out anew, and the memory of everything else stays. -/
namespace MyMalloc.Ptmalloc.Words

variable {τ : Type}

/-- Arena `k` with another top chunk. -/
def withTop (arena : Nat → Arena) (k top : Nat) : Nat → Arena :=
  Function.update arena k { arena k with top := top }

theorem arenas_withTop {mem : Nat → Nat} {regions : List Region} {heaps : List Heap}
    {arena : Nat → Arena} {narenas k top : Nat}
    (h : ∀ j < narenas, ArenaOk mem regions heaps (arena j)) :
    ∀ j < narenas, ArenaOk mem regions heaps (withTop arena k top j) := by
  intro j hj
  unfold withTop
  by_cases hjk : j = k
  · subst hjk
    rw [Function.update_self]
    exact ⟨(h j hj).home, (h j hj).bins, (h j hj).fast⟩
  · rw [Function.update_of_ne hjk]
    exact h j hj

theorem Tops.move {heaps heaps' : List Heap} {B B' : Blocks τ} {arena : Nat → Arena} {narenas k top : Nat}
    (h : Tops heaps B arena narenas) (hk : k < narenas) (hheaps : ∀ g ∈ heaps, g ∈ heaps')
    (hnew : top = 0 ∨ ∃ n, B' top = some ⟨n, .top k⟩ ∧ ∃ g ∈ heaps', top + n = g.fence)
    (hk' : ∀ x n, B' x = some ⟨n, .top k⟩ → x = top)
    (hother : ∀ x n j, j ≠ k → (B' x = some ⟨n, .top j⟩ ↔ B x = some ⟨n, .top j⟩)) :
    Tops heaps' B' (withTop arena k top) narenas where
  top j hj := by
    unfold withTop
    by_cases hjk : j = k
    · subst hjk
      rw [Function.update_self]
      exact hnew
    · rw [Function.update_of_ne hjk]
      rcases h.top j hj with h0 | ⟨n, hn, g, hg, heq⟩
      · exact Or.inl h0
      · exact Or.inr ⟨n, (hother _ n j hjk).mpr hn, g, hheaps g hg, heq⟩
  only x n j hx := by
    unfold withTop
    by_cases hjk : j = k
    · subst hjk
      rw [Function.update_self]
      exact ⟨hk, (hk' x n hx).symm⟩
    · rw [Function.update_of_ne hjk]
      exact h.only x n j ((hother x n j hjk).mp hx)

/-! ## Layouts of the end of a heap -/

/-- `new` from `c` to the fencepost, `B` elsewhere. -/
def recut (B : Blocks τ) (c fence : Nat) (new : Blocks τ) : Blocks τ :=
  fun x => if c ≤ x ∧ x < fence then new x else B x

/-- A block of `nb` bytes, and the rest as the top chunk of arena `k`. -/
def blockAndTop (c nb fence k : Nat) : Blocks τ := fun x =>
  if x = c then some ⟨nb, .live⟩
  else if x = c + nb then some ⟨fence - (c + nb), .top k⟩ else none

/-- One chunk. -/
def oneChunk (c fence : Nat) (st : Status τ) : Blocks τ := fun x =>
  if x = c then some ⟨fence - c, st⟩ else none

/-- What a layout of the end of a heap has to be: chunks in use and the top chunk of arena `k`, which is
    at `top` unless that is 0. -/
structure Lays (R : Regime) (mem : Nat → Nat) (c fence k top : Nat) (new : Blocks τ) (l : List Nat) : Prop where
  tiles : Tiles new.len c fence l
  cells : ∀ x b, new x = some b → x ∈ l
  sizes : ∀ x b, new x = some b → 32 ≤ b.size ∧ 16 ∣ b.size
  head : ∀ x b, new x = some b → Head mem x b.size
  status : ∀ x b, new x = some b → b.status = .live ∨ b.status = .top k
  ends : top = 0 ∨ ∃ n, new top = some ⟨n, .top k⟩ ∧ top + n = fence
  only : ∀ x n, new x = some ⟨n, .top k⟩ → x = top
  small : R.guarded = false → ∀ x b, new x = some b → (∀ j, b.status ≠ .top j) → b.size = 32 ∧ x + 32 < fence

section
variable {R : Regime} {mem : Nat → Nat} {B new : Blocks τ} {c nb fence k top x : Nat} {b : Block τ} {l : List Nat}

theorem recut_in (hlow : c ≤ x) (hup : x < fence) : recut B c fence new x = new x :=
  if_pos ⟨hlow, hup⟩

theorem recut_out (h : x < c ∨ fence ≤ x) : recut B c fence new x = B x := if_neg (by omega)

theorem recut_cases (h : recut B c fence new x = some b) :
    (c ≤ x ∧ x < fence ∧ new x = some b) ∨ ((x < c ∨ fence ≤ x) ∧ B x = some b) := by
  by_cases hx : c ≤ x ∧ x < fence
  · rw [recut_in hx.1 hx.2] at h
    exact .inl ⟨hx.1, hx.2, h⟩
  · rw [recut_out (by omega)] at h
    exact .inr ⟨by omega, h⟩

/-- A block that the new layout does not have, and that was not where it is. -/
theorem recut_iff (hnew : new x ≠ some b) (hold : B x = some b → x < c ∨ fence ≤ x) :
    recut B c fence new x = some b ↔ B x = some b := by
  constructor
  · intro h
    rcases recut_cases h with ⟨-, -, h⟩ | ⟨-, h⟩
    · exact absurd h hnew
    · exact h
  · intro h
    rw [recut_out (hold h)]
    exact h

theorem blockAndTop_block : blockAndTop (τ := τ) c nb fence k c = some ⟨nb, .live⟩ := if_pos rfl

theorem blockAndTop_top (hnb : 0 < nb) :
    blockAndTop (τ := τ) c nb fence k (c + nb) = some ⟨fence - (c + nb), .top k⟩ := by
  unfold blockAndTop
  rw [if_neg (by omega), if_pos rfl]

theorem blockAndTop_cases (h : blockAndTop c nb fence k x = some b) :
    (x = c ∧ b = ⟨nb, .live⟩) ∨ (x = c + nb ∧ b = ⟨fence - (c + nb), .top k⟩) := by
  unfold blockAndTop at h
  split at h
  · exact .inl ⟨‹_›, (Option.some.inj h).symm⟩
  · split at h
    · exact .inr ⟨‹_›, (Option.some.inj h).symm⟩
    · cases h

theorem lays_blockAndTop (hnb : 32 ≤ nb) (hd : 16 ∣ nb) (hroom : c + nb + 32 ≤ fence)
    (hdf : 16 ∣ fence - (c + nb)) (hmax : nb ≤ R.maxChunk) (hhead : Head mem c nb)
    (hhead' : Head mem (c + nb) (fence - (c + nb))) :
    Lays R mem c fence k (c + nb) (blockAndTop (τ := τ) c nb fence k) [c, c + nb] where
  tiles := by
    refine ⟨rfl, nb, Blocks.len_of blockAndTop_block, by omega, rfl, fence - (c + nb),
      Blocks.len_of (blockAndTop_top (by omega)), by omega, ?_⟩
    change c + nb + (fence - (c + nb)) = fence
    omega
  cells x b hx := by
    rcases blockAndTop_cases hx with ⟨rfl, -⟩ | ⟨rfl, -⟩ <;> simp
  sizes x b hx := by
    rcases blockAndTop_cases hx with ⟨-, rfl⟩ | ⟨-, rfl⟩
    · exact ⟨hnb, hd⟩
    · exact ⟨by dsimp only; omega, hdf⟩
  head x b hx := by
    rcases blockAndTop_cases hx with ⟨rfl, rfl⟩ | ⟨rfl, rfl⟩
    · exact hhead
    · exact hhead'
  status x b hx := by
    rcases blockAndTop_cases hx with ⟨-, rfl⟩ | ⟨-, rfl⟩
    · exact .inl rfl
    · exact .inr rfl
  ends := .inr ⟨_, blockAndTop_top (by omega), by omega⟩
  only x n hx := by
    rcases blockAndTop_cases hx with ⟨-, h⟩ | ⟨hx, -⟩
    · cases h
    · exact hx
  small hR x b hx hnt := by
    have h32 := (R.unguarded hR).1
    rcases blockAndTop_cases hx with ⟨rfl, rfl⟩ | ⟨-, rfl⟩
    · exact ⟨by dsimp only; omega, by omega⟩
    · exact absurd rfl (hnt k)

theorem oneChunk_self {st : Status τ} : oneChunk c fence st c = some ⟨fence - c, st⟩ := if_pos rfl

theorem oneChunk_cases {st : Status τ} (h : oneChunk c fence st x = some b) : x = c ∧ b = ⟨fence - c, st⟩ := by
  unfold oneChunk at h
  split at h
  · exact ⟨‹_›, (Option.some.inj h).symm⟩
  · cases h

theorem lays_oneChunk {st : Status τ} (hst : st = .live ∨ st = .top k) (hroom : c + 32 ≤ fence) (hd : 16 ∣ fence - c)
    (hhead : Head mem c (fence - c)) (htop : top = 0 ∨ (top = c ∧ st = .top k)) (honly : st = .top k → top = c)
    (hR : st = .live → R.guarded = true) : Lays R mem c fence k top (oneChunk c fence st) [c] where
  tiles := by
    refine ⟨rfl, fence - c, Blocks.len_of oneChunk_self, by omega, ?_⟩
    change c + (fence - c) = fence
    omega
  cells x b hx := List.mem_singleton.mpr (oneChunk_cases hx).1
  sizes x b hx := by
    obtain ⟨-, rfl⟩ := oneChunk_cases hx
    exact ⟨by dsimp only; omega, hd⟩
  head x b hx := by
    obtain ⟨rfl, rfl⟩ := oneChunk_cases hx
    exact hhead
  status x b hx := by
    obtain ⟨-, rfl⟩ := oneChunk_cases hx
    exact hst
  ends := by
    rcases htop with h0 | ⟨rfl, rfl⟩
    · exact .inl h0
    · exact .inr ⟨_, oneChunk_self, by omega⟩
  only x n hx := by
    obtain ⟨rfl, h⟩ := oneChunk_cases hx
    exact (honly (Block.mk.inj h).2.symm).symm
  small hg x b hx hnt := by
    obtain ⟨-, rfl⟩ := oneChunk_cases hx
    rcases hst with rfl | rfl
    · cases ((hR rfl).symm.trans hg)
    · exact absurd rfl (hnt k)

namespace Lays

variable (h : Lays R mem c fence k top new l)
include h

theorem inRange (hx : new x = some b) : c ≤ x ∧ x + b.size ≤ fence := by
  obtain ⟨n, hn, -, hlow, hup⟩ := h.tiles.bounds (h.cells x b hx)
  obtain rfl : b.size = n := Option.some.inj ((Blocks.len_of hx).symm.trans hn)
  exact ⟨hlow, hup⟩

theorem recut_tiles : Tiles (Blocks.len (recut B c fence new)) c fence l := by
  refine h.tiles.congr fun x hx => ?_
  obtain ⟨n, -, hpos, hlow, hup⟩ := h.tiles.bounds hx
  rw [Blocks.len, Blocks.len, recut_in hlow (by omega)]

theorem recut_cells (hlow : c ≤ x) (hup : x < fence)
    (hx : recut B c fence new x ≠ none) : x ∈ l := by
  obtain ⟨b, hb⟩ := Option.ne_none_iff_exists'.mp hx
  exact h.cells x b ((recut_in hlow hup).symm.trans hb)

theorem recut_sizes (hx : x ∈ l) (hb : recut B c fence new x = some b) :
    32 ≤ b.size ∧ 16 ∣ b.size := by
  obtain ⟨n, -, hpos, hlow, hup⟩ := h.tiles.bounds hx
  exact h.sizes x b ((recut_in hlow (by omega)).symm.trans hb)

/-- A layout has no other chunks than those in use and the top chunk. -/
theorem ne {n : Nat} {st : Status τ} (hlive : st ≠ .live) (htop : st ≠ .top k) :
    new x ≠ some ⟨n, st⟩ := fun hx => (h.status x _ hx).elim hlive htop

theorem ne_top {n j : Nat} (hj : j ≠ k) : new x ≠ some ⟨n, .top j⟩ :=
  h.ne nofun fun heq => hj (Status.top.inj heq)

theorem kept (hx : new x = some b) : b.status ≠ .lost := by
  rcases h.status x b hx with h | h <;> rw [h] <;> exact nofun

theorem recut_top :
    top = 0 ∨ ∃ n, recut B c fence new top = some ⟨n, .top k⟩ ∧ top + n = fence := by
  refine h.ends.imp_right fun ⟨n, hn, heq⟩ => ⟨n, ?_, heq⟩
  have hin := h.inRange hn
  have hsz := (h.sizes top _ hn).1
  dsimp only at hin hsz
  rw [recut_in hin.1 (by omega)]
  exact hn

end Lays

end

namespace Inv
variable {R : Regime} {s : State τ} {B new : Blocks τ} {L : τ → Nat → List Nat} {c k top : Nat} {l : List Nat}

/-- The end of a heap laid out anew from `c` on, by writes to the header of `c` and to what lies
    behind its first 32 bytes. -/
theorem relay (inv : Inv R s B L) {b : Block τ} {g : Heap} (hg : g ∈ s.heaps) (hc : B c = some b)
    (hlow : g.first ≤ c) (hup : c < g.fence) {mem' : Nat → Nat} (h : Lays R mem' c g.fence k top new l)
    (hcached : ∀ x n t i, B x = some ⟨n, .cached t i⟩ → x < c ∨ g.fence ≤ x)
    (hext : ∀ a, a ≠ c + 8 → a < c + 32 ∨ g.fence < a → mem' a = s.mem a) :
    Cells mem' s.heaps (recut B c g.fence new) ∧ Shelves mem' s.tcache (recut B c g.fence new) L ∧
      Within s.heaps s.mem mem' := by
  have hin := inv.cells.laid.inside hg
  have hcal := inv.cells.laid.aligned hc
  -- a block off the part that changes keeps its header and its first words
  have hoff : ∀ x b, B x = some b → x < c ∨ g.fence ≤ x →
      mem' (x + 8) = s.mem (x + 8) ∧ mem' (x + chunkHeader) = s.mem (x + chunkHeader) := by
    intro x bx hx hxc
    have h48 : chunkHeader = 48 := rfl
    have hal := inv.cells.laid.aligned hx
    have hsz := (inv.cells.laid.sizes x bx hx).1
    rcases hxc with hlt | hge
    · have hb := inv.cells.laid.before hx hc hlt
      exact ⟨hext _ (by omega) (by omega), hext _ (by omega) (by omega)⟩
    · exact ⟨hext _ (by omega) (by omega), hext _ (by omega) (by omega)⟩
  have hiff : ∀ x n t i, (recut B c g.fence new x = some ⟨n, .cached t i⟩ ↔ B x = some ⟨n, .cached t i⟩) :=
    fun x n t i => recut_iff (h.ne nofun nofun) (hcached x n t i)
  refine ⟨⟨?_, ?_, ?_⟩, ⟨?_, ?_, ?_, inv.shelves.count, inv.shelves.limit⟩, ?_⟩
  · exact inv.cells.laid.relay hg hc hlow hup (fun x hx => recut_out hx) h.recut_tiles
      (fun x h1 h2 => h.recut_cells h1 h2) (fun x hx b => h.recut_sizes hx)
  · intro x bx hx
    rcases recut_cases hx with ⟨-, -, hx⟩ | ⟨hout, hx⟩
    · exact h.head x bx hx
    · unfold Head
      rw [(hoff x bx hx hout).1]
      exact inv.cells.head x bx hx
  · intro g' hg'
    unfold Head
    rw [hext]
    · exact inv.cells.fence g' hg'
    · rcases inv.cells.laid.off_fence hc hg' with h | h
      · have := (inv.cells.laid.sizes c b hc).1
        omega
      · omega
    · by_contra hbad
      have hle := inv.cells.laid.first_le_fence hg'
      obtain rfl : g' = g := inv.cells.laid.heap_unique (a := g'.fence) hg' hg ⟨hle, Nat.le_refl _⟩
        ⟨by omega, by omega⟩
      omega
  · intro t i
    refine (inv.shelves.chain t i).congr (fun a ha => ?_)
    obtain ⟨x, hx, rfl⟩ := List.mem_map.mp ha
    obtain ⟨n, hn⟩ := (inv.shelves.mem_iff t i x).mp hx
    exact (hoff x _ hn (hcached x n t i hn)).2
  · intro t i x
    rw [inv.shelves.mem_iff t i x]
    exact exists_congr (fun n => (hiff x n t i).symm)
  · intro x n t i hx
    exact inv.shelves.size x n t i ((hiff x n t i).mp hx)
  · intro a ha
    have hna := ha g hg
    unfold Region.Has Heap.region at hna
    dsimp only at hna
    exact hext a (by omega) (by omega)

theorem top_heap (inv : Inv R s B L) (hk : k < s.narenas) (htop : (s.arena k).top ≠ 0) :
    ∃ m, B (s.arena k).top = some ⟨m, .top k⟩ ∧ ∃ g ∈ s.heaps, g.first ≤ (s.arena k).top ∧
      (s.arena k).top + m = g.fence := by
  obtain ⟨m, hm, g, hg, heq⟩ := (inv.tops.top k hk).resolve_left htop
  exact ⟨m, hm, g, hg, inv.cells.laid.first_le hm hg heq, heq⟩

theorem fence_of_top (inv : Inv R s B L) (hk : k < s.narenas) {m : Nat} (hm : B (s.arena k).top = some ⟨m, .top k⟩) :
    ∃ g ∈ s.heaps, g.first ≤ (s.arena k).top ∧ (s.arena k).top + m = g.fence := by
  obtain ⟨m', hm', hg⟩ := inv.top_heap hk (Nat.ne_of_gt (inv.cells.pos hm))
  obtain rfl : m' = m := (Block.mk.inj (Option.some.inj (hm'.symm.trans hm))).1
  exact hg

/-- The end of a heap with the top chunk of arena `k`, laid out anew with another top chunk. -/
theorem relayTop (inv : Inv R s B L) {b : Block τ} {g : Heap} (hg : g ∈ s.heaps) (hc : B c = some b)
    (hlow : g.first ≤ c) (hk : k < s.narenas)
    (hrest : ∀ x b, B x = some b → c ≤ x → x < g.fence → b.status = .live ∨ b.status = .top k)
    (htop : c ≤ (s.arena k).top ∧ (s.arena k).top < g.fence) {mem' : Nat → Nat}
    (h : Lays R mem' c g.fence k top new l)
    (hext : ∀ a, a ≠ c + 8 → a < c + 32 ∨ g.fence < a → mem' a = s.mem a) :
    Inv R { s with mem := mem', arena := withTop s.arena k top } (recut B c g.fence new) L := by
  -- a chunk that is neither in use nor the top chunk is off the part that changes
  have hold : ∀ x b, B x = some b → b.status ≠ .live → b.status ≠ .top k → x < c ∨ g.fence ≤ x := by
    intro x b hx h1 h2
    by_contra hbad
    exact (hrest x b hx (by omega) (by omega)).elim h1 h2
  obtain ⟨hC, hS, hW⟩ := inv.relay hg hc hlow (by omega) h (fun x n t i hx => hold x _ hx nofun nofun) hext
  refine
    { inv with
      cells := hC
      shelves := hS
      arenas := arenas_withTop (fun j hj => inv.arenas_frame hW hj)
      tops := inv.tops.move hk (fun _ h => h) ?_ ?_ ?_
      side := ⟨?_, ?_⟩ }
  · exact h.recut_top.imp id (fun ⟨n, hn, heq⟩ => ⟨n, hn, g, hg, heq⟩)
  · intro x n hx
    rcases recut_cases hx with ⟨-, -, hx⟩ | ⟨hout, hx⟩
    · exact h.only x n hx
    · have := (inv.tops.only x n k hx).2
      omega
  · intro x n j hj
    exact recut_iff (h.ne_top hj) (fun hx => hold x _ hx nofun fun heq => hj (Status.top.inj heq))
  · intro hR x b hx
    rcases recut_cases hx with ⟨-, -, hx⟩ | ⟨-, hx⟩
    · exact h.kept hx
    · exact inv.side.kept hR x b hx
  · intro hR x b hx hnt
    rcases recut_cases hx with ⟨hcx, -, hx⟩ | ⟨-, hx⟩
    · obtain ⟨h32, hlt⟩ := h.small hR x b hx hnt
      refine ⟨h32, fun g' hg' heq => ?_⟩
      have hle := inv.cells.laid.first_le_fence hg'
      obtain rfl : g' = g := inv.cells.laid.heap_unique (a := g'.fence) hg' hg ⟨hle, Nat.le_refl _⟩
        ⟨by omega, by omega⟩
      omega
    · exact inv.side.small hR x b hx hnt

end Inv

/-! ## New memory -/

theorem MapFits.apart {raw len : Nat} {regions : List Region} (h : MapFits raw len regions) :
    ∀ r ∈ regions, r.Apart ⟨raw, len⟩ := h.2.2.2.2

namespace Inv
variable {R : Regime} {s : State τ} {B new : Blocks τ} {L : τ → Nat → List Nat}

theorem addRegion (inv : Inv R s B L) {raw len : Nat} (hfit : MapFits raw len s.regions)
    {mem' : Nat → Nat} (hmem : ∀ a, a < raw ∨ raw + len ≤ a → mem' a = s.mem a) (calls : Nat) :
    Inv R { s with regions := ⟨raw, len⟩ :: s.regions, mem := mem', mmapCalls := calls } B L := by
  -- an address of a region of before keeps its value
  have hold : ∀ r ∈ s.regions, ∀ a, r.Has a → mem' a = s.mem a := by
    intro r hr a ha
    have hnot := (hfit.apart r hr).not_has ha
    unfold Region.Has at hnot
    dsimp only at hnot
    exact hmem a (by omega)
  refine
    { inv with
      regions := List.pairwise_cons.mpr ⟨fun r hr => (hfit.apart r hr).symm, inv.regions⟩
      homes := fun g hg => List.mem_cons_of_mem _ (inv.homes g hg)
      cells := inv.cells.frame ?_
      shelves := inv.shelves.frame ?_
      arenas := ?_ }
  · intro d hd
    rcases hd with ⟨b, hb⟩ | ⟨g, hg, rfl⟩
    · obtain ⟨g, hg, h1, h2⟩ := inv.block_has hb (a := d + 8) (by omega) (by omega)
      exact hold _ (inv.homes g hg) _ ⟨h1, by unfold Heap.region; dsimp only; omega⟩
    · have hf := inv.cells.laid.fits g hg
      have h1 := hf.first
      have h2 := hf.fence
      have h3 := inv.cells.laid.first_le_fence hg
      exact hold _ (inv.homes g hg) _ ⟨by unfold Heap.region; dsimp only; omega,
        by unfold Heap.region; dsimp only; omega⟩
  · intro t i c hc
    have h48 : chunkHeader = 48 := rfl
    obtain ⟨n, hn⟩ := (inv.shelves.mem_iff t i c).mp hc
    have hsz := (inv.cells.laid.sizes c _ hn).1
    obtain ⟨g, hg, h1, h2⟩ := inv.block_has hn (a := c + chunkHeader) (by omega)
      (by dsimp only at *; omega)
    exact hold _ (inv.homes g hg) _ ⟨h1, by unfold Heap.region; dsimp only; omega⟩
  · intro k hk
    obtain ⟨len', hlen, hin, hne⟩ := (inv.arenas k hk).home
    refine ⟨⟨len', hlen, List.mem_cons_of_mem _ hin, hne⟩, fun i hi => ?_, (inv.arenas k hk).fast⟩
    have h128 : nBins = 128 := rfl
    dsimp only
    rw [hold _ hin _ ⟨by dsimp only; unfold sentinel; omega, by dsimp only; unfold sentinel; omega⟩]
    exact (inv.arenas k hk).bins i hi

/-- A heap in memory that nothing else uses, with the first top chunk of its arena. -/
theorem addHeap (inv : Inv R s B L) {g : Heap} (hin : g.region ∈ s.regions) (hfits : g.Fits)
    (hap : ∀ g' ∈ s.heaps, g.region.Apart g'.region)
    (hbase : ∀ k < s.narenas, (s.arena k).base ≠ g.start) (howner : g.arena < s.narenas)
    (htop0 : (s.arena g.arena).top = 0) (hfence : Head s.mem g.fence 32) {l : List Nat} {top : Nat}
    (h : Lays R s.mem g.first g.fence g.arena top new l) :
    Inv R { s with heaps := g :: s.heaps, arena := withTop s.arena g.arena top }
      (recut B g.first g.fence new) L := by
  have hf1 := hfits.first
  have hf2 := hfits.fence
  have hle := h.tiles.le
  -- no block of before, and no fencepost, is in the new heap
  have hfences : ∀ g' ∈ s.heaps, g'.fence + 32 ≤ g.start ∨ g.start + g.size ≤ g'.first := by
    intro g' hg'
    have hin := inv.cells.laid.inside hg'
    rcases hap g' hg' with ha | ha <;> unfold Heap.region at ha <;> dsimp only at ha <;> omega
  have hfree : ∀ x b, B x = some b → x + 32 < g.start ∨ g.start + g.size ≤ x := by
    intro x b hx
    obtain ⟨g', hg', hlow, hup⟩ := inv.cells.laid.room hx
    have hsz := (inv.cells.laid.sizes x b hx).1
    have := hfences g' hg'
    omega
  have hold : ∀ x b, B x = some b → x < g.first ∨ g.fence ≤ x := by
    intro x b hx
    have := hfree x b hx
    omega
  have hiff : ∀ x n t i, (recut B g.first g.fence new x = some ⟨n, .cached t i⟩ ↔ B x = some ⟨n, .cached t i⟩) :=
    fun x n t i => recut_iff (h.ne nofun nofun) (hold x _)
  refine
    { inv with
      homes := List.forall_mem_cons.mpr ⟨hin, inv.homes⟩
      cells := ⟨inv.cells.laid.grow hfits hap (fun x hx => recut_out hx) h.recut_tiles
        (fun x h1 h2 => h.recut_cells h1 h2) (fun x hx b => h.recut_sizes hx), ?_,
        List.forall_mem_cons.mpr ⟨hfence, inv.cells.fence⟩⟩
      shelves := ⟨inv.shelves.chain, ?_, ?_, inv.shelves.count, inv.shelves.limit⟩
      arenas := arenas_withTop ?_
      tops := inv.tops.move howner (fun _ h => List.mem_cons_of_mem _ h) ?_ ?_ ?_
      side := ⟨?_, ?_⟩
      owners := List.forall_mem_cons.mpr ⟨howner, inv.owners⟩ }
  · intro x b hx
    rcases recut_cases hx with ⟨-, -, hx⟩ | ⟨-, hx⟩
    · exact h.head x b hx
    · exact inv.cells.head x b hx
  · intro t i x
    rw [inv.shelves.mem_iff t i x]
    exact exists_congr (fun n => (hiff x n t i).symm)
  · intro x n t i hx
    exact inv.shelves.size x n t i ((hiff x n t i).mp hx)
  · intro k hk
    obtain ⟨len, hlen, hr, hne⟩ := (inv.arenas k hk).home
    refine ⟨⟨len, hlen, hr, List.forall_mem_cons.mpr ⟨?_, hne⟩⟩, (inv.arenas k hk).bins, (inv.arenas k hk).fast⟩
    exact fun heq => hbase k hk (Region.mk.inj heq).1.symm
  · exact h.recut_top.imp id (fun ⟨n, hn, heq⟩ => ⟨n, hn, g, List.mem_cons_self, heq⟩)
  · intro x n hx
    rcases recut_cases hx with ⟨-, -, hx⟩ | ⟨-, hx⟩
    · exact h.only x n hx
    · have h0 := (inv.tops.only x n _ hx).2
      have hpos := inv.cells.pos hx
      omega
  · exact fun x n j hj => recut_iff (h.ne_top hj) (hold x _)
  · intro hR x b hx
    rcases recut_cases hx with ⟨-, -, hx⟩ | ⟨-, hx⟩
    · exact h.kept hx
    · exact inv.side.kept hR x b hx
  · intro hR x b hx hnt
    rcases recut_cases hx with ⟨h1, h2, hx⟩ | ⟨-, hx⟩
    · obtain ⟨h32, hlt⟩ := h.small hR x b hx hnt
      refine ⟨h32, List.forall_mem_cons.mpr ⟨by omega, fun g' hg' heq => ?_⟩⟩
      have := hfences g' hg'
      have := inv.cells.laid.inside hg'
      omega
    · obtain ⟨h32, hoff⟩ := inv.side.small hR x b hx hnt
      refine ⟨h32, List.forall_mem_cons.mpr ⟨?_, hoff⟩⟩
      have := hfree x b hx
      omega

/-- An arena in memory that nothing else uses, with empty bins and no top chunk. -/
theorem addArena (inv : Inv R s B L) {base len : Nat} (hlen : 2168 ≤ len)
    (hin : (⟨base, len⟩ : Region) ∈ s.regions) (hfree : ∀ g ∈ s.heaps, g.region ≠ ⟨base, len⟩)
    (hbins : ∀ i < nBins, s.mem (sentinel base i + 16) = sentinel base i) :
    Inv R { s with
      arena := Function.update s.arena s.narenas { noArena with base := base }
      narenas := s.narenas + 1 } B L := by
  have hold : ∀ k < s.narenas, Function.update s.arena s.narenas { noArena with base := base } k =
      s.arena k := fun k hk => Function.update_of_ne (by omega) _ _
  refine
    { inv with
      arenas := ?_
      tops := ⟨?_, ?_⟩
      owners := fun g hg => Nat.lt_succ_of_lt (inv.owners g hg)
      threads := fun t k ht => Nat.lt_succ_of_lt (inv.threads t k ht)
      main := Nat.succ_pos _ }
  · intro k hk
    dsimp only
    by_cases hkn : k = s.narenas
    · rw [hkn, Function.update_self]
      exact ⟨⟨len, hlen, hin, hfree⟩, hbins, fun _ => rfl⟩
    · have hlt : k < s.narenas := by dsimp only at hk; omega
      rw [hold k hlt]
      exact inv.arenas k hlt
  · intro k hk
    dsimp only
    by_cases hkn : k = s.narenas
    · rw [hkn, Function.update_self]
      exact Or.inl rfl
    · have hlt : k < s.narenas := by dsimp only at hk; omega
      rw [hold k hlt]
      exact inv.tops.top k hlt
  · intro c n k hc
    obtain ⟨hlt, heq⟩ := inv.tops.only c n k hc
    dsimp only
    rw [hold k hlt]
    exact ⟨Nat.lt_succ_of_lt hlt, heq⟩

end Inv

end MyMalloc.Ptmalloc.Words
