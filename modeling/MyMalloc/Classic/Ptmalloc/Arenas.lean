import MyMalloc.Classic.Ptmalloc.Serving

/- Arenas whose bins are empty: what strategies 3 to 7 do in one. -/
namespace MyMalloc.Ptmalloc.Words

open Exec

variable {τ : Type} {R : Regime} {s : State τ} {B : Blocks τ} {L : τ → Nat → List Nat} {k nb : Nat}

/-! ## Empty bins -/

namespace Inv

theorem mapped_bin (inv : Inv R s B L) (hk : k < s.narenas) {i : Nat} (hi : i < nBins) :
    s.mapped (sentinel (s.arena k).base i + 16) = true := by
  have h128 : nBins = 128 := rfl
  obtain ⟨len, hlen, hin, -⟩ := (inv.arenas k hk).home
  exact mapped_of_region hin (by unfold sentinel; dsimp only; omega)
    (by unfold sentinel; dsimp only; omega)

theorem binEmpty_run (inv : Inv R s B L) (hk : k < s.narenas) {i : Nat} (hi : i < nBins) :
    binEmpty (sentinel (s.arena k).base i) s = some (true, s) := by
  unfold binEmpty
  rw [bind_run (load_run (inv.mapped_bin hk hi)), (inv.arenas k hk).bins i hi]
  simp only [decide_true]
  rfl

theorem fromSmallbins_run (inv : Inv R s B L) (hk : k < s.narenas) (hnb : nb < minLargeSize) :
    fromSmallbins k nb s = some (none, s) := by
  have h1024 : minLargeSize = 1024 := rfl
  have h128 : nBins = 128 := rfl
  have h1 : unsortedBinIdx = 1 := rfl
  have hidx : smallbinIndex nb < 64 := by
    unfold smallbinIndex
    rw [Nat.shiftRight_eq_div_pow]
    omega
  have hbin : smallBin k (smallbinIndex nb) s =
      some (sentinel (s.arena k).base (unsortedBinIdx + 1 + smallbinIndex nb), s) := rfl
  have hrun : smallbinAlloc k (smallbinIndex nb) s = some (none, s) := by
    unfold smallbinAlloc
    rw [bind_run hbin, bind_run (inv.binEmpty_run hk (by omega)), if_pos rfl]
    rfl
  unfold fromSmallbins
  rw [if_neg (by omega), bind_run hrun]
  rfl

theorem fromUnsorted_run (inv : Inv R s B L) (hk : k < s.narenas) :
    fromUnsorted k nb s = some (none, s) := by
  have hfast : hasFastchunks k s = some (false, s) := by
    have hany : (List.range nFastbins).any (fun i => decide ((s.arena k).fast i ≠ 0)) = false := by
      rw [List.any_eq_false]
      intro i _
      rw [(inv.arenas k hk).fast i]
      decide
    change some ((List.range nFastbins).any (fun i => decide ((s.arena k).fast i ≠ 0)), s) = _
    rw [hany]
  have hbin : unsortedBin k s = some (sentinel (s.arena k).base unsortedBinIdx, s) := rfl
  unfold fromUnsorted
  rw [bind_run hfast, if_neg (by decide)]
  beta_reduce
  rw [gets_bind, State.walkLimit, bind_run hbin, bind_run (load_run (inv.mapped_bin hk (by decide))),
    (inv.arenas k hk).bins unsortedBinIdx (by decide)]
  unfold scanUnsorted
  rw [if_pos (Or.inl rfl)]
  rfl

end Inv

theorem fromLargebins_run (hnb : nb < minLargeSize) : fromLargebins k nb s = some (none, s) := by
  unfold fromLargebins
  rw [if_pos hnb]
  rfl

theorem orElse_none {α : Type} {x y : Exec (State τ) (Option α)} {s' : State τ}
    (hx : x s = some (none, s')) : orElse x y s = y s' := by
  unfold orElse
  rw [bind_run hx]

theorem orElse_some {α : Type} {x y : Exec (State τ) (Option α)} {s' : State τ} {a : α}
    (hx : x s = some (some a, s')) : orElse x y s = some (some a, s') := by
  unfold orElse
  rw [bind_run hx]
  rfl

/-! ## The top chunk -/

/-- A block at the start of what was the top chunk, by writes to its header and behind its first
    32 bytes. -/
theorem Outcome.of_recut {t : τ} {s' : State τ} {c m n : Nat} {new : Blocks τ} {g : Heap}
    (inv : Inv R s B L) (hc : B c = some ⟨m, .top k⟩) (hfence : c + m = g.fence)
    (hnew : new c = some ⟨n, .live⟩) (hn : nb ≤ n) (honly : ∀ x j, new x = some ⟨j, .live⟩ → x = c)
    (hhead : s'.mem (c + 8) ≠ 0)
    (hext : ∀ a, a ≠ c + 8 → a < c + 32 ∨ g.fence < a → s'.mem a = s.mem a)
    (hr : s'.regions = s.regions) (htc : s'.tcache = s.tcache) :
    Outcome nb t s B L (some (c + chunkHeader)) s' (recut B c g.fence new) L := by
  have hm := (inv.cells.laid.sizes c _ hc).1
  dsimp only at hm
  -- the blocks of the user are all off the top chunk
  have hoff : ∀ x j, B x = some ⟨j, .live⟩ → x + 32 ≤ c ∨ g.fence ≤ x := by
    intro x j hx
    have hne : x ≠ c := by
      rintro rfl
      rw [hc] at hx
      cases hx
    rcases inv.cells.starts_off hc (Or.inl ⟨_, hx⟩) hne with h | h
    · exact Or.inl h
    · exact Or.inr (by dsimp only at h; omega)
  refine .of_layout (fun x j hx => ?_) (fun p hp => ⟨c, n, (Option.some.inj hp).symm, Nat.le_refl c, by omega, hnew, hn⟩)
    (fun x j hx => by rw [honly x j hx]) (fun x j hx => ?_) (fun _ h => hr ▸ h) htc
  · have := hoff x j hx
    omega
  · by_cases hxc : x + 56 = c + 8
    · -- the key of the block in front of the top chunk is the header of the latter
      have hold : s.mem (c + 8) ≠ 0 := (inv.cells.head c _ hc).ne_zero
      rw [hxc]
      exact iff_of_false hhead hold
    · have := hoff x j hx
      rw [hext _ hxc (by omega)]

/-- From the top chunk of an arena on there is nothing else in its heap. -/
theorem Inv.only_top (inv : Inv R s B L) {c m : Nat} {g : Heap} (hm : B c = some ⟨m, .top k⟩) (hfence : c + m = g.fence)
    (x : Nat) (b : Block τ) (hx : B x = some b) (h1 : c ≤ x) (h2 : x < g.fence) :
    b.status = .live ∨ b.status = .top k := by
  obtain ⟨-, rfl⟩ := inv.cells.laid.eq_of_within hm hx h1 (by dsimp only; omega)
  exact .inr rfl

theorem getArenaRec_run : getArenaRec k s = some (s.arena k, s) := rfl

theorem setTop_run {top : Nat} :
    setTop k top s = some ((), { s with arena := withTop s.arena k top }) := rfl

theorem fromTop_none (htop : (s.arena k).top = 0) : fromTop k nb s = some (none, s) := by
  unfold fromTop
  rw [bind_run getArenaRec_run, if_pos htop]
  rfl

/-- The memory after a block of `nb` bytes is cut from `m` bytes at `c`. -/
def cutMem (mem : Nat → Nat) (c nb m f : Nat) : Nat → Nat :=
  Function.update (Function.update (Function.update mem (c + nb) nb) (c + nb + 8) ((m - nb) ||| f))
    (c + 8) (nb ||| f)

theorem cutMem_heads {mem : Nat → Nat} {c m f : Nat} (hlow : 32 ≤ nb) (hd : 16 ∣ nb)
    (hdm : 16 ∣ m) (hle : nb ≤ m) (hf : f = 1 ∨ f = 5) :
    Head (cutMem mem c nb m f) c nb ∧ Head (cutMem mem c nb m f) (c + nb) (m - nb) := by
  unfold Head cutMem
  refine ⟨?_, ?_⟩
  · rw [Function.update_self]
    exact or_head hd hf
  · rw [Function.update_of_ne (by omega), Function.update_self]
    exact or_head (by omega) hf

theorem cutMem_ext {mem : Nat → Nat} {c m f fence a : Nat} (hlow : 32 ≤ nb)
    (hroom : c + nb + 8 ≤ fence) (ha : a ≠ c + 8) (hout : a < c + 32 ∨ fence < a) :
    cutMem mem c nb m f a = mem a := by
  unfold cutMem
  rw [Function.update_of_ne ha, Function.update_of_ne (by omega), Function.update_of_ne (by omega)]

theorem Inv.fromTop_cut (inv : Inv R s B L) {t : τ} (hk : k < s.narenas)
    (htop : (s.arena k).top ≠ 0) {m : Nat} (hm : B (s.arena k).top = some ⟨m, .top k⟩)
    (hlow : 32 ≤ nb) (hd : 16 ∣ nb) (hmax : nb ≤ R.maxChunk) (hroom : nb + 32 ≤ m) :
    ∃ r s' B', fromTop k nb s = some (r, s') ∧ Inv R s' B' L ∧ Outcome nb t s B L r s' B' L ∧
      r ≠ none := by
  obtain ⟨g, hg, hfirst, hfence⟩ := inv.fence_of_top hk hm
  generalize hc : (s.arena k).top = c at *
  have hdm : 16 ∣ m := (inv.cells.laid.sizes c _ hm).2
  have hfl := headFlags_cases k
  have h32 : minsize = 32 := rfl
  obtain ⟨hh1, hh2⟩ : Head (cutMem s.mem c nb m (headFlags k)) c nb ∧
      Head (cutMem s.mem c nb m (headFlags k)) (c + nb) (m - nb) :=
    cutMem_heads hlow hd hdm (by omega) hfl
  have hext : ∀ a, a ≠ c + 8 → a < c + 32 ∨ g.fence < a →
      cutMem s.mem c nb m (headFlags k) a = s.mem a := fun a ha hout =>
    cutMem_ext hlow (by omega) ha hout
  have hinv := inv.relayTop hg hm hfirst hk (inv.only_top hm hfence) ⟨by omega, by omega⟩ (lays_blockAndTop hlow hd (by omega)
    (by omega) hmax hh1 (by rw [show g.fence - (c + nb) = m - nb by omega]; exact hh2)) hext
  refine ⟨some (c + chunkHeader), _, _, ?_, hinv, Outcome.of_recut inv hm hfence
    blockAndTop_block (Nat.le_refl nb) ?_ hh1.ne_zero hext rfl rfl, nofun⟩
  rotate_left
  · intro x j hx
    rcases blockAndTop_cases hx with ⟨hx, -⟩ | ⟨-, h⟩
    · exact hx
    · cases h
  unfold fromTop
  rw [bind_run getArenaRec_run, hc, if_neg htop, bind_run (inv.chunkSize_run hm),
    if_neg (by dsimp only; omega), if_pos (by dsimp only; omega),
    bind_run (store_run (inv.mapped_block hm (by omega) (by dsimp only; omega)))]
  unfold setHead
  rw [bind_run (store_run (by exact inv.mapped_block hm (by omega) (by dsimp only; omega))),
    bind_run setTop_run,
    bind_run (store_run (by exact inv.mapped_block hm (by omega) (by dsimp only; omega)))]
  rfl

/-- All of the top chunk is taken where the rest would be too small for a chunk. -/
theorem Inv.fromTop_fill (inv : Inv R s B L) {t : τ} (hk : k < s.narenas)
    (htop : (s.arena k).top ≠ 0) {m : Nat} (hm : B (s.arena k).top = some ⟨m, .top k⟩)
    (hR : R.guarded = true) (hle : nb ≤ m) (hsmall : m < nb + 32) :
    ∃ r s' B', fromTop k nb s = some (r, s') ∧ Inv R s' B' L ∧ Outcome nb t s B L r s' B' L ∧
      r ≠ none := by
  obtain ⟨g, hg, hfirst, hfence⟩ := inv.fence_of_top hk hm
  generalize hc : (s.arena k).top = c at *
  have hsz := inv.cells.laid.sizes c _ hm
  dsimp only at hsz
  have h32 : minsize = 32 := rfl
  have hhead : Head (Function.update s.mem (c + 8) (m ||| headFlags k)) c (g.fence - c) := by
    unfold Head
    rw [Function.update_self, show g.fence - c = m by omega]
    exact or_head hsz.2 (headFlags_cases k)
  have hext : ∀ a, a ≠ c + 8 → a < c + 32 ∨ g.fence < a →
      Function.update s.mem (c + 8) (m ||| headFlags k) a = s.mem a := fun a ha _ =>
    Function.update_of_ne ha _ _
  have hinv := inv.relayTop hg hm hfirst hk (inv.only_top hm hfence) ⟨by omega, by omega⟩
    (lays_oneChunk (.inl rfl) (by omega) (by omega) hhead (.inl rfl) nofun fun _ => hR) hext
  refine ⟨some (c + chunkHeader), _, _, ?_, hinv, Outcome.of_recut inv hm hfence
    oneChunk_self (by omega) (fun x j hx => (oneChunk_cases hx).1) hhead.ne_zero hext rfl rfl, nofun⟩
  unfold fromTop
  rw [bind_run getArenaRec_run, hc, if_neg htop, bind_run (inv.chunkSize_run hm),
    if_neg (by dsimp only; omega), if_neg (by dsimp only; omega), bind_run setTop_run]
  unfold setHead
  rw [bind_run (store_run (by exact inv.mapped_block hm (by omega) (by dsimp only; omega)))]
  rfl

end MyMalloc.Ptmalloc.Words
