import Mathlib.Algebra.BigOperators.Intervals
import MyMalloc.Classic.Ptmalloc.Malloc
import MyMalloc.Classic.Ptmalloc.Tags

/- Freeing a chunk with coalescing (`pt_free`, `consolidate_and_free`).

   The chunk is marked free, then the chunk after it and the one before it are taken
   out of their bins if they are in one, and what is merged goes to the top chunk or
   to the unsorted bin. From an arena whose tags are right and in which no two
   neighbours are in bins, this leaves such an arena, and nothing is lost: the bytes
   in bins and in the top chunk grow by those of the chunk. -/
namespace MyMalloc.Ptmalloc.Words

open Exec

variable {τ : Type}

/-- The end of `pt_free` for a chunk that goes neither to a tcache nor to a fastbin. -/
def freeChunk (k p : Nat) : Exec (State τ) Unit := do
  clearPrevinuse p
  consolidateAndFree k p

theorem freeToArena_eq (p size : Nat) : freeToArena (τ := τ) p size = (do
    let k ← gets (fun s => arenaOf s p)
    lockArena k
    if size ≤ maxFastSize ∧ fastbinIndex size < nFastbins then fastPush k (fastbinIndex size) p
    else freeChunk k p
    unlockArena k) := by
  unfold freeToArena freeChunk
  simp only [Exec.bind_assoc]

/-! ## Bytes -/

/-- The bytes of the chunks in bins. -/
def binnedBytes (N : Nat → Option Nat) (L : Shelf → List Nat) : Nat :=
  ∑ i ∈ Finset.range nBins, ((L (.bin i)).map (sizeAt N)).sum

/-- The bytes in bins and in the top chunk. -/
def freeBytes (N : Nat → Option Nat) (L : Shelf → List Nat) (top : Nat) : Nat :=
  binnedBytes N L + sizeAt N top

section bytes
variable {mapped : Nat → Bool} {mem : Nat → Nat} {base : Nat} {fast : Nat → Nat}
  {N N' : Nat → Option Nat} {L : Shelf → List Nat} {i p : Nat}

theorem binnedBytes_congr (h : ∀ c, Binned L c → sizeAt N' c = sizeAt N c) : binnedBytes N' L = binnedBytes N L := by
  unfold binnedBytes
  refine Finset.sum_congr rfl fun i _ => ?_
  rw [List.map_congr_left fun c hc => h c ⟨i, hc⟩]

theorem binnedBytes_add {L' : Shelf → List Nat} {d : Nat} (hi : i < nBins)
    (hsame : ∀ j, j ≠ i → L' (.bin j) = L (.bin j))
    (hdiff : ((L' (.bin i)).map (sizeAt N)).sum = ((L (.bin i)).map (sizeAt N)).sum + d) :
    binnedBytes N L' = binnedBytes N L + d := by
  unfold binnedBytes
  have hi' := Finset.mem_range.mpr hi
  rw [← Finset.add_sum_erase _ _ hi', ← Finset.add_sum_erase _ _ hi', hdiff,
    Finset.sum_congr rfl fun j hj => by rw [hsame j (Finset.ne_of_mem_erase hj)]]
  omega

theorem binnedBytes_unsort (N : Nat → Option Nat) (L : Shelf → List Nat) (p : Nat) :
    binnedBytes N (unsort L p) = binnedBytes N L + sizeAt N p := by
  refine binnedBytes_add (i := unsortedBinIdx) (by decide) (fun j hj => ?_) ?_
  · exact Function.update_of_ne (fun e => hj (Shelf.bin.inj e)) _ _
  · rw [unsort, Function.update_self, List.map_cons, List.sum_cons, Nat.add_comm]

theorem binnedBytes_without (h : FreeLists mapped mem base fast N L) (hp : p ∈ L (.bin i)) :
    binnedBytes N L = binnedBytes N (without L p) + sizeAt N p := by
  obtain ⟨⟨hi1, hi2⟩, -⟩ := h.listed _ p hp
  refine binnedBytes_add hi2 (fun j hj => ?_) ?_
  · rw [without, List.filter_eq_self.mpr]
    exact fun c hc => decide_eq_true fun e => hj (Shelf.bin.inj (h.once _ _ p (e ▸ hc) hp))
  · have herase : without L p (.bin i) = (L (.bin i)).erase p := by
      rw [(h.nodup _).erase_eq_filter, without]
      exact List.filter_congr fun c _ => by simp [bne, beq_eq_decide]
    rw [herase, ← List.sum_map_erase (sizeAt N) hp, Nat.add_comm]

end bytes

/-! ## The neighbours -/

/-- A neighbour of the chunk of `n` bytes at `p`. -/
def Beside (N : Nat → Option Nat) (p n c : Nat) : Prop := c = p + n ∨ c + sizeAt N c = p

instance (N : Nat → Option Nat) (p n c : Nat) : Decidable (Beside N p n c) :=
  inferInstanceAs (Decidable (_ ∨ _))

/-- The lists without the neighbours that are in bins. -/
def unbeside (N : Nat → Option Nat) (L : Shelf → List Nat) (p n : Nat) : Shelf → List Nat
  | .fast i => L (.fast i)
  | .bin i => (L (.bin i)).filter (fun c => decide (¬ Beside N p n c))

section stages
variable {s : State τ} {k : Nat} {N : Nat → Option Nat} {L : Shelf → List Nat} {b e n p : Nat}

theorem TagsOn.clear_run (h : HeapsOk s k N L) (hp : N p = some n) :
    ∃ s', clearPrevinuse p s = some ((), s') ∧ Kept k s s' ∧ (s'.arena k).top = (s.arena k).top ∧
      TagsOn (fun c _ => c ≠ p) s' k N L := by
  have hch := h.lists.chunk p n hp
  have hrun := clearPrevinuse_of (h.lists.words p n hp (p + 8) (by omega) (by omega)) (h.lists.head p n hp)
    (h.lists.words p n hp (p + n + 8) (by omega) (by omega))
  have hsame : ∀ a v, a ≠ p + n + 8 → Function.update s.mem (p + n + 8) v a = s.mem a :=
    fun a v ha => Function.update_of_ne ha _ _
  refine ⟨_, hrun, ⟨rfl, rfl, rfl, rfl⟩, rfl, h.lists.setFlags hp (sizeBits_maskOff_prevInuse _), h.laid, h.top,
    fun c m hc hfore => ?_, fun c m hc hne => ?_⟩
  · dsimp only
    rw [hsame _ _ fun heq => hfore p n hp (by omega)]
    exact h.front c m hc hfore
  · have hcm := h.lists.chunk c m hc
    have hend := h.lists.disjoint hp hc hne
    have ht := h.tag c m hc trivial
    refine ⟨?_, fun hb => ?_⟩ <;> dsimp only
    · rw [hsame _ _ (by omega)]
      exact ht.bit
    · rw [hsame _ _ (by omega)]
      exact ht.foot hb

/-- The merge with the chunk after: it has been taken out of its bin, if it was in one. -/
theorem TagsOn.forward_run (h : TagsOn (fun c _ => c ≠ p) s k N L) (hp : N p = some n)
    (hin : InHand N L p (p + n)) (htop : (s.arena k).top ≠ p) (hnext : ∀ i, p + n ∉ L (.fast i)) :
    ∃ yes e s', (if p + n = (s.arena k).top then pure false else containsFreeChunk k (p + n)) s = some (yes, s) ∧
      (if yes = true then mergeNext k p n (p + n) else pure n) s = some (e - p, s') ∧
      Kept k s s' ∧ (s'.arena k).top = (s.arena k).top ∧ InHand N (without L (p + n)) p e ∧
      TagsOn (fun c _ => c < p ∨ e ≤ c) s' k N (without L (p + n)) ∧
      ((s.arena k).top < p ∨ e ≤ (s.arena k).top) ∧ p + n ≤ e ∧
      (¬ Binned L (p + n) ∧ e = p + n ∨ ∃ m, N (p + n) = some m ∧ Binned L (p + n) ∧ e = p + n + m) := by
  have hch := h.lists.chunk p n hp
  have htop' := h.top_out hp htop
  by_cases hbin : Binned L (p + n)
  · obtain ⟨i, hi⟩ := hbin
    obtain ⟨-, m, hm⟩ := h.lists.listed _ _ hi
    have hne := h.top_ne hi
    have hfree : ∀ sh, p + n ∉ without L (p + n) sh := fun sh => not_listed_without
    obtain ⟨s', hrun, hk, ht', -, h'⟩ := h.mergeNext_run p n hi hm
    have hin' : InHand N (without L (p + n)) p (p + n + m) :=
      (hin.sub fun sh c hc => (mem_without.mp hc).1).append (.single h'.lists hm hfree)
    refine ⟨true, p + n + m, s', ?_, ?_, hk, ht', hin', h'.mono fun c m' hc hout => ?_, ?_, by omega, .inr ⟨m, hm, ⟨i, hi⟩, rfl⟩⟩
    · rw [if_neg (Ne.symm hne)]
      exact h.lists.containsFreeChunk_bin hi
    · rw [if_pos rfl, hrun]
      congr 2
      omega
    · have := (h.lists.chunk _ m hm).1
      exact ⟨by omega, by omega⟩
    · have := h.top_out hm hne
      omega
  · have hfree : ∀ sh, p + n ∉ L sh := by
      rintro (i | i) hm
      · exact hnext i hm
      · exact hbin ⟨i, hm⟩
    rw [without_eq_self hfree]
    refine ⟨false, p + n, s, ?_, ?_, .refl s, rfl, hin, h.mono fun c m' hc hout => ?_, htop',
      Nat.le_refl _, .inl ⟨hbin, rfl⟩⟩
    · split
      · rfl
      · exact h.lists.containsFreeChunk_none hfree
    · rw [if_neg (by decide), Nat.add_sub_cancel_left]
      rfl
    · omega

/-- The two steps together take out of the bins what is beside the chunk. -/
theorem unbeside_eq {top : Nat} (h : s.Lists k N L) (hp : N p = some n) (hlive : ∀ sh, p ∉ L sh)
    (hnext : ∀ i, p + n ∉ L (.fast i)) (hfrom : (cellsOf N (without L (p + n)) top).From p b) :
    without (without L (p + n)) b = unbeside N L p n := by
  have hfast : ∀ i, b ∉ L (.fast i) := by
    intro i
    cases hfrom with
    | alone _ => exact hlive _
    | before _ _ hbin =>
      obtain ⟨j, hj⟩ := (binned_without.mp hbin).1
      intro hm
      cases h.once _ _ b hm hj
  -- a chunk in a bin ends at `p` exactly if it is the one that has been taken
  have hsame : ∀ i, ∀ c ∈ L (.bin i), c ≠ p + n → (c ≠ b ↔ c + sizeAt N c ≠ p) := by
    intro i c hc hne
    obtain ⟨-, m, hm⟩ := h.listed _ c hc
    rw [sizeAt_eq hm]
    cases hfrom with
    | alone hno =>
      exact iff_of_true (fun e => hlive _ (e ▸ hc)) fun hend => hno c m hm hend ⟨i, mem_without.mpr ⟨hc, hne⟩⟩
    | @before b m' hb hend _ =>
      refine not_congr ⟨fun e => ?_, fun hend' => ?_⟩
      · obtain rfl := Option.some.inj (hm.symm.trans (e ▸ hb))
        exact e ▸ hend
      · by_contra hcb
        have := h.disjoint hb hm hcb
        have := h.chunk c m hm
        have := h.chunk b m' hb
        omega
  funext sh
  cases sh with
  | fast i =>
    have hkept : without L (p + n) (.fast i) = L (.fast i) :=
      List.filter_eq_self.mpr fun c hc => decide_eq_true fun e => hnext i (e ▸ hc)
    rw [without, hkept]
    exact List.filter_eq_self.mpr fun c hc => decide_eq_true fun e => hfast i (e ▸ hc)
  | bin i =>
    change ((L (.bin i)).filter _).filter _ = (L (.bin i)).filter _
    rw [List.filter_filter]
    refine List.filter_congr fun c hc => ?_
    rw [← Bool.decide_and, decide_eq_decide, Beside, not_or, and_comm]
    exact and_congr_right (hsame i c hc)

end stages

/-! ## The result -/

/-- What freeing the chunk of `n` bytes at `p` leaves: the chunk is part of the one at `b`. -/
structure Coalesced (N : Nat → Option Nat) (L : Shelf → List Nat) (top p n b : Nat)
    (N' : Nat → Option Nat) (L' : Shelf → List Nat) (top' : Nat) : Prop where
  merged : ∃ e, N' = merge N b e ∧ b ≤ p ∧ p + n ≤ e
  home : b = top' ∨ top' = top ∧ b ∈ L' (.bin unsortedBinIdx)
  lists : L' = if b = top' then unbeside N L p n else unsort (unbeside N L p n) b
  parted : Parted N' L'
  bytes : freeBytes N' L' top' = freeBytes N L top + n

section result
variable {s : State τ} {k : Nat} {N : Nat → Option Nat} {L : Shelf → List Nat} {b e n p : Nat}

theorem binned_of_unbeside {c : Nat} (h : Binned (unbeside N L p n) c) : Binned L c := by
  obtain ⟨i, hi⟩ := h
  exact ⟨i, (List.mem_filter.mp hi).1⟩

theorem bytes_merge (hh : InHand N L b e) :
    binnedBytes (merge N b e) L = binnedBytes N L := by
  refine binnedBytes_congr fun c ⟨i, hi⟩ => ?_
  have hout : c < b ∨ e ≤ c := by
    by_contra hin
    exact hh.out c (by omega) (by omega) _ hi
  rw [sizeAt, sizeAt, merge_of_out hh.lt hout]

/-- `systrim` would give memory back. -/
def State.Trims (s : State τ) (k : Nat) : Prop :=
  let top := (s.arena k).top
  let size := sizeBits (s.mem (top + 8))
  defaultTrimThreshold < size ∧ pageRound (top + defaultTrimThreshold) < top + size ∧
    4096 ≤ top + size - pageRound (top + defaultTrimThreshold)

theorem systrim_idle (hm : s.mapped ((s.arena k).top + 8) = true) (h : ¬ s.Trims k) :
    systrim k s = some ((), s) := by
  have hav : getArenaRec k s = some (s.arena k, s) := rfl
  unfold systrim
  rw [bind_run hav]
  split
  · rfl
  rw [bind_run (chunkSize_of hm rfl)]
  split
  · rfl
  · next hlarge =>
    have hno : sysTrim (s.arena k).top (sizeBits (s.mem ((s.arena k).top + 8))) defaultTrimThreshold s =
        some (false, s) := by
      unfold sysTrim
      rw [if_pos]
      unfold State.Trims at h
      dsimp only at h
      omega
    rw [bind_run hno]
    rfl

theorem head_flags (w : Nat) :
    prevInuseBit ||| (w &&& nonMainArenaBit) < 8 ∧ (prevInuseBit ||| (w &&& nonMainArenaBit)) % 2 = 1 := by
  rw [show nonMainArenaBit = 2^2 from rfl, Nat.and_two_pow]
  cases w.testBit 2 <;> decide

/-- The bytes taken out of the bins are those the chunk in hand has besides its own. -/
theorem gather_bytes {s₂ : State τ} {top : Nat} (h : s.Lists k N L) (hp : N p = some n) (hlive : ∀ sh, p ∉ L sh)
    (h₂ : s₂.Lists k N (without L (p + n))) (hnext : ∀ i, p + n ∉ L (.fast i)) (hle : p + n ≤ e)
    (hfwd : ¬ Binned L (p + n) ∧ e = p + n ∨ ∃ m, N (p + n) = some m ∧ Binned L (p + n) ∧ e = p + n + m)
    (hfrom : (cellsOf N (without L (p + n)) top).From p b) (hb : b ≤ p) :
    binnedBytes N (without (without L (p + n)) b) + (e - b) = binnedBytes N L + n := by
  have hafter : binnedBytes N (without L (p + n)) + (e - (p + n)) = binnedBytes N L := by
    rcases hfwd with ⟨hno, rfl⟩ | ⟨m, hm, ⟨i, hi⟩, rfl⟩
    · rw [without_eq_self]
      · omega
      · rintro (i | i) hm
        · exact hnext i hm
        · exact hno ⟨i, hm⟩
    · rw [binnedBytes_without h hi, sizeAt_eq hm]
      omega
  have hbefore : binnedBytes N (without (without L (p + n)) b) + (p - b) = binnedBytes N (without L (p + n)) := by
    cases hfrom with
    | alone _ =>
      have hself : without (without L (b + n)) b = without L (b + n) :=
        without_eq_self fun sh hm => hlive sh (mem_without.mp hm).1
      rw [hself]
      omega
    | @before _ m hm hend hbin =>
      obtain ⟨i, hi⟩ := hbin
      have hsize : sizeAt N b = m := sizeAt_eq hm
      rw [binnedBytes_without h₂ hi, hsize]
      omega
  omega

theorem Parted.grow (hpart : Parted N L) (hin : InHand N (unbeside N L p n) b e) :
    Parted (merge N b e) (unbeside N L p n) := by
  intro c m hc hbin hbin'
  rcases merge_cases hc with ⟨rfl, -⟩ | ⟨-, hcN⟩
  · obtain ⟨i, hi⟩ := hbin
    exact hin.out c (Nat.le_refl c) hin.lt _ hi
  · exact hpart c m hcN (binned_of_unbeside hbin) (binned_of_unbeside hbin')

/-- No two neighbours are in bins after the merged chunk has been put in one. -/
theorem Parted.unsort (hpart : Parted N L) (hlt : b < e)
    (hbefore : ∀ c m, N c = some m → c + m = b → ¬ Binned (unbeside N L p n) c) (hafter : ¬ Binned L e) :
    Parted (merge N b e) (Words.unsort (unbeside N L p n) b) := by
  intro c m hc hbin hbin'
  rcases merge_cases hc with ⟨rfl, rfl⟩ | ⟨hout, hcN⟩
  · rw [Nat.add_sub_cancel' hlt.le, binned_unsort (by omega)] at hbin'
    exact hafter (binned_of_unbeside hbin')
  · rw [binned_unsort (by omega)] at hbin
    by_cases hend : c + m = b
    · exact hbefore c m hcN hend hbin
    · rw [binned_unsort hend] at hbin'
      exact hpart c m hcN (binned_of_unbeside hbin) (binned_of_unbeside hbin')

/-- Freeing a chunk of an arena whose tags are right. -/
theorem coalescing_free (h : HeapsOk s k N L) (hpart : Parted N L) (hp : N p = some n) (hlive : ∀ sh, p ∉ L sh)
    (hnot : (s.arena k).top ≠ p) (hnext : ∀ i, p + n ∉ L (.fast i)) :
    ∃ s' b N' L', HeapsOk s' k N' L' ∧ Coalesced N L (s.arena k).top p n b N' L' (s'.arena k).top ∧
      Kept k s s' ∧ ((s'.arena k).top = (s.arena k).top ∨ ¬ s'.Trims k → freeChunk k p s = some ((), s')) := by
  obtain ⟨s₁, hrun₁, hk₁, htop₁, h₁⟩ := h.clear_run hp
  rw [← htop₁] at hnot
  obtain ⟨yes, e, s₂, hfree, hrun₂, hk₂, htop₂, hin₂, h₂, hpos, hle, hfwd⟩ :=
    h₁.forward_run hp (.single h₁.lists hp hlive) hnot hnext
  have hprev : ∀ c m, N c = some m → c + m = p → c < p ∨ e ≤ c := fun c m hc hend => by
    have := (h.lists.chunk c m hc).1
    omega
  obtain ⟨b, s₃, hrun₃, hk₃, htop₃, -, hfrom, hb, hin₃, h₃'⟩ := h₂.mergeBackward_run hin₂ hprev
  have h₃ := h₃'.mono (Q := fun c _ => c < b ∨ e ≤ c) fun c m _ hout => ⟨by omega, by have := hin₃.lt; omega⟩
  have hbytes := gather_bytes h.lists hp hlive h₂.lists hnext hle hfwd hfrom hb
  have hch := h.lists.chunk p n hp
  -- the chunks around what is merged are in no bin
  have hbefore : ∀ c m, N c = some m → c + m = b → ¬ Binned (without (without L (p + n)) b) c := by
    intro c m hc hend hbin
    have hbin' := (binned_without.mp hbin).1
    cases hfrom with
    | alone hno => exact hno c m hc hend hbin'
    | before _ _ hb => exact hpart c m hc (binned_without.mp hbin').1 (hend ▸ (binned_without.mp hb).1)
  have hafter : ¬ Binned L e := by
    rcases hfwd with ⟨hno, rfl⟩ | ⟨m, hm, hbin, rfl⟩
    · exact hno
    · exact hpart _ m hm hbin
  rw [unbeside_eq h.lists hp hlive hnext hfrom] at hbytes hbefore hin₃ h₃
  have htop : (s₃.arena k).top = (s₁.arena k).top := htop₃.trans htop₂
  have hk₀ : Kept k s s₃ := hk₁.trans (hk₂.trans hk₃)
  -- the run up to where the chunk in hand is known
  have hsize := chunkSize_of (h₁.lists.words p n hp (p + 8) (by omega) (by omega)) (h₁.lists.head p n hp)
  have hflags := chunkFlags_of (h₁.lists.words p n hp (p + 8) (by omega) (by omega))
  have hav : getArenaRec k s₁ = some (s₁.arena k, s₁) := rfl
  have hadd : b + (e - b) = e := Nat.add_sub_cancel' hin₃.lt.le
  obtain ⟨hf, hodd⟩ := head_flags (s₁.mem (p + 8) &&& 7)
  have hprefix : ∀ r, (if (s₁.arena k).top = e then do
        let topSize ← chunkSize (s₁.arena k).top
        setHead b (e - b + topSize) (prevInuseBit ||| (s₁.mem (p + 8) &&& 7 &&& nonMainArenaBit))
        setTop k b
        systrim k
      else if e - b < minsize ∨ (e - b) % 16 ≠ 0 then pure ()
      else placeUnsorted k b (e - b) (prevInuseBit ||| (s₁.mem (p + 8) &&& 7 &&& nonMainArenaBit)) :
        Exec (State τ) Unit) s₃ = r → freeChunk k p s = r := by
    rintro r rfl
    unfold freeChunk consolidateAndFree
    rw [bind_run hrun₁, bind_run hsize, bind_run hflags, bind_run hav]
    refine (branch_run hfree).trans ((branch_run hrun₂).trans ((bind_run hrun₃).trans ?_))
    dsimp only
    rw [hadd]
  by_cases hgrow : (s₁.arena k).top = e
  · -- into the top chunk
    have hgrow₃ := htop.trans hgrow
    obtain ⟨m, hm⟩ : ∃ m, N e = some m := by
      rcases h₃.top with h0 | ⟨hm, -⟩
      · omega
      · exact hgrow₃ ▸ hm
    obtain ⟨hin, hk, -, h'⟩ := h₃.grow (Q := fun _ _ => True) hin₃ hf hodd hgrow₃ hm
      (fun c n hc _ hout => ⟨by omega, hbefore c n hc⟩) (fun _ => .inr (Nat.le_refl e))
    generalize hs' : s₃.grow k b _ = s' at h' hk
    have hb' : (s'.arena k).top = b := by
      rw [← hs']
      simp only [State.grow, Function.update_self]
    have hm8 : s₃.mapped (e + 8) = true := h₃.lists.words e m hm (e + 8) (by omega) (by omega)
    have hb8 : s₃.mapped (b + 8) = true := (hin₃.span h₃.lists).1 _ (by omega) (by omega)
    refine ⟨s', b, merge N b (e + m), unbeside N L p n, h', ⟨⟨e + m, rfl, hb, by omega⟩, .inl hb'.symm, ?_,
      hpart.grow hin, ?_⟩, hk₀.trans hk, fun hkeep => hprefix _ ?_⟩
    · rw [if_pos hb'.symm]
    · rw [hb', ← htop₁, hgrow, freeBytes, freeBytes, bytes_merge hin, sizeAt_eq merge_self, sizeAt_eq hm]
      have := hin₃.lt
      omega
    · have hidle : ¬ s'.Trims k := by
        refine hkeep.resolve_left fun heq => ?_
        have := hin₃.lt
        omega
      unfold setHead
      rw [if_pos hgrow, hgrow, bind_run (chunkSize_of hm8 (h₃.lists.head e m hm)), bind_run (store_run hb8)]
      change systrim k (s₃.grow k b _) = _
      rw [hs']
      refine systrim_idle ?_ hidle
      rw [hk.mapped, hb']
      exact hb8
  · -- to the unsorted bin
    have htopb : (s₃.arena k).top < b ∨ e ≤ (s₃.arena k).top := by
      rw [htop]
      cases hfrom with
      | alone _ => exact hpos
      | before hm hend hbin =>
        obtain ⟨i, hi⟩ := hbin
        have := h₁.top_out hm (h₁.top_ne (mem_without.mp hi).1)
        omega
    obtain ⟨s', hrun, hk, htop', -, h'⟩ := h₃.place_run (Q := fun _ _ => True) hin₃ hf hodd htopb
      (fun c n hc _ hout => ⟨hout, hbefore c n hc⟩)
    have hlt := hin₃.lt
    have hne : b ≠ (s'.arena k).top := by
      rw [htop']
      omega
    have hsame : (s'.arena k).top = (s.arena k).top := htop'.trans (htop.trans htop₁)
    have hbd := hin₃.bounds h₃.lists
    have hmin : minsize = 32 := rfl
    refine ⟨s', b, merge N b e, unsort (unbeside N L p n) b, h', ⟨⟨e, rfl, hb, hle⟩, ?_, ?_,
      hpart.unsort hlt hbefore hafter, ?_⟩, hk₀.trans hk, fun _ => hprefix _ ?_⟩
    · exact .inr ⟨hsame, mem_unsort.mpr (.inr ⟨rfl, rfl⟩)⟩
    · rw [if_neg hne]
    · rw [freeBytes, freeBytes, binnedBytes_unsort, bytes_merge hin₃, sizeAt_eq merge_self, hsame, sizeAt, sizeAt,
        merge_of_out hlt (by omega)]
      omega
    · rw [if_neg hgrow, if_neg (by omega)]
      exact hrun

end result

theorem parted_four : Parted fourChunks fourLists := by
  intro c n hc hb hb'
  obtain ⟨rfl, -⟩ := fourChunks_some hc
  rw [binned_four] at hb hb'
  omega

/-- Freeing the chunk in use of `fourArena`, between one in a bin and the top chunk. -/
theorem coalescing_free_four : ∃ s' b N' L', HeapsOk s' 0 N' L' ∧
    Coalesced fourChunks fourLists 1048816 1048752 64 b N' L' (s'.arena 0).top ∧ Kept 0 fourArena s' ∧
    ((s'.arena 0).top = 1048816 ∨ ¬ s'.Trims 0 → freeChunk 0 1048752 fourArena = some ((), s')) := by
  have hlive : ∀ c, c = 1048752 ∨ c = 1048816 → ∀ sh, c ∉ fourLists sh := fun c hc sh hm => by
    rcases mem_fourLists.mp hm with ⟨-, heq⟩ | ⟨-, heq⟩ <;> omega
  exact coalescing_free heapsOk_four parted_four rfl (hlive _ (.inl rfl)) (by decide) fun i => hlive _ (.inr rfl) _

end MyMalloc.Ptmalloc.Words
