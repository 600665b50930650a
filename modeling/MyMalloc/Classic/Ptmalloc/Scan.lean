import MyMalloc.Classic.Ptmalloc.FreeLists
import MyMalloc.Classic.Ptmalloc.Headers
import MyMalloc.Classic.Ptmalloc.Malloc

/- The scan of the unsorted bin (`pt_malloc`, strategy 4).

   The loop takes the chunks of the unsorted bin from the front: those that are too
   small go to the bins of their sizes, the first that is large enough is returned,
   with what is left of it put in a bin. At the level of lists this is `ScanResult`.

   The bins have one index too few. A chunk of 458752 bytes or more belongs to the
   large bin 62, which would be `bins_[128]`, behind the array; the loop does what
   `ScanResult` says exactly when it has no such chunk to put away. -/
namespace MyMalloc.Ptmalloc.Words

open Exec

variable {τ : Type}

/-- Strategy 4 without the consolidation that comes first. -/
def unsortedScan (k nb : Nat) : Exec (State τ) (Option Nat) := do
  let limit ← gets State.walkLimit
  let snt ← unsortedBin k
  let p ← load (snt + 16)
  scanUnsorted k nb snt limit p

theorem fromUnsorted_eq (k nb : Nat) : fromUnsorted (τ := τ) k nb = (do
    if ← hasFastchunks k then mallocConsolidate k
    unsortedScan k nb) := rfl

/-! ## Bins -/

/-- The index in `bins_` of the bin for a size. -/
def binFor (size : Nat) : Nat :=
  if inSmallbinRange size then unsortedBinIdx + 1 + smallbinIndex size
  else unsortedBinIdx + 1 + nSmallbins + largebinIndex size

/-- From here on the index is past the end of `bins_`. -/
def oversize : Nat := 458752

theorem largebinIndex_lt {size : Nat} (h : size < oversize) : largebinIndex size < 62 := by
  have h61 : ¬ 61 < largebinMax.findIdx (fun m => decide (size < m)) := by
    intro hlt
    have := List.not_of_lt_findIdx hlt
    have h458 : largebinMax[61] = oversize := rfl
    rw [h458, decide_eq_true h] at this
    cases this
  unfold largebinIndex
  omega

theorem largebinIndex_oversize {size : Nat} (h : oversize ≤ size) : largebinIndex size = 62 := by
  have hall : ∀ j : Fin 62, largebinMax[j] ≤ oversize := by decide
  have h61 : 61 < largebinMax.findIdx (fun m => decide (size < m)) := by
    refine List.lt_findIdx_of_not (by decide) fun j hj => ?_
    have hle := hall ⟨j, by omega⟩
    intro hlt
    exact absurd (lt_of_lt_of_le (of_decide_eq_true hlt) hle) (Nat.not_lt.mpr h)
  have h63 : nLargebins = 63 := rfl
  unfold largebinIndex
  omega

theorem one_lt_binFor (size : Nat) : 1 < binFor size := by
  have h1 : unsortedBinIdx = 1 := rfl
  unfold binFor
  split <;> omega

theorem binFor_bounds {size : Nat} (h : size < oversize) : 1 < binFor size ∧ binFor size < nBins := by
  have h1 : unsortedBinIdx = 1 := rfl
  have h2 : nSmallbins = 64 := rfl
  have h3 : nBins = 128 := rfl
  have h4 : minLargeSize = 1024 := rfl
  have hl := largebinIndex_lt h
  unfold binFor inSmallbinRange smallbinIndex
  rw [Nat.shiftRight_eq_div_pow]
  split
  · next hs =>
    have hs := of_decide_eq_true hs
    omega
  · omega

section
variable {s : State τ} {k p size : Nat} {N : Nat → Option Nat} {L : Shelf → List Nat}

theorem pushSorted_eq (h : size < oversize) :
    pushSorted k size p s = pushFront (sentinel (s.arena k).base (binFor size)) p s := by
  have hav : getArenaRec k s = some (s.arena k, s) := rfl
  have hb := binFor_bounds h
  unfold pushSorted
  unfold binFor at *
  split
  · unfold smallBin
    rfl
  · next hs =>
    rw [if_neg hs] at hb
    unfold largeBin
    rw [if_neg (by omega)]
    rfl

/-- There is no bin for such a chunk. -/
theorem pushSorted_oversize (h : oversize ≤ size) : pushSorted k size p s = none := by
  have hs : ¬ inSmallbinRange size = true := by
    unfold inSmallbinRange oversize minLargeSize at *
    simp
    omega
  unfold pushSorted largeBin
  rw [if_neg hs, largebinIndex_oversize h]
  rfl

end

/-! ## A chunk is cut in two -/

/-- The chunk at `p` with `n` bytes becomes one of `nb` bytes and the rest. -/
def cut (N : Nat → Option Nat) (p n nb : Nat) : Nat → Option Nat :=
  Function.update (Function.update N (p + nb) (some (n - nb))) p (some nb)

section
variable {N : Nat → Option Nat} {p n nb c m : Nat}

theorem cut_self : cut N p n nb p = some nb := Function.update_self ..

theorem cut_rest (h : 0 < nb) : cut N p n nb (p + nb) = some (n - nb) := by
  rw [cut, Function.update_of_ne (by omega), Function.update_self]

theorem cut_of_ne (h1 : c ≠ p) (h2 : c ≠ p + nb) : cut N p n nb c = N c := by
  rw [cut, Function.update_of_ne h1, Function.update_of_ne h2]

theorem cut_cases (h : cut N p n nb c = some m) :
    (c = p ∧ m = nb) ∨ (c = p + nb ∧ m = n - nb) ∨ (c ≠ p ∧ c ≠ p + nb ∧ N c = some m) := by
  by_cases h1 : c = p
  · subst h1
    rw [cut_self] at h
    exact .inl ⟨rfl, (Option.some.inj h).symm⟩
  · by_cases h2 : c = p + nb
    · rw [cut, Function.update_of_ne h1, h2, Function.update_self] at h
      exact .inr (.inl ⟨h2, (Option.some.inj h).symm⟩)
    · rw [cut_of_ne h1 h2] at h
      exact .inr (.inr ⟨h1, h2, h⟩)

end

theorem FreeLists.cut {mapped : Nat → Bool} {mem mem' : Nat → Nat} {base : Nat} {fast : Nat → Nat}
    {N : Nat → Option Nat} {L : Shelf → List Nat} {p n nb : Nat} (h : FreeLists mapped mem base fast N L)
    (hp : N p = some n) (hout : ∀ sh, p ∉ L sh) (h32 : 32 ≤ nb) (h16 : 16 ∣ nb) (hle : nb + 32 ≤ n)
    (hmem : ∀ a, a ≠ p + 8 → a ≠ p + nb → a ≠ p + nb + 8 → a ≠ p + n → mem' a = mem a)
    (hhead : sizeBits (mem' (p + 8)) = nb) (hrest : sizeBits (mem' (p + nb + 8)) = n - nb) :
    FreeLists mapped mem' base fast (Words.cut N p n nb) L := by
  have hch := h.chunk p n hp
  have hoff := h.off p n hp
  refine h.retag (fun a ha => ?_) (fun c m hc => ?_) (fun c m d m' hc hd hlt => ?_) (fun c m hc a h1 h2 => ?_)
    (fun c m hc => ?_) (fun c m hc => ?_) (fun sh c hc => ?_)
  · have hin := fun x (h1 : p ≤ x) (h2 : x < p + n) (e : a = x) => ha (e ▸ h.offLinks_inside hp hout h1 h2)
    refine hmem a (hin _ (by omega) (by omega)) (hin _ (by omega) (by omega)) (hin _ (by omega) (by omega)) ?_
    exact fun e => ha (e ▸ (h.offLinks_head hp).2.1)
  · rcases cut_cases hc with ⟨rfl, rfl⟩ | ⟨rfl, rfl⟩ | ⟨-, -, hc⟩
    · omega
    · omega
    · exact h.chunk c m hc
  · rcases cut_cases hc with ⟨rfl, rfl⟩ | ⟨rfl, rfl⟩ | ⟨hcp, -, hcN⟩ <;>
      rcases cut_cases hd with ⟨rfl, rfl⟩ | ⟨rfl, rfl⟩ | ⟨hdp, -, hdN⟩
    · omega
    · omega
    · have := h.disjoint hp hdN hdp
      have := h.chunk d m' hdN
      omega
    · omega
    · omega
    · have := h.disjoint hp hdN hdp
      have := h.chunk d m' hdN
      omega
    · have := h.disjoint hp hcN hcp
      omega
    · have := h.disjoint hp hcN hcp
      omega
    · exact h.apart c m d m' hcN hdN hlt
  · rcases cut_cases hc with ⟨rfl, rfl⟩ | ⟨rfl, rfl⟩ | ⟨-, -, hc⟩
    · exact h.words c n hp a h1 (by omega)
    · exact h.words p n hp a (by omega) (by omega)
    · exact h.words c m hc a h1 h2
  · rcases cut_cases hc with ⟨rfl, rfl⟩ | ⟨rfl, rfl⟩ | ⟨hcp, -, hc⟩
    · exact hhead
    · exact hrest
    · have h1 := h.disjoint hp hc hcp
      have h2 := h.chunk c m hc
      rw [hmem (c + 8) (by omega) (by omega) (by omega) (by omega)]
      exact h.head c m hc
  · rcases cut_cases hc with ⟨rfl, rfl⟩ | ⟨rfl, rfl⟩ | ⟨-, -, hc⟩
    · omega
    · omega
    · exact h.off c m hc
  · obtain ⟨-, m, hm⟩ := h.listed sh c hc
    have hcp : c ≠ p := fun e => hout sh (e ▸ hc)
    have := h.disjoint hp hm hcp
    exact ⟨m, by rw [cut_of_ne hcp (by omega)]; exact hm⟩

/-- Memory after the four words of a split are written: the header of the chunk with flags `f`, and the
    `prev_size`, the header with flags `g` and the foot of the rest. -/
def splitMem (mem : Nat → Nat) (p n nb f g : Nat) : Nat → Nat :=
  Function.update (Function.update (Function.update (Function.update mem (p + 8) (nb ||| f)) (p + nb) nb)
    (p + nb + 8) ((n - nb) ||| g)) (p + n) (n - nb)

section
variable {mem : Nat → Nat} {N : Nat → Option Nat} {L : Shelf → List Nat} {p n nb f g : Nat}

theorem splitMem_of_ne {a : Nat} (h1 : a ≠ p + 8) (h2 : a ≠ p + nb) (h3 : a ≠ p + nb + 8) (h4 : a ≠ p + n) :
    splitMem mem p n nb f g a = mem a := by
  rw [splitMem, Function.update_of_ne h4, Function.update_of_ne h3, Function.update_of_ne h2,
    Function.update_of_ne h1]

theorem splitMem_rest (h : nb + 8 ≠ n) : splitMem mem p n nb f g (p + nb + 8) = (n - nb) ||| g := by
  rw [splitMem, Function.update_of_ne (by omega), Function.update_self]

theorem FreeLists.splitMem {mapped : Nat → Bool} {base : Nat} {fast : Nat → Nat} (h : FreeLists mapped mem base fast N L)
    (hp : N p = some n) (hout : ∀ sh, p ∉ L sh) (h32 : 32 ≤ nb) (h16 : 16 ∣ nb) (hle : nb + 32 ≤ n)
    (hf : f < 8) (hg : g < 8) :
    FreeLists mapped (Words.splitMem mem p n nb f g) base fast (Words.cut N p n nb) L := by
  have hch := h.chunk p n hp
  refine h.cut hp hout h32 h16 hle (fun a h1 h2 h3 h4 => splitMem_of_ne h1 h2 h3 h4) ?_ ?_
  · rw [Words.splitMem, Function.update_of_ne (by omega), Function.update_of_ne (by omega),
      Function.update_of_ne (by omega), Function.update_self]
    exact sizeBits_or h16 (by omega) hf
  · rw [splitMem_rest (by omega)]
    exact sizeBits_or (by omega) (by omega) hg

theorem State.Lists.splitWords_run {s : State τ} {k : Nat} (h : s.Lists k N L) (hp : N p = some n) (h32 : 32 ≤ nb)
    (hle : nb + 32 ≤ n) {α : Type} (x : Exec (State τ) α) (m : Nat → Nat) :
    (do
      setHead p nb f
      store (p + nb) nb
      setHead (p + nb) (n - nb) g
      setFoot (p + nb) (n - nb)
      x) { s with mem := m } = x { s with mem := Words.splitMem m p n nb f g } := by
  have hmap : ∀ a, p ≤ a → a ≤ p + n + 8 → s.mapped a = true := h.words p n hp
  have hend : p + nb + (n - nb) = p + n := by omega
  unfold Words.setHead Words.setFoot
  rw [bind_run (store_run (by exact hmap (p + 8) (by omega) (by omega))),
    bind_run (store_run (by exact hmap (p + nb) (by omega) (by omega))),
    bind_run (store_run (by exact hmap (p + nb + 8) (by omega) (by omega))), hend,
    bind_run (store_run (by exact hmap (p + n) (by omega) (by omega)))]
  rfl

end

/-! ## What the scan does to the lists -/

/-- `c` comes to the front of the bin for its size. -/
def shelve (L : Shelf → List Nat) (c size : Nat) : Shelf → List Nat :=
  Function.update L (.bin (binFor size)) (c :: L (.bin (binFor size)))

/-- The chunks of `front` are in the bins of their sizes, each in front of those before it, and
    `behind` is in the unsorted bin. -/
def afterScan (N : Nat → Option Nat) (L : Shelf → List Nat) (front behind : List Nat) : Shelf → List Nat
  | .fast i => L (.fast i)
  | .bin i => if i = unsortedBinIdx then behind
      else (front.filter (fun c => decide (binFor (sizeAt N c) = i))).reverse ++ L (.bin i)

/-- The scan for `nb` bytes: the result, and the chunks and lists after it. -/
inductive ScanResult (N : Nat → Option Nat) (L : Shelf → List Nat) (nb : Nat) :
    Option Nat → (Nat → Option Nat) → (Shelf → List Nat) → Prop where
  | nothing (hall : ∀ c ∈ L (.bin unsortedBinIdx), sizeAt N c < nb) :
      ScanResult N L nb none N (afterScan N L (L (.bin unsortedBinIdx)) [])
  | whole {front behind : List Nat} {p : Nat} (hl : L (.bin unsortedBinIdx) = front ++ p :: behind)
      (hfront : ∀ c ∈ front, sizeAt N c < nb) (hlow : nb ≤ sizeAt N p) (hup : sizeAt N p < nb + minsize) :
      ScanResult N L nb (some (p + chunkHeader)) N (afterScan N L front behind)
  | split {front behind : List Nat} {p : Nat} (hl : L (.bin unsortedBinIdx) = front ++ p :: behind)
      (hfront : ∀ c ∈ front, sizeAt N c < nb) (hlow : nb + minsize ≤ sizeAt N p) :
      ScanResult N L nb (some (p + chunkHeader)) (cut N p (sizeAt N p) nb)
        (shelve (afterScan N L front behind) (p + nb) (sizeAt N p - nb))

/-- No chunk that the scan puts away is one without a bin. -/
def ScanFits (N : Nat → Option Nat) (L : Shelf → List Nat) (nb : Nat) : Prop :=
  ∀ front c behind, L (.bin unsortedBinIdx) = front ++ c :: behind → (∀ d ∈ front, sizeAt N d < nb) →
    (sizeAt N c < nb → sizeAt N c < oversize) ∧ (nb + minsize ≤ sizeAt N c → sizeAt N c - nb < oversize)

section
variable {N : Nat → Option Nat} {L : Shelf → List Nat} {nb p : Nat} {u : List Nat}

theorem afterScan_shelve (front behind : List Nat) :
    afterScan N (shelve (Function.update L (.bin unsortedBinIdx) u) p (sizeAt N p)) front behind =
      afterScan N L (p :: front) behind := by
  funext sh
  cases sh with
  | fast i =>
    have hf : ∀ j, Shelf.fast i ≠ .bin j := fun j => nofun
    rw [afterScan, afterScan, shelve, Function.update_of_ne (hf _), Function.update_of_ne (hf _)]
  | bin i =>
    rw [afterScan, afterScan]
    split
    · rfl
    · next hi =>
      have hi' : Shelf.bin i ≠ .bin unsortedBinIdx := fun e => hi (Shelf.bin.inj e)
      by_cases e : binFor (sizeAt N p) = i
      · rw [shelve, e, Function.update_self, Function.update_of_ne hi', List.filter_cons_of_pos (by simpa using e),
          List.reverse_cons, List.append_assoc, List.singleton_append]
      · rw [shelve, Function.update_of_ne (fun h => e (Shelf.bin.inj h).symm), Function.update_of_ne hi',
          List.filter_cons_of_neg (by simpa using e)]

theorem shelve_unsorted (hs : sizeAt N p < oversize) :
    shelve (Function.update L (.bin unsortedBinIdx) u) p (sizeAt N p) (.bin unsortedBinIdx) = u := by
  have hb := (binFor_bounds hs).1
  have h1 : unsortedBinIdx = 1 := rfl
  rw [shelve, Function.update_of_ne, Function.update_self]
  intro e
  have := Shelf.bin.inj e
  omega

theorem ScanResult.cons {r : Option Nat} {N' : Nat → Option Nat} {L' : Shelf → List Nat}
    (hl : L (.bin unsortedBinIdx) = p :: u) (hp : sizeAt N p < nb) (hs : sizeAt N p < oversize)
    (h : ScanResult N (shelve (Function.update L (.bin unsortedBinIdx) u) p (sizeAt N p)) nb r N' L') :
    ScanResult N L nb r N' L' := by
  have hu : shelve (Function.update L (.bin unsortedBinIdx) u) p (sizeAt N p) (.bin unsortedBinIdx) = u :=
    shelve_unsorted hs
  cases h with
  | nothing hall =>
    rw [afterScan_shelve, hu, ← hl]
    refine .nothing fun c hc => ?_
    rw [hl] at hc
    rcases List.mem_cons.mp hc with rfl | hc
    · exact hp
    · exact hall c (by rw [hu]; exact hc)
  | @whole front behind q hl' hfront hlow hup =>
    rw [afterScan_shelve]
    refine .whole (by rw [hl, ← hu, hl', List.cons_append]) (fun c hc => ?_) hlow hup
    rcases List.mem_cons.mp hc with rfl | hc
    · exact hp
    · exact hfront c hc
  | @split front behind q hl' hfront hlow =>
    rw [afterScan_shelve]
    refine .split (by rw [hl, ← hu, hl', List.cons_append]) (fun c hc => ?_) hlow
    rcases List.mem_cons.mp hc with rfl | hc
    · exact hp
    · exact hfront c hc

theorem ScanFits.cons (hl : L (.bin unsortedBinIdx) = p :: u) (hp : sizeAt N p < nb) (hs : sizeAt N p < oversize) :
    ScanFits N (shelve (Function.update L (.bin unsortedBinIdx) u) p (sizeAt N p)) nb ↔ ScanFits N L nb := by
  have hu : shelve (Function.update L (.bin unsortedBinIdx) u) p (sizeAt N p) (.bin unsortedBinIdx) = u :=
    shelve_unsorted hs
  constructor
  · intro h front c behind hsplit hfront
    rw [hl] at hsplit
    cases front with
    | nil =>
      obtain ⟨rfl, rfl⟩ := List.cons.inj hsplit
      exact ⟨fun _ => hs, fun hle => by omega⟩
    | cons q front =>
      obtain ⟨-, htail⟩ := List.cons.inj hsplit
      exact h front c behind (hu.trans htail) fun d hd => hfront d (List.mem_cons_of_mem _ hd)
  · intro h front c behind hsplit hfront
    rw [hu] at hsplit
    refine h (p :: front) c behind (by rw [hl, hsplit, List.cons_append]) fun d hd => ?_
    rcases List.mem_cons.mp hd with rfl | hd
    · exact hp
    · exact hfront d hd

end

/-! ## The steps of the loop -/

section
variable {s : State τ} {k p n nb : Nat} {N : Nat → Option Nat} {L : Shelf → List Nat} {u : List Nat}

theorem State.Lists.hand_run (h : s.Lists k N L) (hp : N p = some n) :
    ∃ s', hand p s = some (some (p + chunkHeader), s') ∧ s'.Lists k N L := by
  have hch := h.chunk p n hp
  have hmark := markInuse_of (h.words p n hp (p + 8) (by omega) (by omega)) (h.head p n hp)
    (h.words p n hp (p + n + 8) (by omega) (by omega))
  unfold hand
  rw [bind_run hmark]
  exact ⟨_, rfl, h.setFlags hp (sizeBits_or_prevInuse _)⟩

/-- The branch for an exact fit in a small bin. -/
theorem State.Lists.takeExact (h : s.Lists k N L) (hl : L (.bin unsortedBinIdx) = p :: u) (hp : N p = some n) :
    ∃ s', (unlinkFreeChunk k p >>= fun _ => hand p) s = some (some (p + chunkHeader), s') ∧
      s'.Lists k N (Function.update L (.bin unsortedBinIdx) u) := by
  have hmem : p ∈ L (.bin unsortedBinIdx) := by simp [hl]
  rw [bind_run (h.unlinkFreeChunk_run hmem)]
  exact (h.unlink_bin (l := []) hl).1.hand_run hp

theorem flags_lt (w : Nat) : (w &&& 7) ||| prevInuseBit < 8 :=
  Nat.or_lt_two_pow (n := 3) (Nat.and_lt_two_pow w (by decide)) (by decide)

/-- A chunk with too little room for another one. -/
theorem State.Lists.takeWhole (h : s.Lists k N L) (hl : L (.bin unsortedBinIdx) = p :: u) (hp : N p = some n)
    (hup : n < nb + minsize) :
    ∃ s', takeUnsorted k nb p n s = some (some (p + chunkHeader), s') ∧
      s'.Lists k N (Function.update L (.bin unsortedBinIdx) u) := by
  have hmem : p ∈ L (.bin unsortedBinIdx) := by simp [hl]
  have h32 : minsize = 32 := rfl
  obtain ⟨h1, hout⟩ := h.unlink_bin (l := []) hl
  have hch := h.chunk p n hp
  have hmap : s.mapped (p + 8) = true := h.words p n hp (p + 8) (by omega) (by omega)
  unfold takeUnsorted
  rw [bind_run (h.unlinkFreeChunk_run hmem), bind_run (chunkFlags_of (by exact hmap)), if_neg (by omega)]
  unfold Words.setHead
  rw [bind_run (store_run (by exact hmap))]
  have hv := sizeBits_or hch.2.1 (by omega) (flags_lt (unlinkMem s.mem p (p + 8)))
  exact State.Lists.hand_run (h1.setHead hp hv) hp

theorem State.Lists.split_run (h : s.Lists k N L) (hl : L (.bin unsortedBinIdx) = p :: u) (hp : N p = some n)
    (h16 : 16 ∣ nb) (hle : nb + minsize ≤ n) (h32 : 32 ≤ nb) :
    ∃ s', takeUnsorted k nb p n s = (pushSorted k (n - nb) (p + nb) >>= fun _ => hand p) s' ∧
      s'.Lists k (cut N p n nb) (Function.update L (.bin unsortedBinIdx) u) := by
  have hmem : p ∈ L (.bin unsortedBinIdx) := by simp [hl]
  have hmin : minsize = 32 := rfl
  obtain ⟨h1, hout⟩ := h.unlink_bin (l := []) hl
  have hch := h.chunk p n hp
  have hflags := flags_lt (unlinkMem s.mem p (p + 8))
  refine ⟨{ s with mem := splitMem (unlinkMem s.mem p) p n nb _ _ }, ?_,
    FreeLists.splitMem h1 hp hout h32 h16 (by omega) hflags hflags⟩
  unfold takeUnsorted
  rw [bind_run (h.unlinkFreeChunk_run hmem),
    bind_run (chunkFlags_of (by exact h.words p n hp (p + 8) (by omega) (by omega))), if_pos (by omega)]
  exact h.splitWords_run hp h32 (by omega) _ _

theorem afterScan_nil (N : Nat → Option Nat) (L : Shelf → List Nat) (u : List Nat) :
    afterScan N L [] u = Function.update L (.bin unsortedBinIdx) u := by
  funext sh
  cases sh with
  | fast i =>
    have hf : Shelf.fast i ≠ .bin unsortedBinIdx := nofun
    rw [afterScan, Function.update_of_ne hf]
  | bin i =>
    rw [afterScan]
    split
    · next hi => rw [hi, Function.update_self]
    · next hi =>
      rw [Function.update_of_ne (fun e => hi (Shelf.bin.inj e))]
      rfl

/-- Where the first chunk is large enough, only the rest of it matters. -/
theorem scanFits_first (hl : L (.bin unsortedBinIdx) = p :: u) (hle : nb ≤ sizeAt N p) :
    ScanFits N L nb ↔ (nb + minsize ≤ sizeAt N p → sizeAt N p - nb < oversize) := by
  constructor
  · exact fun h => (h [] p u hl nofun).2
  · intro h front c behind hsplit hfront
    rw [hl] at hsplit
    cases front with
    | nil =>
      obtain ⟨rfl, -⟩ := List.cons.inj hsplit
      exact ⟨fun hlt => by omega, h⟩
    | cons q front =>
      obtain ⟨rfl, -⟩ := List.cons.inj hsplit
      have := hfront p List.mem_cons_self
      omega

theorem State.Lists.take_run (h : s.Lists k N L) (hl : L (.bin unsortedBinIdx) = p :: u) (hp : N p = some n)
    (h32 : 32 ≤ nb) (h16 : 16 ∣ nb) (hle : nb ≤ n) :
    (ScanFits N L nb → ∃ r s' N' L', takeUnsorted k nb p n s = some (r, s') ∧ s'.Lists k N' L' ∧
      ScanResult N L nb r N' L') ∧
    (¬ ScanFits N L nb → takeUnsorted k nb p n s = none) := by
  have hmin : minsize = 32 := rfl
  have hsize := sizeAt_eq hp
  have hl' : L (.bin unsortedBinIdx) = [] ++ p :: u := hl
  rw [scanFits_first hl (by omega), hsize]
  by_cases hup : n < nb + minsize
  · obtain ⟨s', hrun, h'⟩ := h.takeWhole hl hp hup
    refine ⟨fun _ => ⟨_, s', N, _, hrun, h', ?_⟩, fun hn => absurd (fun hle => by omega) hn⟩
    rw [← afterScan_nil N]
    exact .whole hl' nofun (by omega) (by omega)
  · obtain ⟨s₁, hrun, h₁⟩ := h.split_run hl hp h16 (by omega) h32
    rw [hrun]
    by_cases hover : n - nb < oversize
    · refine ⟨fun _ => ?_, fun hn => absurd (fun _ => hover) hn⟩
      have hb := binFor_bounds hover
      have hrest : cut N p n nb (p + nb) = some (n - nb) := cut_rest (by omega)
      have hout := (h.unlink_bin (l := []) hl).1.not_listed_inside hp (a := p + nb) (by omega) (by omega)
      rw [bind_run ((pushSorted_eq hover).trans (h₁.pushFront_run hb.1.le hb.2 hrest))]
      have h₂ : State.Lists { s₁ with mem := pushMem s₁.mem (sentinel (s₁.arena k).base (binFor (n - nb))) (p + nb) }
          k (cut N p n nb) (shelve (Function.update L (.bin unsortedBinIdx) u) (p + nb) (n - nb)) :=
        h₁.push hb.1.le hb.2 hrest hout
      obtain ⟨s', hrun', h'⟩ := h₂.hand_run cut_self
      refine ⟨_, s', _, _, hrun', h', ?_⟩
      have hres : ScanResult N L nb _ _ _ := .split hl' nofun (by omega)
      rw [afterScan_nil, hsize] at hres
      exact hres
    · refine ⟨fun hfit => absurd (hfit (by omega)) hover, fun _ => ?_⟩
      exact bind_none (pushSorted_oversize (by omega))

/-- The loop, from any point of the unsorted bin on. -/
theorem State.Lists.scan_run (h32 : 32 ≤ nb) (h16 : 16 ∣ nb) {fuel : Nat} (h : s.Lists k N L)
    (hl : L (.bin unsortedBinIdx) = u) (hf : u.length < fuel) :
    (ScanFits N L nb → ∃ r s' N' L',
      scanUnsorted k nb (sentinel (s.arena k).base unsortedBinIdx) fuel
        (u.headD (sentinel (s.arena k).base unsortedBinIdx)) s = some (r, s') ∧
      s'.Lists k N' L' ∧ ScanResult N L nb r N' L') ∧
    (¬ ScanFits N L nb →
      scanUnsorted k nb (sentinel (s.arena k).base unsortedBinIdx) fuel
        (u.headD (sentinel (s.arena k).base unsortedBinIdx)) s = none) := by
  -- by induction on what is left of the bin
  induction u generalizing s L fuel with
  | nil =>
    obtain ⟨fuel, rfl⟩ : ∃ m, fuel = m + 1 := ⟨fuel - 1, by simp at hf; omega⟩
    refine ⟨fun _ => ⟨none, s, N, L, ?_, h, ?_⟩, fun hn => absurd (fun front c behind hsplit => ?_) hn⟩
    · rw [List.headD_nil, scanUnsorted, if_pos (.inl rfl)]
      rfl
    · have hres : ScanResult N L nb none N (afterScan N L (L (.bin unsortedBinIdx)) []) :=
        .nothing (by rw [hl]; exact nofun)
      rw [hl, afterScan_nil, ← hl, Function.update_eq_self] at hres
      exact hres
    · rw [hl] at hsplit
      simp at hsplit
  | cons p u ih =>
    obtain ⟨fuel, rfl⟩ : ∃ m, fuel = m + 1 := ⟨fuel - 1, by simp at hf; omega⟩
    have hmem : p ∈ L (.bin unsortedBinIdx) := by simp [hl]
    obtain ⟨-, n, hp⟩ := h.listed _ p hmem
    have hsize := sizeAt_eq hp
    have hch := h.chunk p n hp
    have hchain := (h.loop unsortedBinIdx (by decide) (by decide)).chain
    rw [hl] at hchain
    obtain ⟨-, hne, htail⟩ := hchain
    have hmap := h.node_mapped (h.node_of_mem hmem)
    have hnext : load (p + 16) s = some (u.headD (sentinel (s.arena k).base unsortedBinIdx), s) := by
      rw [load_run hmap.1, htail.head_eq]
      rfl
    have hcs := chunkSize_of (h.words p n hp (p + 8) (by omega) (by omega)) (h.head p n hp)
    have h0 : ¬ (p = sentinel (s.arena k).base unsortedBinIdx ∨ p = 0) := by
      rintro (e | e)
      · exact hne e
      · omega
    rw [List.headD_cons, scanUnsorted, if_neg h0, bind_run hnext, bind_run hcs]
    by_cases hexact : inSmallbinRange n ∧ n = nb
    · -- an exact fit
      rw [if_pos hexact, scanFits_first hl (by omega), hsize]
      obtain ⟨s', hrun, h'⟩ := h.takeExact hl hp
      have hmin : minsize = 32 := rfl
      refine ⟨fun _ => ⟨_, s', N, _, hrun, h', ?_⟩, fun hn => absurd (fun hle => by omega) hn⟩
      rw [← afterScan_nil N]
      exact .whole (show L _ = [] ++ p :: u from hl) nofun (by omega) (by omega)
    rw [if_neg hexact]
    by_cases hle : nb ≤ n
    · rw [if_pos hle]
      exact h.take_run hl hp h32 h16 hle
    -- too small: it is put away, and the loop goes on
    rw [if_neg hle]
    obtain ⟨h₁, hout⟩ := h.unlink_bin (l := []) hl
    rw [bind_run (h.unlink_run hmem)]
    by_cases hover : n < oversize
    · have hb := binFor_bounds hover
      rw [bind_run ((pushSorted_eq hover).trans (h₁.pushFront_run hb.1.le hb.2 hp))]
      have h₂ : State.Lists
          { s with mem := pushMem (unlinkMem s.mem p) (sentinel (s.arena k).base (binFor n)) p } k N
          (shelve (Function.update L (.bin unsortedBinIdx) u) p (sizeAt N p)) := by
        rw [hsize]
        exact h₁.push hb.1.le hb.2 hp hout
      have hnext := ih h₂ (shelve_unsorted (by omega)) (by simpa using hf : u.length < fuel)
      rw [ScanFits.cons hl (by omega) (by omega)] at hnext
      refine ⟨fun hfit => ?_, hnext.2⟩
      obtain ⟨r, s', N', L', hrun, h', hres⟩ := hnext.1 hfit
      exact ⟨r, s', N', L', hrun, h', hres.cons hl (by omega) (by omega)⟩
    · refine ⟨fun hfit => absurd ((hfit [] p u hl nofun).1 (by omega)) (by omega), fun _ => ?_⟩
      exact bind_none (pushSorted_oversize (by omega))

end

/-! ## Every byte is accounted for -/

/-- The chunk is in a list. -/
def Listed (L : Shelf → List Nat) (c : Nat) : Prop := ∃ sh, c ∈ L sh

/-- The returned chunk has the size and is in no list, and every byte of a listed chunk is one of it
    or, as before, of a listed chunk. -/
structure Conserves (N : Nat → Option Nat) (L : Shelf → List Nat) (nb : Nat) (r : Option Nat)
    (N' : Nat → Option Nat) (L' : Shelf → List Nat) : Prop where
  size : ∀ p, r = some (p + chunkHeader) → ∃ n, N' p = some n ∧ nb ≤ n ∧ n < nb + minsize
  gone : ∀ p, r = some (p + chunkHeader) → ¬ Listed L' p
  bytes : ∀ a, (∃ c, Listed L c ∧ Covers N c a) ↔
    (∃ c, Listed L' c ∧ Covers N' c a) ∨ ∃ p, r = some (p + chunkHeader) ∧ Covers N' p a

section
variable {N : Nat → Option Nat} {L : Shelf → List Nat} {front behind : List Nat} {c p n nb : Nat}

theorem listed_iff : Listed L c ↔ c ∈ L (.bin unsortedBinIdx) ∨ ∃ sh, sh ≠ .bin unsortedBinIdx ∧ c ∈ L sh := by
  constructor
  · rintro ⟨sh, hm⟩
    by_cases e : sh = .bin unsortedBinIdx
    · exact .inl (e ▸ hm)
    · exact .inr ⟨sh, e, hm⟩
  · rintro (hm | ⟨sh, -, hm⟩) <;> exact ⟨_, hm⟩

theorem listed_afterScan : Listed (afterScan N L front behind) c ↔
    (c ∈ front ∨ c ∈ behind) ∨ ∃ sh, sh ≠ .bin unsortedBinIdx ∧ c ∈ L sh := by
  have h1 : unsortedBinIdx = 1 := rfl
  constructor
  · rintro ⟨sh, hm⟩
    cases sh with
    | fast i => exact .inr ⟨.fast i, nofun, hm⟩
    | bin i =>
      rw [afterScan] at hm
      split at hm
      · exact .inl (.inr hm)
      · next hi =>
        rcases List.mem_append.mp hm with hm | hm
        · exact .inl (.inl (List.mem_filter.mp (List.mem_reverse.mp hm)).1)
        · exact .inr ⟨.bin i, fun e => hi (Shelf.bin.inj e), hm⟩
  · rintro ((hm | hm) | ⟨sh, hne, hm⟩)
    · have hb := one_lt_binFor (sizeAt N c)
      refine ⟨.bin (binFor (sizeAt N c)), ?_⟩
      rw [afterScan, if_neg (by omega)]
      exact List.mem_append_left _ (List.mem_reverse.mpr (List.mem_filter.mpr ⟨hm, decide_eq_true rfl⟩))
    · exact ⟨.bin unsortedBinIdx, by rw [afterScan, if_pos rfl]; exact hm⟩
    · refine ⟨sh, ?_⟩
      cases sh with
      | fast i => exact hm
      | bin i =>
        rw [afterScan, if_neg (fun e : i = unsortedBinIdx => hne (congrArg Shelf.bin e))]
        exact List.mem_append_right _ hm

theorem listed_shelve : Listed (shelve L p n) c ↔ c = p ∨ Listed L c := by
  unfold shelve
  constructor
  · rintro ⟨sh, hm⟩
    by_cases e : sh = .bin (binFor n)
    · subst e
      rw [Function.update_self] at hm
      exact (List.mem_cons.mp hm).imp_right fun hm => ⟨_, hm⟩
    · rw [Function.update_of_ne e] at hm
      exact .inr ⟨sh, hm⟩
  · rintro (rfl | ⟨sh, hm⟩)
    · exact ⟨.bin (binFor n), by rw [Function.update_self]; exact List.mem_cons_self⟩
    · refine ⟨sh, ?_⟩
      by_cases e : sh = .bin (binFor n)
      · subst e
        rw [Function.update_self]
        exact List.mem_cons_of_mem _ hm
      · rwa [Function.update_of_ne e]

/-- A chunk taken from the unsorted bin is the only one that is missing. -/
theorem listed_take (hl : L (.bin unsortedBinIdx) = front ++ p :: behind) :
    Listed L c ↔ c = p ∨ Listed (afterScan N L front behind) c := by
  rw [listed_afterScan, listed_iff, hl, List.mem_append, List.mem_cons]
  tauto

theorem not_listed_take {s : State τ} {k : Nat} (h : s.Lists k N L)
    (hl : L (.bin unsortedBinIdx) = front ++ p :: behind) : ¬ Listed (afterScan N L front behind) p := by
  have hp : p ∈ L (.bin unsortedBinIdx) := by simp [hl]
  have hnd := (h.loop unsortedBinIdx (by decide) (by decide)).nodup
  rw [hl, List.nodup_append] at hnd
  obtain ⟨-, hback, hdis⟩ := hnd
  rw [listed_afterScan]
  rintro ((hm | hm) | ⟨sh, hne, hm⟩)
  · exact hdis p hm p List.mem_cons_self rfl
  · exact (List.nodup_cons.mp hback).1 hm
  · exact hne (h.once sh _ p hm hp)

theorem covers_cut {a : Nat} (hp : N p = some n) (hpos : 0 < nb) (hle : nb ≤ n) :
    Covers N p a ↔ Covers (cut N p n nb) p a ∨ Covers (cut N p n nb) (p + nb) a := by
  unfold Covers
  rw [hp, cut_self, cut_rest hpos]
  simp only [Option.some.injEq, exists_eq_left']
  omega

end

theorem ScanResult.conserves {s : State τ} {k nb : Nat} {N N' : Nat → Option Nat} {L L' : Shelf → List Nat}
    {r : Option Nat} (h : s.Lists k N L) (h32 : 32 ≤ nb) (hr : ScanResult N L nb r N' L') :
    Conserves N L nb r N' L' := by
  have hmin : minsize = 32 := rfl
  cases hr with
  | nothing hall =>
    refine ⟨nofun, nofun, fun a => ?_⟩
    have hsame : ∀ c, Listed (afterScan N L (L (.bin unsortedBinIdx)) []) c ↔ Listed L c := by
      intro c
      rw [listed_afterScan, listed_iff]
      simp
    simp [hsame]
  | @whole front behind p hl hfront hlow hup =>
    obtain ⟨-, n, hp⟩ := h.listed (.bin unsortedBinIdx) p (by simp [hl])
    rw [sizeAt_eq hp] at hlow hup
    refine ⟨fun q hq => ?_, fun q hq => ?_, fun a => ?_⟩
    · obtain rfl : p = q := Nat.add_right_cancel (Option.some.inj hq)
      exact ⟨n, hp, hlow, hup⟩
    · obtain rfl : p = q := Nat.add_right_cancel (Option.some.inj hq)
      exact not_listed_take h hl
    · constructor
      · rintro ⟨c, hc, ha⟩
        rcases (listed_take hl).mp hc with rfl | hc
        · exact .inr ⟨c, rfl, ha⟩
        · exact .inl ⟨c, hc, ha⟩
      · rintro (⟨c, hc, ha⟩ | ⟨q, hq, ha⟩)
        · exact ⟨c, (listed_take hl).mpr (.inr hc), ha⟩
        · obtain rfl : p = q := Nat.add_right_cancel (Option.some.inj hq)
          exact ⟨p, (listed_take (N := N) hl).mpr (.inl rfl), ha⟩
  | @split front behind p hl hfront hlow =>
    obtain ⟨-, n, hp⟩ := h.listed (.bin unsortedBinIdx) p (by simp [hl])
    rw [sizeAt_eq hp] at *
    -- a listed chunk other than `p` is as before
    have hkeep : ∀ c, Listed (afterScan N L front behind) c → cut N p n nb c = N c := by
      intro c hc
      obtain ⟨sh, hm⟩ := (listed_take hl).mpr (.inr hc)
      obtain ⟨-, m, hm⟩ := h.listed sh c hm
      refine cut_of_ne (fun e => not_listed_take h hl (e ▸ hc)) fun e => ?_
      have := h.apart p n c m hp hm (by omega)
      omega
    have hcut : ∀ a, Covers N p a ↔ Covers (cut N p n nb) p a ∨ Covers (cut N p n nb) (p + nb) a :=
      fun a => covers_cut hp (by omega) (by omega)
    refine ⟨fun q hq => ?_, fun q hq => ?_, fun a => ?_⟩
    · obtain rfl : p = q := Nat.add_right_cancel (Option.some.inj hq)
      exact ⟨nb, cut_self, by omega, by omega⟩
    · obtain rfl : p = q := Nat.add_right_cancel (Option.some.inj hq)
      rw [listed_shelve]
      rintro (e | hc)
      · omega
      · exact not_listed_take h hl hc
    · constructor
      · rintro ⟨c, hc, ha⟩
        rcases (listed_take hl).mp hc with rfl | hc
        · rcases (hcut a).mp ha with ha | ha
          · exact .inr ⟨c, rfl, ha⟩
          · exact .inl ⟨c + nb, listed_shelve.mpr (.inl rfl), ha⟩
        · exact .inl ⟨c, listed_shelve.mpr (.inr hc), by unfold Covers; rw [hkeep c hc]; exact ha⟩
      · rintro (⟨c, hc, ha⟩ | ⟨q, hq, ha⟩)
        · rcases listed_shelve.mp hc with rfl | hc
          · exact ⟨p, (listed_take (N := N) hl).mpr (.inl rfl), (hcut a).mpr (.inr ha)⟩
          · exact ⟨c, (listed_take hl).mpr (.inr hc), by unfold Covers at *; rw [← hkeep c hc]; exact ha⟩
        · obtain rfl : p = q := Nat.add_right_cancel (Option.some.inj hq)
          exact ⟨p, (listed_take (N := N) hl).mpr (.inl rfl), (hcut a).mpr (.inl ha)⟩

/-! ## The scan -/

theorem State.Lists.unsortedScan_run {s : State τ} {k nb : Nat} {N : Nat → Option Nat} {L : Shelf → List Nat}
    (h32 : 32 ≤ nb) (h16 : 16 ∣ nb) (h : s.Lists k N L) :
    (ScanFits N L nb → ∃ r s' N' L', unsortedScan k nb s = some (r, s') ∧ s'.Lists k N' L' ∧
      ScanResult N L nb r N' L' ∧ Conserves N L nb r N' L') ∧
    (¬ ScanFits N L nb → unsortedScan k nb s = none) := by
  have hloop := h.loop unsortedBinIdx (by decide) (by decide)
  have hlen := (h.walk hloop.nodup).2
  have hsnt : Node (s.arena k).base N (sentinel (s.arena k).base unsortedBinIdx) :=
    FreeLists.node_sentinel (by decide) (by decide)
  have hbin : unsortedBin k s = some (sentinel (s.arena k).base unsortedBinIdx, s) := rfl
  have hfirst : load (sentinel (s.arena k).base unsortedBinIdx + 16) s =
      some ((L (.bin unsortedBinIdx)).headD (sentinel (s.arena k).base unsortedBinIdx), s) := by
    rw [load_run (h.node_mapped hsnt).1]
    exact congrArg (fun a => some (a, s)) hloop.chain.head_eq.symm
  obtain ⟨hyes, hno⟩ := h.scan_run h32 h16 rfl hlen
  unfold unsortedScan
  rw [gets_bind, bind_run hbin, bind_run hfirst]
  refine ⟨fun hfit => ?_, hno⟩
  obtain ⟨r, s', N', L', hrun, h', hres⟩ := hyes hfit
  exact ⟨r, s', N', L', hrun, h', hres, hres.conserves h h32⟩

/-- From any well-formed lists, and for any request, the scan ends as `ScanResult` says, with no chunk
    and no byte lost, exactly if it has no chunk of 458752 bytes or more to put away. -/
theorem unsorted_scan_iff {s : State τ} {k : Nat} {N : Nat → Option Nat} {L : Shelf → List Nat}
    (h : s.Lists k N L) (n : Nat) :
    (∃ r s' N' L', unsortedScan k (request2size n) s = some (r, s') ∧ s'.Lists k N' L' ∧
      ScanResult N L (request2size n) r N' L' ∧ Conserves N L (request2size n) r N' L') ↔
    ScanFits N L (request2size n) := by
  obtain ⟨h32, h16, -⟩ := request2size_spec n
  obtain ⟨hyes, hno⟩ := h.unsortedScan_run h32 h16
  refine ⟨fun ⟨r, s', N', L', hrun, _⟩ => ?_, hyes⟩
  by_contra hfit
  rw [hno hfit] at hrun
  cases hrun

/-- An arena at 4096 whose one chunk, at 2^20, is in the unsorted bin. -/
def soleUnsorted (n : Nat) : State Unit where
  mem := pushMem (initBins 4096 (fun a => if a = 1048584 then n + 1 else 0)) (sentinel 4096 unsortedBinIdx) 1048576
  regions := [⟨4096, 4096⟩, ⟨1048576, 1048576⟩]
  mmapCalls := 2
  arena := fun _ => ⟨4096, 0, 0, fun _ => 0⟩
  narenas := 1
  heaps := []
  initialised := true
  mainLocked := false
  threadArena := fun _ => none
  tcache := fun _ => none
  mmapThreshold := 131072

def soleChunk (n : Nat) : Nat → Option Nat := Function.update (fun _ => none) 1048576 (some n)

def soleList : Shelf → List Nat := Function.update (fun _ => []) (.bin unsortedBinIdx) [1048576]

theorem soleChunk_some {n c m : Nat} (h : soleChunk n c = some m) : c = 1048576 ∧ m = n := by
  by_cases hc : c = 1048576
  · subst hc
    rw [soleChunk, Function.update_self] at h
    exact ⟨rfl, (Option.some.inj h).symm⟩
  · rw [soleChunk, Function.update_of_ne hc] at h
    cases h

theorem soleUnsorted_init {n : Nat} (h32 : 32 ≤ n) (h16 : 16 ∣ n) (hn : n ≤ 1048560) :
    FreeLists (soleUnsorted n).mapped (initBins 4096 (fun a => if a = 1048584 then n + 1 else 0)) 4096 (fun _ => 0)
      (soleChunk n) (fun _ => []) := by
  have hmapped : ∀ a, (4096 ≤ a ∧ a + 8 ≤ 8192) ∨ (1048576 ≤ a ∧ a + 8 ≤ 2097152) →
      (soleUnsorted n).mapped a = true := by
    intro a ha
    unfold State.mapped soleUnsorted
    simp only [List.any_cons, List.any_nil, Bool.or_false, Bool.or_eq_true, decide_eq_true_eq]
    omega
  refine .init (fun c m h => ?_) (fun c m d m' h h' hlt => ?_) (fun c m h a h1 h2 => ?_) (fun c m h => ?_)
    (fun a h1 h2 => ?_) (fun c m h => ?_)
  · obtain ⟨rfl, rfl⟩ := soleChunk_some h
    omega
  · obtain ⟨rfl, rfl⟩ := soleChunk_some h
    obtain ⟨rfl, rfl⟩ := soleChunk_some h'
    omega
  · obtain ⟨rfl, rfl⟩ := soleChunk_some h
    exact hmapped a (by omega)
  · obtain ⟨rfl, rfl⟩ := soleChunk_some h
    rw [if_pos rfl, ← or_flags h16 (by decide : (1 : Nat) < 16)]
    exact sizeBits_or h16 (by omega) (by decide)
  · exact hmapped a (by omega)
  · obtain ⟨rfl, rfl⟩ := soleChunk_some h
    omega

theorem lists_soleUnsorted {n : Nat} (h32 : 32 ≤ n) (h16 : 16 ∣ n) (hn : n ≤ 1048560) :
    (soleUnsorted n).Lists 0 (soleChunk n) soleList :=
  (soleUnsorted_init h32 h16 hn).push (by decide) (by decide) (Function.update_self ..) nofun

/-- A chunk of 64 bytes and a request of 24: the chunk is split. -/
theorem unsorted_scan_splits : ∃ r s' N' L',
    unsortedScan 0 (request2size 24) (soleUnsorted 64) = some (r, s') ∧ s'.Lists 0 N' L' ∧
      ScanResult (soleChunk 64) soleList (request2size 24) r N' L' ∧
      Conserves (soleChunk 64) soleList (request2size 24) r N' L' := by
  refine (unsorted_scan_iff (lists_soleUnsorted (by decide) (by decide) (by decide)) 24).mpr ?_
  intro front c behind hl _
  have hc : c ∈ soleList (.bin unsortedBinIdx) := by simp [hl]
  obtain rfl : c = 1048576 := List.mem_singleton.mp hc
  have hsize : sizeAt (soleChunk 64) 1048576 = 64 := rfl
  have hnb : request2size 24 = 32 := by decide
  have hover : oversize = 458752 := rfl
  rw [hsize, hnb, hover]
  omega

/-- A chunk of 500016 bytes and a request of 510000: the scan has no bin for the chunk. -/
theorem unsorted_scan_overruns : ∃ (s : State Unit) (N : Nat → Option Nat) (L : Shelf → List Nat),
    s.Lists 0 N L ∧ L (.bin unsortedBinIdx) = [1048576] ∧ N 1048576 = some 500016 ∧
      unsortedScan 0 (request2size 510000) s = none := by
  have h := lists_soleUnsorted (n := 500016) (by decide) (by decide) (by decide)
  obtain ⟨h32, h16, -⟩ := request2size_spec 510000
  refine ⟨_, _, _, h, rfl, rfl, (h.unsortedScan_run h32 h16).2 fun hfit => ?_⟩
  have hsize : sizeAt (soleChunk 500016) 1048576 = 500016 := rfl
  have hnb : request2size 510000 = 510016 := by decide
  have hover : oversize = 458752 := rfl
  have := (hfit [] 1048576 [] rfl nofun).1
  rw [hsize, hnb, hover] at this
  omega

end MyMalloc.Ptmalloc.Words
