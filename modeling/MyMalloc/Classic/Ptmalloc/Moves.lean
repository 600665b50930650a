import MyMalloc.Lib.Update
import MyMalloc.Classic.Ptmalloc.Invariant

/- The moves of a heap, and that each keeps the invariant.

   A block goes to and from a tcache, is lost, or is cut from the top chunk; a block
   grows into the top chunk; a heap or an arena is added; the user writes. Each is
   stated for the memory and the records as the code leaves them. -/
namespace MyMalloc.Ptmalloc.Words

variable {τ : Type}

/-! ## A new status -/

section
variable {mem : Nat → Nat} {heaps : List Heap} {B : Blocks τ} {c n : Nat} {b : Block τ}

theorem retag_iff (hc : B c = some b) {st st' : Status τ} (hold : b.status ≠ st') (hst : st ≠ st') {d m : Nat} :
    Function.update B c (some ⟨n, st⟩) d = some ⟨m, st'⟩ ↔ B d = some ⟨m, st'⟩ := by
  refine update_eq_iff (fun h => hst (Block.mk.inj (Option.some.inj h)).2) (fun h => hold ?_)
  rw [Option.some.inj (hc.symm.trans h)]

theorem Cells.retag (h : Cells mem heaps B) (hc : B c = some b) (st : Status τ) :
    Cells mem heaps (Function.update B c (some ⟨b.size, st⟩)) where
  laid := h.laid.retag hc st
  fence := h.fence
  head d b' hd := by
    rcases update_cases hd with ⟨rfl, hb⟩ | ⟨-, hd⟩
    · exact Option.some.inj hb ▸ h.head d b hc
    · exact h.head d b' hd

theorem Tops.retag {arena : Nat → Arena} {narenas : Nat} (h : Tops heaps B arena narenas)
    (hc : B c = some b) (hold : ∀ k, b.status ≠ .top k) {st : Status τ} (hst : ∀ k, st ≠ .top k) :
    Tops heaps (Function.update B c (some ⟨n, st⟩)) arena narenas where
  top k hk := (h.top k hk).imp_right fun ⟨m, hm, hf⟩ => ⟨m, (retag_iff hc (hold k) (hst k)).mpr hm, hf⟩
  only d m k hd := h.only d m k ((retag_iff hc (hold k) (hst k)).mp hd)

theorem Side.retag {R : Regime} (h : Side R heaps B) (hc : B c = some b)
    (hold : ∀ k, b.status ≠ .top k) {st : Status τ} (hst : R.lossy = false → st ≠ .lost) :
    Side R heaps (Function.update B c (some ⟨b.size, st⟩)) where
  kept hR d b' hd := by
    rcases update_cases hd with ⟨-, hb⟩ | ⟨-, hd⟩
    · exact Option.some.inj hb ▸ hst hR
    · exact h.kept hR d b' hd
  small hR d b' hd hnt := by
    rcases update_cases hd with ⟨rfl, hb⟩ | ⟨-, hd⟩
    · exact Option.some.inj hb ▸ h.small hR d b hc hold
    · exact h.small hR d b' hd hnt

end

/-! ## Tcaches -/

section
variable [DecidableEq τ]

omit [DecidableEq τ] in
theorem cached_ne {t u : τ} {i j : Nat} (h : u ≠ t ∨ j ≠ i) : (.cached t i : Status τ) ≠ .cached u j := by
  rintro ⟨⟩
  exact h.elim (· rfl) (· rfl)

/-- The lists with that of `t` and `i` replaced. -/
def setList (L : τ → Nat → List Nat) (t : τ) (i : Nat) (l : List Nat) : τ → Nat → List Nat :=
  Function.update L t (Function.update (L t) i l)

theorem setList_self (L : τ → Nat → List Nat) (t : τ) (i : Nat) (l : List Nat) :
    setList L t i l t i = l := by
  rw [setList, Function.update_self, Function.update_self]

theorem setList_of_ne (L : τ → Nat → List Nat) {t u : τ} {i j : Nat} (l : List Nat)
    (h : u ≠ t ∨ j ≠ i) : setList L t i l u j = L u j := by
  unfold setList
  by_cases hu : u = t
  · subst hu
    rw [Function.update_self, Function.update_of_ne (h.resolve_left (fun hne => hne rfl))]
  · rw [Function.update_of_ne hu]

/-- The tcache with the head and the count of bin `i` replaced. -/
def Tcache.set (tc : Tcache) (i head count : Nat) : Tcache where
  bins := Function.update tc.bins i head
  count := Function.update tc.count i count

section bins
variable {tcache : τ → Option Tcache} {t u : τ} {tc : Tcache} {i j head count : Nat}

theorem bin_set : binHead (Function.update tcache t (some (tc.set i head count)) t) i = head ∧
    binCount (Function.update tcache t (some (tc.set i head count)) t) i = count := by
  rw [Function.update_self]
  simp [binHead, binCount, Tcache.set]

theorem bin_set_of_ne (ht : tcache t = some tc) (h : u ≠ t ∨ j ≠ i) :
    binHead (Function.update tcache t (some (tc.set i head count)) u) j = binHead (tcache u) j ∧
      binCount (Function.update tcache t (some (tc.set i head count)) u) j = binCount (tcache u) j := by
  by_cases hu : u = t
  · subst hu
    have hj := h.resolve_left (fun hne => hne rfl)
    rw [Function.update_self, ht]
    simp [binHead, binCount, Tcache.set, Function.update_of_ne hj]
  · rw [Function.update_of_ne hu]
    exact ⟨rfl, rfl⟩

omit [DecidableEq τ] in
theorem same_bin_or (u t : τ) (j i : Nat) : (u = t ∧ j = i) ∨ (u ≠ t ∨ j ≠ i) := by tauto

end bins

/-- A list whose chunks are given: it changes at one place, with the status of one chunk. -/
theorem Shelves.setList {mem mem' : Nat → Nat} {tcache : τ → Option Tcache} {B B' : Blocks τ}
    {L : τ → Nat → List Nat} (h : Shelves mem tcache B L) {t : τ} {i : Nat} {tc : Tcache}
    (ht : tcache t = some tc) {l : List Nat} {head : Nat}
    (hmem : ∀ u j c, (u ≠ t ∨ j ≠ i) → c ∈ L u j → mem' (c + chunkHeader) = mem (c + chunkHeader))
    (hchain : Chain 0 mem' head (l.map (· + chunkHeader))) (hlimit : l.length ≤ tcacheFillCount)
    (hl : ∀ c, c ∈ l ↔ ∃ n, B' c = some ⟨n, .cached t i⟩)
    (hsame : ∀ u j c n, (u ≠ t ∨ j ≠ i) →
      (B' c = some ⟨n, .cached u j⟩ ↔ B c = some ⟨n, .cached u j⟩))
    (hsize : ∀ c n, B' c = some ⟨n, .cached t i⟩ →
      i < tcacheMaxBins ∧ n = (i + 2) * 16 ∧ i ≠ 1) :
    Shelves mem' (Function.update tcache t (some (tc.set i head l.length))) B'
      (Words.setList L t i l) where
  chain u j := by
    rcases same_bin_or u t j i with ⟨rfl, rfl⟩ | hne
    · rw [bin_set.1, setList_self]
      exact hchain
    · rw [(bin_set_of_ne ht hne).1, setList_of_ne L l hne]
      refine (h.chain u j).congr (fun a ha => ?_)
      obtain ⟨c, hc, rfl⟩ := List.mem_map.mp ha
      exact hmem u j c hne hc
  mem_iff u j c := by
    rcases same_bin_or u t j i with ⟨rfl, rfl⟩ | hne
    · rw [setList_self]
      exact hl c
    · rw [setList_of_ne L l hne, h.mem_iff u j c]
      exact exists_congr (fun n => (hsame u j c n hne).symm)
  size c n u j hc := by
    rcases same_bin_or u t j i with ⟨rfl, rfl⟩ | hne
    · exact hsize c n hc
    · exact h.size c n u j ((hsame u j c n hne).mp hc)
  count u j := by
    rcases same_bin_or u t j i with ⟨rfl, rfl⟩ | hne
    · rw [bin_set.2, setList_self]
    · rw [(bin_set_of_ne ht hne).2, setList_of_ne L l hne]
      exact h.count u j
  limit u j := by
    rcases same_bin_or u t j i with ⟨rfl, rfl⟩ | hne
    · rw [setList_self]
      exact hlimit
    · rw [setList_of_ne L l hne]
      exact h.limit u j

namespace Inv
variable {R : Regime} {s : State τ} {B : Blocks τ} {L : τ → Nat → List Nat} {c n : Nat}

omit [DecidableEq τ] in
theorem entry_off (inv : Inv R s B L) {b : Block τ} (hc : B c = some b) {t : τ} {i d : Nat}
    (hd : d ∈ L t i) : d + chunkHeader ≠ c + 56 := by
  have h48 : chunkHeader = 48 := rfl
  obtain ⟨m, hm⟩ := (inv.shelves.mem_iff t i d).mp hd
  have h1 := inv.cells.laid.aligned hm
  have h2 := inv.cells.laid.aligned hc
  omega

theorem pop (inv : Inv R s B L) {t : τ} {i : Nat} {tc : Tcache} {l : List Nat}
    (ht : s.tcache t = some tc) (hL : L t i = c :: l) (hn : B c = some ⟨n, .cached t i⟩) :
    Inv R { s with
        tcache := Function.update s.tcache t (some (tc.set i (s.mem (c + chunkHeader)) l.length))
        mem := Function.update s.mem (c + 56) 0 }
      (Function.update B c (some ⟨n, .live⟩)) (setList L t i l) := by
  have hsz := inv.shelves.size c n t i hn
  have hnd : (c :: l).Nodup := by
    have hch := (inv.shelves.chain t i).nodup
    rw [hL] at hch
    exact List.Nodup.of_map _ hch
  have hcl : c ∉ l := (List.nodup_cons.mp hnd).1
  have hw : Within s.heaps s.mem (Function.update s.mem (c + 56) 0) :=
    inv.within_block hn (Within.refl _ _) (by omega) (by
      have := (inv.cells.laid.sizes c _ hn).1
      dsimp only at this ⊢
      omega)
  have hcells : Cells (Function.update s.mem (c + 56) 0) s.heaps B := by
    apply inv.cells.frame
    intro d hd
    rw [Function.update_of_ne]
    exact (inv.cells.key_off hn (by dsimp only; omega) hd).symm
  refine
    { inv with
      cells := hcells.retag hn .live
      shelves := inv.shelves.setList ht ?_ ?_ ?_ ?_ ?_ ?_
      arenas := fun k hk => inv.arenas_frame hw hk
      tops := inv.tops.retag hn nofun nofun
      side := inv.side.retag hn nofun nofun }
  · intro u j d _ hd
    exact Function.update_of_ne (inv.entry_off hn hd) _ _
  · have hch := inv.shelves.chain t i
    rw [hL] at hch
    refine hch.2.2.congr (fun a ha => ?_)
    obtain ⟨d, hd, rfl⟩ := List.mem_map.mp ha
    have hdL : d ∈ L t i := by rw [hL]; exact List.mem_cons_of_mem _ hd
    exact Function.update_of_ne (inv.entry_off hn hdL) _ _
  · have hlim := inv.shelves.limit t i
    rw [hL, List.length_cons] at hlim
    omega
  · intro d
    by_cases hdc : d = c
    · subst hdc
      simp [hcl]
    · rw [Function.update_of_ne hdc, ← inv.shelves.mem_iff t i d, hL, List.mem_cons]
      simp [hdc]
  · intro u j d m hne
    exact retag_iff hn (cached_ne hne) (by nofun)
  · intro d m hd
    rcases update_cases hd with ⟨-, hb⟩ | ⟨-, hd⟩
    · cases hb
    · exact inv.shelves.size d m t i hd

theorem push (inv : Inv R s B L) {t : τ} {i : Nat} {tc : Tcache} (ht : s.tcache t = some tc)
    (hn : B c = some ⟨n, .live⟩) (hi : i < tcacheMaxBins) (hni : n = (i + 2) * 16) (hi1 : i ≠ 1)
    (hlen : (L t i).length < tcacheFillCount) :
    Inv R { s with
        mem := Function.update (Function.update s.mem (c + chunkHeader) (tc.bins i)) (c + 56) c
        tcache := Function.update s.tcache t
          (some (tc.set i (c + chunkHeader) ((L t i).length + 1))) }
      (Function.update B c (some ⟨n, .cached t i⟩)) (setList L t i (c :: L t i)) := by
  have h48 : chunkHeader = 48 := rfl
  have hsz := (inv.cells.laid.sizes c _ hn).1
  dsimp only at hsz
  have hout : ∀ u j, c ∉ L u j := fun u j => inv.shelves.notMem hn nofun
  have hw : Within s.heaps s.mem
      (Function.update (Function.update s.mem (c + chunkHeader) (tc.bins i)) (c + 56) c) :=
    inv.within_block hn (inv.within_block hn (Within.refl _ _) (by omega) (by dsimp only; omega))
      (by omega) (by dsimp only; omega)
  have hcells : Cells (Function.update (Function.update s.mem (c + chunkHeader) (tc.bins i))
      (c + 56) c) s.heaps B := by
    apply inv.cells.frame
    intro d hd
    have hal := inv.cells.starts_aligned hd
    have hal' := inv.cells.laid.aligned hn
    rw [Function.update_of_ne (inv.cells.key_off hn (by dsimp only; omega) hd).symm,
      Function.update_of_ne (by omega)]
  -- the link of another chunk is neither of the two words written
  have hlink : ∀ u j d, d ∈ L u j →
      Function.update (Function.update s.mem (c + chunkHeader) (tc.bins i)) (c + 56) c
        (d + chunkHeader) = s.mem (d + chunkHeader) := by
    intro u j d hd
    have hdc : d ≠ c := fun heq => hout u j (heq ▸ hd)
    rw [Function.update_of_ne (inv.entry_off hn hd), Function.update_of_ne (by omega)]
  refine
    { inv with
      cells := hcells.retag hn (.cached t i)
      shelves := inv.shelves.setList (l := c :: L t i) ht (fun u j d _ hd => hlink u j d hd)
        ?_ ?_ ?_ ?_ ?_
      arenas := fun k hk => inv.arenas_frame hw hk
      tops := inv.tops.retag hn nofun nofun
      side := inv.side.retag hn nofun nofun }
  · refine ⟨rfl, Nat.ne_of_gt (Nat.add_pos_right c (by decide)), ?_⟩
    have hch := inv.shelves.chain t i
    rw [ht] at hch
    have hhead : Function.update (Function.update s.mem (c + chunkHeader) (tc.bins i)) (c + 56) c
        (c + chunkHeader) = binHead (some tc) i := by
      rw [Function.update_of_ne (by omega), Function.update_self]
      rfl
    dsimp only
    rw [hhead]
    refine hch.congr (fun a ha => ?_)
    obtain ⟨d, hd, rfl⟩ := List.mem_map.mp ha
    exact hlink t i d hd
  · rw [List.length_cons]
    omega
  · intro d
    by_cases hdc : d = c
    · subst hdc
      simp
    · rw [Function.update_of_ne hdc, ← inv.shelves.mem_iff t i d, List.mem_cons]
      simp [hdc]
  · intro u j d m hne
    exact retag_iff hn (by nofun) (cached_ne hne)
  · intro d m hd
    rcases update_cases hd with ⟨-, hb⟩ | ⟨-, hd⟩
    · obtain rfl := (Block.mk.inj (Option.some.inj hb)).1
      exact ⟨hi, hni, hi1⟩
    · exact inv.shelves.size d m t i hd

end Inv

end

namespace Inv
variable {R : Regime} {s : State τ} {B : Blocks τ} {L : τ → Nat → List Nat} {c n : Nat}

/-- The lists of the tcaches where no status that is or was cached changes. -/
theorem shelves_retag (inv : Inv R s B L) {b : Block τ} (hc : B c = some b) {st : Status τ}
    (hold : ∀ t i, b.status ≠ .cached t i) (hst : ∀ t i, st ≠ .cached t i) :
    Shelves s.mem s.tcache (Function.update B c (some ⟨n, st⟩)) L := by
  have hsame : ∀ d m t i, (Function.update B c (some ⟨n, st⟩) d = some ⟨m, .cached t i⟩ ↔
      B d = some ⟨m, .cached t i⟩) := fun d m t i => retag_iff hc (hold t i) (hst t i)
  exact
    { inv.shelves with
      mem_iff := fun t i d => by
        rw [inv.shelves.mem_iff t i d]
        exact exists_congr (fun m => (hsame d m t i).symm)
      size := fun d m t i hd => inv.shelves.size d m t i ((hsame d m t i).mp hd) }

theorem lose (inv : Inv R s B L) (hR : R.lossy = true) (hn : B c = some ⟨n, .live⟩) :
    Inv R s (Function.update B c (some ⟨n, .lost⟩)) L :=
  { inv with
    cells := inv.cells.retag hn .lost
    shelves := inv.shelves_retag hn nofun nofun
    tops := inv.tops.retag hn nofun nofun
    side := inv.side.retag hn nofun (fun h => absurd h (by rw [hR]; decide)) }

theorem write (inv : Inv R s B L) {a v : Nat} (hin : ∃ g ∈ s.heaps, g.region.Has a)
    (hheads : ∀ d, Starts s.heaps B d → a ≠ d + 8)
    (hlinks : ∀ t i d, d ∈ L t i → a ≠ d + chunkHeader) :
    Inv R { s with mem := Function.update s.mem a v } B L := by
  obtain ⟨g, hg, ha⟩ := hin
  exact
    { inv with
      cells := inv.cells.frame (fun d hd => Function.update_of_ne (hheads d hd).symm _ _)
      shelves := inv.shelves.frame (fun t i d hd =>
        Function.update_of_ne (hlinks t i d hd).symm _ _)
      arenas := fun k hk => inv.arenas_frame ((Within.refl _ _).update hg ha) hk }

end Inv

end MyMalloc.Ptmalloc.Words
