import MyMalloc.Classic.Ptmalloc.Requests

/- `pt_free` into a tcache, and `pt_realloc`.

   A block is released to the tcache of the calling thread, unless the word that is
   the key of a tcache entry is not zero: then the block is taken for one that was
   freed before, and is lost. For a chunk of 48 bytes that word is the header of the
   chunk after it, so it is always lost.

   `pt_realloc` leaves a block where it is if that is large enough, or if the top
   chunk follows it and has room; else it moves it. -/
namespace MyMalloc.Ptmalloc.Words

open Exec

variable {τ : Type} {R : Regime} {s : State τ} {B : Blocks τ} {L : τ → Nat → List Nat}
  {host : Host} {c n nb : Nat} {t : τ}

/-! ## Free -/

/-- The tcache of `t` takes the block at `p`, or the block may be lost and is. -/
def RoomFor (lossy : Bool) (s : State τ) (t : τ) (p : Nat) : Prop :=
  s.sizeAt (p - chunkHeader) ≤ 1040 ∧
  ((lossy = true ∧ s.mem (p + 8) ≠ 0) ∨ (s.mem (p + 8) = 0 ∧
    binCount (s.tcache t) (csize2tidx (s.sizeAt (p - chunkHeader))) < tcacheFillCount))

/-- `c` is no longer the user's, all other blocks of the user stay. -/
def Released (B B' : Blocks τ) (c : Nat) : Prop :=
  ∀ x m, B' x = some ⟨m, .live⟩ ↔ B x = some ⟨m, .live⟩ ∧ x ≠ c

theorem released_retag {st : Status τ} (hst : st ≠ .live) :
    Released B (Function.update B c (some ⟨n, st⟩)) c := by
  intro x m
  by_cases hx : x = c
  · subst hx
    rw [Function.update_self]
    constructor
    · intro h
      exact absurd (Block.mk.inj (Option.some.inj h)).2 hst
    · exact fun h => absurd rfl h.2
  · rw [Function.update_of_ne hx]
    exact ⟨fun h => ⟨h, hx⟩, fun h => h.1⟩

section
variable [DecidableEq τ]

omit [DecidableEq τ] in
theorem Inv.key_ne_zero (inv : Inv R s B L) {b : Block τ} (hc : B c = some b) (h48 : b.size = 48) :
    s.mem (c + 56) ≠ 0 := by
  obtain ⟨m, -, -, hhead⟩ := inv.cells.head_next hc
  rw [h48] at hhead
  exact hhead.ne_zero

omit [DecidableEq τ] in
theorem Inv.sizeAt_user (inv : Inv R s B L) {b : Block τ} (hc : B c = some b) :
    s.sizeAt (c + chunkHeader - chunkHeader) = b.size := by
  rw [Nat.add_sub_cancel]
  exact inv.cells.sizeBits_eq hc

/-- A header that passes the checks of `pt_free`: the tcache is asked first. -/
theorem ptFree_of (hm : s.mapped (c + 8) = true) (hsize : s.sizeAt c = n) (hlow : 32 ≤ n) (hd : 16 ∣ n)
    (hflag : s.mem (c + 8) &&& isMmappedBit = 0) :
    Words.ptFree t (c + chunkHeader) s =
      (freeToTcache t c n >>= fun done => if done then pure () else freeToArena c n) s := by
  have h48 : chunkHeader = 48 := rfl
  have hvalid : validSize n = true := decide_eq_true ⟨hlow, Nat.mod_eq_zero_of_dvd hd⟩
  unfold Words.ptFree
  rw [if_neg (by omega), Nat.add_sub_cancel, bind_run (load_run hm), show sizeBits (s.mem (c + 8)) = n from hsize,
    if_neg (by rw [hvalid]; decide), if_neg (not_not_intro hflag)]

/-- The key of a block that the tcache could hold is looked at. -/
theorem freeToTcache_of (hm : s.mapped (c + chunkHeader + 8) = true) (hlow : 32 ≤ n) (hle : n ≤ 1040) {tc : Tcache}
    (htc : s.tcache t = some tc) :
    freeToTcache t c n s = if s.mem (c + 56) ≠ 0 then some (true, s)
      else tcacheFree t tc (csize2tidx n) c s := by
  have h64 : tcacheMaxBins = 64 := rfl
  have hidx := csize2tidx_eq hlow (by omega)
  have hrange : inTcacheRange n = true := decide_eq_true hle
  unfold freeToTcache
  rw [gets_bind, htc]
  dsimp only
  rw [if_neg (by rw [hrange]; rintro (h | h); exact absurd h (by decide); omega), bind_run (load_run hm)]
  change (if s.mem (c + 56) ≠ 0 then _ else _ : Exec (State τ) Bool) s = _
  by_cases hkey : s.mem (c + 56) ≠ 0
  · rw [if_pos hkey, if_pos hkey]
    rfl
  · rw [if_neg hkey, if_neg hkey]

variable (inv : Inv R s B L)
include inv

theorem Inv.ptFree_run (hn : B c = some ⟨n, .live⟩) {done : Bool} {s' : State τ}
    (hrun : freeToTcache t c n s = some (done, s')) :
    Words.ptFree t (c + chunkHeader) s = if done then some ((), s') else freeToArena c n s' := by
  have hsz := inv.cells.laid.sizes c _ hn
  dsimp only at hsz
  rw [ptFree_of (inv.mapped_block hn (by omega) (by omega)) (inv.cells.sizeBits_eq hn) hsz.1 hsz.2
    ((inv.cells.head c _ hn).and_mmapped hsz.2), bind_run hrun]
  cases done <;> rfl

theorem Inv.freeToTcache_run (hn : B c = some ⟨n, .live⟩) {tc : Tcache}
    (htc : s.tcache t = some tc) (hle : n ≤ 1040) :
    freeToTcache t c n s = if s.mem (c + 56) ≠ 0 then some (true, s)
      else tcacheFree t tc (csize2tidx n) c s := by
  have h48 : chunkHeader = 48 := rfl
  have hsz := inv.cells.laid.sizes c _ hn
  dsimp only at hsz
  exact freeToTcache_of (inv.mapped_block hn (by omega) (by dsimp only; omega)) hsz.1 hle htc

/-- A block whose key is not zero is taken for one that was freed before: nothing is done. -/
theorem Inv.ptFree_dropped (hn : B c = some ⟨n, .live⟩) (htc : (s.tcache t).isSome)
    (hle : n ≤ 1040) (hkey : s.mem (c + 56) ≠ 0) :
    Words.ptFree t (c + chunkHeader) s = some ((), s) := by
  obtain ⟨tc, htc⟩ := Option.isSome_iff_exists.mp htc
  have hrun := inv.freeToTcache_run hn htc hle
  rw [if_pos hkey] at hrun
  exact (inv.ptFree_run hn hrun).trans (if_pos rfl)

theorem Inv.ptFree_cached (hn : B c = some ⟨n, .live⟩) (htc : (s.tcache t).isSome)
    (hle : n ≤ 1040) (hkey : s.mem (c + 56) = 0)
    (hcount : binCount (s.tcache t) (csize2tidx n) < tcacheFillCount) :
    ∃ s' L', Words.ptFree t (c + chunkHeader) s = some ((), s') ∧
      Inv R s' (Function.update B c (some ⟨n, .cached t (csize2tidx n)⟩)) L' := by
  have h48 : chunkHeader = 48 := rfl
  have hsz := inv.cells.laid.sizes c _ hn
  dsimp only at hsz
  have hidx := csize2tidx_eq hsz.1 (by omega)
  have h64 : tcacheMaxBins = 64 := rfl
  obtain ⟨tc, htc⟩ := Option.isSome_iff_exists.mp htc
  have hn48 : n ≠ 48 := fun h => inv.key_ne_zero hn h hkey
  have hlen : tc.count (csize2tidx n) = (L t (csize2tidx n)).length := by
    have := inv.shelves.count t (csize2tidx n)
    rw [htc] at this
    exact this
  rw [htc] at hcount
  change tc.count (csize2tidx n) < tcacheFillCount at hcount
  have hinv := inv.push (i := csize2tidx n) htc hn (by omega) (by omega) (by omega) (by omega)
  have hm1 : s.mapped (c + chunkHeader) = true :=
    inv.mapped_block hn (by omega) (by dsimp only; omega)
  have hm2 : s.mapped (c + chunkHeader + 8) = true :=
    inv.mapped_block hn (by omega) (by dsimp only; omega)
  have hrun := inv.freeToTcache_run hn htc hle
  rw [if_neg (not_not_intro hkey)] at hrun
  unfold tcacheFree at hrun
  rw [if_neg (by omega), bind_run (store_run hm1), bind_run (store_run (by exact hm2)), hlen] at hrun
  exact ⟨_, _, (inv.ptFree_run hn hrun).trans (if_pos rfl), hinv⟩

theorem Inv.ptFree (hn : B c = some ⟨n, .live⟩) (htc : (s.tcache t).isSome)
    (hroom : RoomFor R.lossy s t (c + chunkHeader)) :
    ∃ s' B' L', Words.ptFree t (c + chunkHeader) s = some ((), s') ∧ Inv R s' B' L' ∧
      Released B B' c := by
  obtain ⟨hle, hkey⟩ := hroom
  rw [inv.sizeAt_user hn] at hle hkey
  rcases hkey with ⟨hlossy, hne⟩ | ⟨h0, hcount⟩
  · exact ⟨s, _, L, inv.ptFree_dropped hn htc hle hne, inv.lose hlossy hn, released_retag nofun⟩
  · obtain ⟨s', L', hrun, hinv⟩ := inv.ptFree_cached hn htc hle h0 hcount
    exact ⟨s', _, L', hrun, hinv, released_retag nofun⟩

/-! ## Growing into the top chunk -/

/-- The top chunk of the block's arena follows it, and both have `nb` bytes. -/
def GrowsIntoTop (s : State τ) (c nb : Nat) : Prop :=
  c + s.sizeAt c = (s.arena (arenaOf s c)).top ∧
    nb ≤ s.sizeAt c + s.sizeAt (s.arena (arenaOf s c)).top

omit [DecidableEq τ] in
theorem Inv.arenaOf_lt (c : Nat) : arenaOf s c < s.narenas := by
  unfold arenaOf
  cases h : s.heaps.find? (fun h => decide (h.arena ≠ 0 ∧ h.start ≤ c ∧ c < h.start + h.size)) with
  | none => exact inv.main
  | some g => exact inv.owners g (List.mem_of_find?_eq_some h)

omit [DecidableEq τ] in
theorem Inv.chunkFlags_run {b : Block τ} (hc : B c = some b) :
    ∃ f, chunkFlags c s = some (f, s) ∧ (f = 1 ∨ f = 5) := by
  refine ⟨s.mem (c + 8) &&& 7, ?_, (inv.cells.head c b hc).flags (inv.cells.laid.sizes c b hc).2⟩
  unfold chunkFlags
  rw [bind_run (load_run (inv.mapped_block hc (by omega) (by omega)))]
  rfl

/-- The user's blocks are as before, but for the size of the one at `c`. -/
def Resized (B B' : Blocks τ) (c nb : Nat) : Prop :=
  (∃ m, nb ≤ m ∧ B' c = some ⟨m, .live⟩) ∧
  ∀ x, x ≠ c → ∀ m, (B' x = some ⟨m, .live⟩ ↔ B x = some ⟨m, .live⟩)

/-- The memory after a block at `c` grew to `nb` bytes of `total`, up to the fencepost. -/
def growMem (mem : Nat → Nat) (c nb total f : Nat) : Nat → Nat :=
  Function.update (Function.update (Function.update (Function.update mem (c + nb) nb) (c + nb + 8)
    ((total - nb) ||| (f ||| prevInuseBit))) (c + nb + (total - nb)) (total - nb)) (c + 8) (nb ||| f)

omit [DecidableEq τ] in
theorem Inv.growIntoTop {k f m : Nat} (hk : k < s.narenas)
    (hn : B c = some ⟨n, .live⟩) (htop : c + n = (s.arena k).top)
    (hm : B (c + n) = some ⟨m, .top k⟩) (hf : f = 1 ∨ f = 5) (hlt : n < nb) (hd : 16 ∣ nb)
    (hmax : nb ≤ R.maxChunk) (hle : nb ≤ n + m) :
    ∃ s' B', Words.growIntoTop k c n nb f s = some (true, s') ∧ Inv R s' B' L ∧
      Resized B B' c nb := by
  have hsz := inv.cells.laid.sizes c _ hn
  have hszm := inv.cells.laid.sizes _ _ hm
  dsimp only at hsz hszm
  have h32 : minsize = 32 := rfl
  have hpos := inv.cells.pos hm
  obtain ⟨g, hg, hfirst, hfence⟩ := inv.fence_of_top hk (htop ▸ hm)
  rw [← htop] at hfirst hfence
  -- the block is in the heap that the top chunk ends
  have hcg : g.first ≤ c := by
    obtain ⟨g', hg', h1, h2⟩ := inv.cells.laid.room hn
    obtain rfl : g = g' := inv.cells.laid.heap_unique (a := c + n) hg hg' ⟨hfirst, by omega⟩ ⟨by omega, h2⟩
    exact h1
  -- from the block on there are only the block and the top chunk
  have htwo : ∀ x b, B x = some b → c ≤ x → x < g.fence → (x = c ∧ b = ⟨n, .live⟩) ∨ b = ⟨m, .top k⟩ := by
    intro x b hx h1 h2
    by_cases hxn : x < c + n
    · exact .inl (inv.cells.laid.eq_of_within hn hx h1 hxn)
    · exact .inr (inv.cells.laid.eq_of_within hm hx (by omega) (by dsimp only; omega)).2
  have hrest : ∀ x b, B x = some b → c ≤ x → x < g.fence → b.status = .live ∨ b.status = .top k := by
    intro x b hx h1 h2
    rcases htwo x b hx h1 h2 with ⟨-, rfl⟩ | rfl
    · exact .inl rfl
    · exact .inr rfl
  have hlive : ∀ x m', B x = some ⟨m', .live⟩ → x ≠ c → x < c ∨ g.fence ≤ x := by
    intro x m' hx hxc
    by_contra hbad
    rcases htwo x _ hx (by omega) (by omega) with ⟨h, -⟩ | h
    · exact hxc h
    · cases h
  have hguard : R.guarded = true := by
    by_contra hg'
    have := (R.unguarded (Bool.eq_false_iff.mpr hg')).1
    omega
  have hmap : ∀ a, c ≤ a → a ≤ g.fence + 24 → s.mapped a = true := by
    intro a h1 h2
    by_cases ha : a < c + n
    · exact inv.mapped_block hn h1 (by dsimp only; omega)
    · exact inv.mapped_block hm (by omega) (by dsimp only; omega)
  have hrun : ∀ y : Bool × State τ, (do
      if minsize ≤ n + m - nb then
        store (c + nb) nb
        setHead (c + nb) (n + m - nb) (f ||| prevInuseBit)
        setFoot (c + nb) (n + m - nb)
        setTop k (c + nb)
        setHead c nb f
      else
        setTop k 0
        setHead c (n + m) f
        markInuse c
      pure true : Exec (State τ) Bool) s = some y → Words.growIntoTop k c n nb f s = some y := by
    intro y hy
    unfold Words.growIntoTop
    rw [bind_run getArenaRec_run, if_neg (not_not_intro htop), ← htop,
      bind_run (inv.chunkSize_run hm), if_neg (by dsimp only; omega)]
    exact hy
  by_cases hcut : nb + 32 ≤ n + m
  · have hor : f ||| prevInuseBit = f := by rcases hf with rfl | rfl <;> rfl
    have hext : ∀ a, a ≠ c + 8 → a < c + 32 ∨ g.fence < a →
        growMem s.mem c nb (n + m) f a = s.mem a := by
      intro a ha hout
      unfold growMem
      rw [Function.update_of_ne ha, Function.update_of_ne (by omega),
        Function.update_of_ne (by omega), Function.update_of_ne (by omega)]
    have hh1 : Head (growMem s.mem c nb (n + m) f) c nb := by
      unfold Head growMem
      rw [Function.update_self]
      exact or_head hd hf
    have hh2 : Head (growMem s.mem c nb (n + m) f) (c + nb) (g.fence - (c + nb)) := by
      unfold Head growMem
      rw [Function.update_of_ne (by omega), Function.update_of_ne (by omega), Function.update_self,
        hor, show g.fence - (c + nb) = n + m - nb by omega]
      exact or_head (by omega) hf
    have hinv := inv.relayTop hg hn hcg hk hrest ⟨by omega, by omega⟩
      (lays_blockAndTop (by omega) hd (by omega) (by omega) hmax hh1 hh2) hext
    refine ⟨_, _, hrun (true, _) ?_, hinv, ⟨nb, Nat.le_refl _,
      (recut_in (Nat.le_refl _) (by omega)).trans blockAndTop_block⟩, ?_⟩
    · unfold setHead setFoot
      rw [if_pos (by omega), bind_run (store_run (hmap _ (by omega) (by omega))),
        bind_run (store_run (by exact hmap _ (by omega) (by omega))),
        bind_run (store_run (by exact hmap _ (by omega) (by omega))), bind_run setTop_run,
        bind_run (store_run (by exact hmap _ (by omega) (by omega)))]
      rfl
    · intro x hxc m'
      refine recut_iff (fun h => ?_) (fun h => hlive x m' h hxc)
      rcases blockAndTop_cases h with ⟨hx, -⟩ | ⟨-, h⟩
      · exact hxc hx
      · cases h
  · have hext : ∀ a, a ≠ c + 8 → a < c + 32 ∨ g.fence < a →
        Function.update s.mem (c + 8) ((n + m) ||| f) a = s.mem a := fun a ha _ =>
      Function.update_of_ne ha _ _
    have hh : Head (Function.update s.mem (c + 8) ((n + m) ||| f)) c (g.fence - c) := by
      unfold Head
      rw [Function.update_self, show g.fence - c = n + m by omega]
      exact or_head (by omega) hf
    have hinv := inv.relayTop hg hn hcg hk hrest ⟨by omega, by omega⟩
      (lays_oneChunk (.inl rfl) (by omega) (by omega) hh (.inl rfl) nofun fun _ => hguard) hext
    have hblock : recut B c g.fence (oneChunk c g.fence .live) c = some ⟨g.fence - c, .live⟩ :=
      (recut_in (Nat.le_refl _) (by omega)).trans oneChunk_self
    refine ⟨_, _, hrun (true, _) ?_, hinv, ⟨g.fence - c, by omega, hblock⟩, ?_⟩
    · unfold setHead
      rw [if_neg (by omega), bind_run setTop_run,
        bind_run (store_run (by exact hmap _ (by omega) (by omega)))]
      exact bind_run (hinv.markInuse_run hblock)
    · intro x hxc m'
      exact recut_iff (fun h => hxc (oneChunk_cases h).1) (fun h => hlive x m' h hxc)

end

end MyMalloc.Ptmalloc.Words
