import MyMalloc.Classic.Ptmalloc.Release

/- `pt_realloc` in states that keep the invariant.

   A block that is large enough stays, one that the top chunk follows grows into it,
   and any other is moved: allocated anew, copied word by word, and released. What
   follows the block in use has its `PREV_INUSE` set, so the extension into a free
   chunk is never made. The copy reads past the end of the old chunk, because the
   user's bytes begin 48 bytes into it, and so a block in front of a fencepost cannot
   be moved. -/
namespace MyMalloc.Ptmalloc.Words

open Exec

variable {τ : Type} {R : Regime} {s : State τ} {B : Blocks τ} {L : τ → Nat → List Nat}
  {host : Host} {c n nb k : Nat} {t : τ}

/-! ## The lock of the block's arena -/

/-- The mutex of the block's arena can be had. -/
def Unlocked (s : State τ) (c : Nat) : Prop := arenaOf s c ≠ 0 ∨ s.mainLocked = false

def State.lockedFor (s : State τ) (k : Nat) (b : Bool) : State τ := if k = 0 then s.locked b else s

theorem Inv.lockedFor (inv : Inv R s B L) (k : Nat) (b : Bool) : Inv R (s.lockedFor k b) B L := by
  unfold State.lockedFor
  split
  · exact inv.locked b
  · exact inv

theorem lockArena_run (h : k ≠ 0 ∨ s.mainLocked = false) :
    lockArena k s = some ((), s.lockedFor k true) := by
  unfold State.lockedFor
  by_cases hk : k = 0
  · subst hk
    exact lockArena_main (h.resolve_left (fun h => h rfl))
  · rw [if_neg hk]
    exact lockArena_other hk

theorem unlockArena_run : unlockArena k s = some ((), s.lockedFor k false) := by
  unfold State.lockedFor
  by_cases hk : k = 0
  · subst hk
    exact unlockArena_main
  · rw [if_neg hk]
    exact unlockArena_other hk

theorem lockedFor_self (h : k ≠ 0 ∨ s.mainLocked = false) :
    (s.lockedFor k true).lockedFor k false = s := by
  unfold State.lockedFor
  by_cases hk : k = 0
  · rw [if_pos hk, if_pos hk]
    exact State.locked_self (h.resolve_left (fun h => h hk))
  · rw [if_neg hk, if_neg hk]

theorem lockedFor_mem (b : Bool) : (s.lockedFor k b).mem = s.mem := by
  unfold State.lockedFor
  split <;> rfl

theorem lockedFor_arena (b : Bool) : (s.lockedFor k b).arena = s.arena := by
  unfold State.lockedFor
  split <;> rfl

theorem lockedFor_narenas (b : Bool) : (s.lockedFor k b).narenas = s.narenas := by
  unfold State.lockedFor
  split <;> rfl

/-- `grow` of a chunk that is no mapping of its own, with the lock taken. -/
theorem grow_run {w : Nat} {done : Bool} {s' : State τ} (hw : w &&& isMmappedBit = 0)
    (hlock : Unlocked s c)
    (hrun : growIn (arenaOf s c) c n nb (s.lockedFor (arenaOf s c) true) = some (done, s')) :
    grow w c n nb s = some (done, s'.lockedFor (arenaOf s c) false) := by
  unfold grow
  rw [if_neg (not_not_intro hw), gets_bind, bind_run (lockArena_run hlock), bind_run hrun,
    bind_run unlockArena_run]
  rfl

/-! ## In place -/

theorem Inv.prevInuse_next (inv : Inv R s B L) {b : Block τ} (hc : B c = some b) :
    prevInuse (c + b.size) s = some (true, s) := by
  obtain ⟨m, hm, -, hhead⟩ := inv.cells.head_next hc
  unfold prevInuse
  rw [bind_run (load_run (inv.mapped_block hc (by omega) (by omega)))]
  have hodd := hhead.and_prevInuse hm
  exact congrArg (fun b => some (b, s)) (decide_eq_true hodd)

theorem Inv.growIn_none (inv : Inv R s B L) (hk : k < s.narenas) (hn : B c = some ⟨n, .live⟩)
    (hno : ¬ (c + n = (s.arena k).top ∧ nb ≤ n + s.sizeAt (s.arena k).top)) :
    growIn k c n nb s = some (false, s) := by
  obtain ⟨f, hf, -⟩ := inv.chunkFlags_run hn
  have htop : Words.growIntoTop k c n nb f s = some (false, s) := by
    unfold Words.growIntoTop
    rw [bind_run getArenaRec_run]
    by_cases heq : c + n = (s.arena k).top
    · have hlt : n + s.sizeAt (s.arena k).top < nb := by
        by_contra hc
        exact hno ⟨heq, by omega⟩
      have hpos := inv.cells.pos hn
      obtain ⟨m, hm, -⟩ := inv.top_heap hk (by omega)
      have hsize : s.sizeAt (s.arena k).top = m := inv.cells.sizeBits_eq hm
      rw [if_neg (not_not_intro heq), bind_run (inv.chunkSize_run hm), if_pos (by dsimp only; omega)]
      rfl
    · rw [if_pos heq]
      rfl
  have hnext : growIntoNext k c n nb f s = some (false, s) := by
    unfold growIntoNext
    rw [bind_run (inv.prevInuse_next hn), if_pos rfl]
    rfl
  unfold growIn
  rw [bind_run hf, bind_run htop, if_neg (by decide)]
  exact hnext

theorem Inv.growIn_top (inv : Inv R s B L) (hk : k < s.narenas) (hn : B c = some ⟨n, .live⟩)
    (htop : c + n = (s.arena k).top) (hle : nb ≤ n + s.sizeAt (s.arena k).top) (hlt : n < nb)
    (hd : 16 ∣ nb) (hmax : nb ≤ R.maxChunk) :
    ∃ s' B', growIn k c n nb s = some (true, s') ∧ Inv R s' B' L ∧ Resized B B' c nb := by
  have hpos := inv.cells.pos hn
  obtain ⟨f, hf, hfv⟩ := inv.chunkFlags_run hn
  obtain ⟨m, hm, -⟩ := inv.top_heap hk (by omega)
  have hsize : s.sizeAt (s.arena k).top = m := inv.cells.sizeBits_eq hm
  rw [← htop] at hm
  obtain ⟨s', B', hrun, hinv, hres⟩ := inv.growIntoTop hk hn htop hm hfv hlt hd hmax (by omega)
  refine ⟨s', B', ?_, hinv, hres⟩
  unfold growIn
  rw [bind_run hf, bind_run hrun, if_pos rfl]
  rfl

/-! ## Copying -/

/-- The block of a user keeps its words off headers and links, up to the header after it. -/
theorem Inv.writeBlock (inv : Inv R s B L) {a v : Nat} (hn : B c = some ⟨n, .live⟩)
    (hlow : c + 48 ≤ a) (hup : a ≤ c + n) : Inv R { s with mem := Function.update s.mem a v } B L := by
  have h48 : chunkHeader = 48 := rfl
  refine inv.write ?_ (fun d hd => ?_) (fun u i d hd => ?_)
  · obtain ⟨g, hg, h1, h2⟩ := inv.block_has hn (a := a) (by omega) (by dsimp only; omega)
    exact ⟨g, hg, h1, by unfold Heap.region; dsimp only; omega⟩
  · by_cases hdc : d = c
    · omega
    · have := inv.cells.starts_off hn hd hdc
      dsimp only at this
      omega
  · obtain ⟨m, hm⟩ := (inv.shelves.mem_iff u i d).mp hd
    have hne : d ≠ c := by
      rintro rfl
      rw [hn] at hm
      cases hm
    have := inv.cells.laid.disjoint hn hm hne
    dsimp only at this
    omega

theorem Inv.copyWords (inv : Inv R s B L) {d m : Nat} (hm : B d = some ⟨m, .live⟩) (j dst src : Nat)
    (hlow : d + 48 ≤ dst) (hup : dst + 8 * j ≤ d + m + 8)
    (hsrc : ∀ i < j, s.mapped (src + 8 * i) = true) :
    ∃ mem', copyWords dst src j s = some ((), { s with mem := mem' }) ∧
      Inv R { s with mem := mem' } B L ∧ ∀ a, a < d + 48 ∨ d + m < a → mem' a = s.mem a := by
  induction j generalizing s dst src with
  | zero => exact ⟨s.mem, rfl, inv, fun _ _ => rfl⟩
  | succ j ih =>
    have hdst : s.mapped dst = true := inv.mapped_block hm (by omega) (by dsimp only; omega)
    have hinv := inv.writeBlock (v := s.mem src) hm hlow (by omega)
    have hmap : ∀ i < j, State.mapped { s with mem := Function.update s.mem dst (s.mem src) }
        (src + 8 + 8 * i) = true := fun i hi => by
      have := hsrc (i + 1) (by omega)
      rwa [show src + 8 * (i + 1) = src + 8 + 8 * i by omega] at this
    obtain ⟨mem', hrun, hinv', hkeep⟩ := ih hinv (dst + 8) (src + 8) (by omega) (by omega) hmap
    refine ⟨mem', ?_, hinv', fun a ha => ?_⟩
    · unfold Words.copyWords
      rw [bind_run (load_run (by simpa using hsrc 0 (by omega))), bind_run (store_run hdst)]
      exact hrun
    · rw [hkeep a ha]
      exact Function.update_of_ne (by omega) _ _

/-! ## Moving -/

/-- The chunk at `c` is a block of the user. -/
def Live (B : Blocks τ) (c : Nat) : Prop := ∃ n, B c = some ⟨n, .live⟩

/-- A block can be moved to a chunk of `nb` bytes: the copy ends before the header after the new
    chunk and does not read past the heap, and both the request and the release are served. -/
def Movable [DecidableEq τ] (R : Regime) (host : Host) (s : State τ) (t : τ) (c nb : Nat) : Prop :=
  s.sizeAt c + 32 ≤ nb ∧ (∀ h ∈ s.heaps, c + s.sizeAt c ≠ h.fence) ∧ Serves R.slack host s t nb ∧
    RoomFor R.lossy s t (c + chunkHeader)

/-- The block at `c` is replaced by the result, or stays if there is none. -/
structure Replaced (nb : Nat) (B B' : Blocks τ) (c : Nat) (r : Option Nat) : Prop where
  grant : ∀ q, r = some q → ∃ d m, q = d + chunkHeader ∧ B' d = some ⟨m, .live⟩ ∧ nb ≤ m
  failed : r = none → ∀ x, Live B' x ↔ Live B x
  live : r ≠ none → ∀ x, Live B' x ↔ r = some (x + chunkHeader) ∨ (Live B x ∧ x ≠ c)

theorem mapped_mono {s' : State τ} (h : ∀ r ∈ s.regions, r ∈ s'.regions) {a : Nat}
    (ha : s.mapped a = true) : s'.mapped a = true := by
  obtain ⟨r, hr, hd⟩ := List.any_eq_true.mp ha
  exact List.any_eq_true.mpr ⟨r, h r hr, hd⟩

theorem Inv.mapped_user (inv : Inv R s B L) (hn : B c = some ⟨n, .live⟩)
    (hfence : ∀ h ∈ s.heaps, c + n ≠ h.fence) {a : Nat} (hlow : c ≤ a) (hup : a ≤ c + n + 32) :
    s.mapped a = true := by
  by_cases ha : a ≤ c + n + 24
  · exact inv.mapped_block hn hlow ha
  · rcases inv.cells.laid.next hn with ⟨b, hb⟩ | ⟨h, hh, heq⟩
    · have := (inv.cells.laid.sizes _ b hb).1
      exact inv.mapped_block hb (by dsimp only; omega) (by dsimp only; omega)
    · exact absurd heq (hfence h hh)

/-- The key of a block lies in no other block of the user. -/
theorem Inv.key_apart (inv : Inv R s B L) (hn : B c = some ⟨n, .live⟩) {d m : Nat}
    (hm : B d = some ⟨m, .live⟩) (hne : c ≠ d) : c + 56 < d + 48 ∨ d + m < c + 56 := by
  have hsz := inv.cells.laid.sizes c _ hn
  dsimp only at hsz
  have := inv.cells.laid.disjoint hm hn hne
  dsimp only at this
  omega

section
variable [DecidableEq τ]

omit [DecidableEq τ] in
theorem Outcome.live_iff {s' : State τ} {B' : Blocks τ} {L' : τ → Nat → List Nat} {r : Option Nat}
    (h : Outcome nb t s B L r s' B' L') (x : Nat) :
    Live B' x ↔ r = some (x + chunkHeader) ∨ Live B x := by
  constructor
  · rintro ⟨m, hm⟩
    rcases h.only x m hm with hx | hr
    · exact Or.inr ⟨m, hx⟩
    · exact Or.inl hr
  · rintro (hr | ⟨m, hm⟩)
    · obtain ⟨d, m, heq, hd, -, -⟩ := h.grant _ hr
      obtain rfl : x = d := Nat.add_right_cancel heq
      exact ⟨m, hd⟩
    · exact ⟨m, h.kept x m hm⟩

omit [DecidableEq τ] in
theorem Released.live_iff {B' : Blocks τ} (h : Released B B' c) (x : Nat) :
    Live B' x ↔ Live B x ∧ x ≠ c := by
  constructor
  · rintro ⟨m, hm⟩
    exact ⟨⟨m, ((h x m).mp hm).1⟩, ((h x m).mp hm).2⟩
  · rintro ⟨⟨m, hm⟩, hne⟩
    exact ⟨m, (h x m).mpr ⟨hm, hne⟩⟩

omit [DecidableEq τ] in
/-- The release of a block is served after a request for another size, too. -/
theorem RoomFor.after (inv : Inv R s B L) {s' : State τ} {B' : Blocks τ} {L' : τ → Nat → List Nat}
    {lossy : Bool} (inv' : Inv R s' B' L') (hn : B c = some ⟨n, .live⟩) (hn' : B' c = some ⟨n, .live⟩)
    (hkey : s'.mem (c + 56) = 0 ↔ s.mem (c + 56) = 0)
    (hlist : L' t (csize2tidx n) = L t (csize2tidx n)) (h : RoomFor lossy s t (c + chunkHeader)) :
    RoomFor lossy s' t (c + chunkHeader) := by
  have hsize : s.sizeAt c = n := inv.cells.sizeBits_eq hn
  have hsize' : s'.sizeAt c = n := inv'.cells.sizeBits_eq hn'
  have h56 : c + chunkHeader + 8 = c + 56 := rfl
  have hcount : binCount (s'.tcache t) (csize2tidx n) = binCount (s.tcache t) (csize2tidx n) := by
    rw [inv.shelves.count, inv'.shelves.count, hlist]
  unfold RoomFor at h ⊢
  rw [Nat.add_sub_cancel, h56] at h ⊢
  rw [hsize] at h
  rw [hsize', hcount, hkey, Ne, hkey]
  exact h

/-- A block is moved, or stays for want of memory. -/
theorem Inv.moveTo (inv : Inv R s B L) (hn : B c = some ⟨n, .live⟩) {size : Nat}
    (hmax : chunkFor size ≤ R.maxChunk) (hmove : Movable R host s t c (chunkFor size)) :
    ∃ r s' B' L', moveTo host t (c + chunkHeader) n size s = some (r, s') ∧ Inv R s' B' L' ∧
      Replaced (chunkFor size) B B' c r := by
  have h48 : chunkHeader = 48 := rfl
  have h8 : sizeSz = 8 := rfl
  have hsmall := R.small
  have h1024 : minLargeSize = 1024 := rfl
  obtain ⟨hroom, hfence, hserve, hfree⟩ := hmove
  rw [show s.sizeAt c = n from inv.cells.sizeBits_eq hn] at hroom hfence
  have hsz := inv.cells.laid.sizes c _ hn
  dsimp only at hsz
  obtain ⟨r, s₁, B₁, L₁, hrun, inv₁, hout, htc⟩ := inv.ptMalloc hmax hserve
  unfold Words.moveTo
  cases r with
  | none =>
    refine ⟨none, s₁, B₁, L₁, ?_, inv₁, nofun, fun _ x => ?_, fun h => absurd rfl h⟩
    · rw [bind_run hrun]
      rfl
    · rw [hout.live_iff]
      exact ⟨fun h => h.resolve_left nofun, Or.inr⟩
  | some q =>
    obtain ⟨d, m, rfl, hd, hle, hnot⟩ := hout.grant q rfl
    have hne : c ≠ d := by
      rintro rfl
      exact hnot n hn
    have hn₁ := hout.kept c n hn
    -- the copy stays in the new block, and off the key of the old one
    obtain ⟨mem', hcopy, inv₂, hkeep⟩ := inv₁.copyWords hd (min (n - sizeSz) size / 8) (d + chunkHeader)
      (c + chunkHeader) (by omega) (by omega) (fun i hi => mapped_mono hout.regions
        (inv.mapped_user hn hfence (by omega) (by omega)))
    have hkey : mem' (c + 56) = s₁.mem (c + 56) :=
      hkeep _ (inv₁.key_apart hn₁ hd hne)
    have hidx := csize2tidx_eq hsz.1 (by omega)
    have hidx' : csize2tidx (chunkFor size) = chunkFor size / 16 - 2 :=
      csize2tidx_eq (by omega) (by omega)
    have hfree₂ : RoomFor R.lossy { s₁ with mem := mem' } t (c + chunkHeader) := by
      refine hfree.after inv inv₂ hn hn₁ ?_ (hout.lists _ (by omega))
      dsimp only
      rw [hkey]
      exact hout.keys c n hn
    obtain ⟨s₃, B₃, L₃, hrel, inv₃, hreleased⟩ := inv₂.ptFree hn₁ htc hfree₂
    refine ⟨some (d + chunkHeader), s₃, B₃, L₃, ?_, inv₃, fun q hq => ?_, nofun, fun _ x => ?_⟩
    · rw [bind_run hrun]
      dsimp only
      rw [bind_run hcopy, bind_run hrel]
      rfl
    · obtain rfl := Option.some.inj hq
      exact ⟨d, m, rfl, (hreleased d m).mpr ⟨hd, Ne.symm hne⟩, hle⟩
    · rw [hreleased.live_iff, hout.live_iff]
      constructor
      · rintro ⟨h | h, hx⟩
        · exact Or.inl h
        · exact Or.inr ⟨h, hx⟩
      · rintro (h | ⟨h, hx⟩)
        · obtain rfl : d = x := Nat.add_right_cancel (Option.some.inj h)
          exact ⟨Or.inl h, Ne.symm hne⟩
        · exact ⟨Or.inr h, hx⟩

/-! ## Realloc -/

/-- A block that is too small for `nb` bytes can be resized. -/
def Resizable (R : Regime) (host : Host) (s : State τ) (t : τ) (c nb : Nat) : Prop :=
  nb ≤ R.maxChunk ∧ Unlocked s c ∧ (GrowsIntoTop s c nb ∨ Movable R host s t c nb)

omit [DecidableEq τ] in
theorem Replaced.same {B' : Blocks τ} (hc : Live B c) (hres : Resized B B' c nb) :
    Replaced nb B B' c (some (c + chunkHeader)) where
  grant q hq := by
    obtain ⟨m, hle, hm⟩ := hres.1
    exact ⟨c, m, (Option.some.inj hq).symm, hm, hle⟩
  failed := nofun
  live _ x := by
    by_cases hx : x = c
    · subst hx
      obtain ⟨m, -, hm⟩ := hres.1
      exact ⟨fun _ => Or.inl rfl, fun _ => ⟨m, hm⟩⟩
    · constructor
      · rintro ⟨m, hm⟩
        exact Or.inr ⟨⟨m, (hres.2 x hx m).mp hm⟩, hx⟩
      · rintro (h | ⟨⟨m, hm⟩, -⟩)
        · exact absurd (Nat.add_right_cancel (Option.some.inj h)).symm hx
        · exact ⟨m, (hres.2 x hx m).mpr hm⟩

theorem Inv.ptRealloc (inv : Inv R s B L) (hn : B c = some ⟨n, .live⟩) {size : Nat} (hpos : size ≠ 0)
    (hfit : request2size size ≤ n ∨ Resizable R host s t c (request2size size)) :
    ∃ r s' B' L', Words.ptRealloc host t (c + chunkHeader) size s = some (r, s') ∧ Inv R s' B' L' ∧
      Replaced (request2size size) B B' c r := by
  have h48 : chunkHeader = 48 := rfl
  have hchunk : chunkFor size = request2size size := by rw [chunkFor, if_neg hpos]
  have hsz := inv.cells.laid.sizes c _ hn
  have hw : sizeBits (s.mem (c + 8)) = n := inv.cells.sizeBits_eq hn
  have hmapped := (inv.cells.head c _ hn).and_mmapped hsz.2
  have hload : load (c + 8) s = some (s.mem (c + 8), s) :=
    load_run (inv.mapped_block hn (by omega) (by dsimp only; omega))
  unfold Words.ptRealloc
  rw [if_neg (by omega), if_neg hpos, Nat.add_sub_cancel, bind_run hload, hw]
  by_cases hle : request2size size ≤ n
  · rw [if_pos hle]
    exact ⟨_, s, B, L, rfl, inv, .same ⟨n, hn⟩ ⟨⟨n, hle, hn⟩, fun _ _ _ => Iff.rfl⟩⟩
  · obtain ⟨hmax, hlock, hgrow⟩ := hfit.resolve_left hle
    have hd : 16 ∣ request2size size := (request2size_spec size).2.1
    have hsize : s.sizeAt c = n := hw
    have hk := inv.arenaOf_lt c
    have inv₁ := inv.lockedFor (arenaOf s c) true
    have hk₁ : arenaOf s c < (s.lockedFor (arenaOf s c) true).narenas := by
      rw [lockedFor_narenas]
      exact hk
    have htop₁ : (s.lockedFor (arenaOf s c) true).arena = s.arena := lockedFor_arena true
    have hsize₁ : ∀ x, (s.lockedFor (arenaOf s c) true).sizeAt x = s.sizeAt x := fun x => by
      unfold State.sizeAt
      rw [lockedFor_mem]
    rw [if_neg hle]
    by_cases hgrows : GrowsIntoTop s c (request2size size)
    · obtain ⟨htop, hroom⟩ := hgrows
      rw [hsize] at htop hroom
      obtain ⟨s', B', hrun, hinv, hres⟩ := inv₁.growIn_top hk₁ hn (by rw [htop₁]; exact htop)
        (by rw [htop₁, hsize₁]; exact hroom) (by omega) hd hmax
      refine ⟨_, _, B', L, ?_, hinv.lockedFor (arenaOf s c) false, .same ⟨n, hn⟩ hres⟩
      rw [bind_run (grow_run hmapped hlock hrun), if_pos rfl]
      rfl
    · have hrun : growIn (arenaOf s c) c n (request2size size) (s.lockedFor (arenaOf s c) true) =
          some (false, s.lockedFor (arenaOf s c) true) := inv₁.growIn_none hk₁ hn (by
        rw [htop₁, hsize₁, ← hsize]
        exact hgrows)
      have hback := grow_run hmapped hlock hrun
      rw [lockedFor_self hlock] at hback
      rw [bind_run hback, if_neg (by decide), ← hchunk]
      exact inv.moveTo hn (by rw [hchunk]; exact hmax) (by rw [hchunk]; exact hgrow.resolve_left hgrows)

end

end MyMalloc.Ptmalloc.Words
