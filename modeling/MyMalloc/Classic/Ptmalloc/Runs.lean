import MyMalloc.Classic.Ptmalloc.Realloc

/- Runs of the ptmalloc allocator that keep to the tcaches and the top chunks.

   A run is a sequence of calls, and of writes by the user into the bytes
   `pt_malloc_usable_size` gives it. `Fits` is the condition of a regime on each of
   them, in terms of the state before it: that the request is served by a tcache or
   a top chunk, that the release goes to a tcache, and that a write is off the size
   fields, which the user's bytes do reach. In every state of such a run the
   invariant holds, with the blocks the user holds (`Reach.inv`). -/
namespace MyMalloc.Ptmalloc.Words

open Exec

variable {τ : Type} {R : Regime} {s : State τ} {B : Blocks τ} {L : τ → Nat → List Nat}
  {host : Host} {held : List Nat} {c n nb k : Nat} {t : τ}

/-! ## Calls -/

/-- A call by a thread, or a word written by the user into its block `p`. -/
inductive Request (τ : Type) where
  | malloc (t : τ) (n : UInt64)
  | free (t : τ) (p : Nat)
  | realloc (t : τ) (p : Nat) (n : UInt64)
  | memalign (t : τ) (alignment n : UInt64)
  | write (p a : Nat) (v : UInt64)

/-- The blocks held after a call that returned `r`. -/
def Request.heldAfter : Request τ → Option Nat → List Nat → List Nat
  | .malloc _ _, r, held => r.toList ++ held
  | .memalign _ _ _, r, held => r.toList ++ held
  | .free _ p, _, held => held.filter (· ≠ p)
  | .realloc _ p n, r, held =>
    if n ≠ 0 ∧ r = none then held else r.toList ++ held.filter (· ≠ p)
  | .write _ _ _, _, held => held

/-- What `pt_malloc_usable_size` gives for a block of the user. -/
def State.usable (s : State τ) (p : Nat) : Nat := s.sizeAt (p - chunkHeader) - sizeSz

/-- Only a block that is held is freed, resized or written, and it is written in its own bytes. -/
def Request.Legal (s : State τ) (held : List Nat) : Request τ → Prop
  | .free _ p => p = 0 ∨ p ∈ held
  | .realloc _ p _ => p = 0 ∨ p ∈ held
  | .write p a _ => p ∈ held ∧ 8 ∣ a ∧ p ≤ a ∧ a + 8 ≤ p + s.usable p
  | _ => True

/-- `a` is the address of the size field of a chunk that a walk of its heap comes to, or of the
    heap's fencepost. -/
def SizeField (s : State τ) (a : Nat) : Prop :=
  ∃ h ∈ s.heaps, ∃ d l, Tiles (fun c => some (s.sizeAt c)) h.first d l ∧ d ≤ h.fence ∧ a = d + 8

/-- The word at `a` is in a heap and no size field. -/
def Harmless (s : State τ) (a : Nat) : Prop :=
  (∃ h ∈ s.heaps, h.start ≤ a ∧ a + 8 ≤ h.start + h.size) ∧ ¬ SizeField s a

section
variable [DecidableEq τ]

def Request.exec (host : Host) : Request τ → Exec (State τ) (Option Nat)
  | .malloc t n => ptMalloc host t n.toNat
  | .free t p => do
    ptFree t p
    pure none
  | .realloc t p n => ptRealloc host t p n.toNat
  | .memalign t a n => ptMemalign host t a.toNat n.toNat
  | .write _ a v => do
    store a v.toNat
    pure none

/-- A request of `n` bytes is served. -/
def MallocFits (R : Regime) (host : Host) (s : State τ) (t : τ) (n : Nat) : Prop :=
  chunkFor n ≤ R.maxChunk ∧ Serves R.slack host s t (chunkFor n)

omit [DecidableEq τ] in
/-- The release of a block is served. -/
def FreeFits (R : Regime) (s : State τ) (t : τ) (p : Nat) : Prop :=
  p = 0 ∨ ((s.tcache t).isSome ∧ RoomFor R.lossy s t p)

/-- The condition of a regime on a call. -/
def Request.Fits (R : Regime) (host : Host) (s : State τ) : Request τ → Prop
  | .malloc t n => MallocFits R host s t n.toNat
  | .free t p => FreeFits R s t p
  | .realloc t p n =>
    if p = 0 then MallocFits R host s t n.toNat
    else if n = 0 then FreeFits R s t p
    else request2size n.toNat ≤ s.sizeAt (p - chunkHeader) ∨
      Resizable R host s t (p - chunkHeader) (request2size n.toNat)
  | .memalign t a n =>
    roundAlignment a.toNat = 0 ∨
      (roundAlignment a.toNat ≤ mallocAlignment ∧ MallocFits R host s t n.toNat)
  | .write _ a _ => R.guarded = true → Harmless s a

/-- The states of runs in which every call meets a condition, with the blocks held. -/
inductive Reach (host : Host) (fits : State τ → Request τ → Prop) : State τ → List Nat → Prop where
  | start {s : State τ} (h : ptMallocInit host (boot host) = some ((), s)) : Reach host fits s []
  | step {s s' : State τ} {held : List Nat} {r : Option Nat} (h : Reach host fits s held)
      (q : Request τ) (legal : q.Legal s held) (fit : fits s q)
      (exec : q.exec host s = some (r, s')) : Reach host fits s' (q.heldAfter r held)

/-- The states of runs that keep to a regime. -/
abbrev RegimeReach (R : Regime) (host : Host) : State τ → List Nat → Prop :=
  Reach host (fun s q => q.Fits R host s)

end

/-! ## Size fields -/

/-- The walk of a heap in memory is the one in `B`. -/
theorem Inv.sizeField_iff (inv : Inv R s B L) (a : Nat) :
    SizeField s a ↔ ∃ d, Starts s.heaps B d ∧ a = d + 8 := by
  have hlen : ∀ c b, B c = some b → (some (s.sizeAt c) : Option Nat) = B.len c := fun c b hc => by
    rw [Blocks.len_of hc, State.sizeAt, inv.cells.sizeBits_eq hc]
  have htile : ∀ l a b, Tiles B.len a b l → ∀ c ∈ l, (some (s.sizeAt c) : Option Nat) = B.len c := by
    intro l a b ht c hc
    obtain ⟨n, hn, -⟩ := ht.bounds hc
    obtain ⟨bl, hb, -⟩ := Blocks.exists_of_len hn
    exact hlen c bl hb
  constructor
  · rintro ⟨h, hh, d, l, hwalk, hle, rfl⟩
    obtain ⟨l', ht⟩ := inv.cells.laid.tiled h hh
    rcases ht.reaches hwalk hle (htile l' _ _ ht) with hd | rfl
    · obtain ⟨n, hn, -⟩ := ht.bounds hd
      obtain ⟨b, hb, -⟩ := Blocks.exists_of_len hn
      exact ⟨d, Or.inl ⟨b, hb⟩, rfl⟩
    · exact ⟨h.fence, Or.inr ⟨h, hh, rfl⟩, rfl⟩
  · rintro ⟨d, ⟨b, hb⟩ | ⟨h, hh, rfl⟩, rfl⟩
    · obtain ⟨h, hh, l, ht, hd⟩ := inv.cells.laid.placed d b hb
      obtain ⟨l₁, l₂, rfl, h₁, -⟩ := ht.split hd
      obtain ⟨n, -, -, -, hup⟩ := ht.bounds hd
      exact ⟨h, hh, d, l₁, h₁.congr (htile l₁ _ _ h₁), by omega, rfl⟩
    · obtain ⟨l, ht⟩ := inv.cells.laid.tiled h hh
      exact ⟨h, hh, h.fence, l, ht.congr (htile l _ _ ht), Nat.le_refl _, rfl⟩

/-! ## What a call preserves -/

/-- The user holds exactly the live blocks. -/
def Owned (B : Blocks τ) (held : List Nat) : Prop :=
  ∀ p, p ∈ held ↔ ∃ c, Live B c ∧ p = c + chunkHeader

theorem Owned.live (h : Owned B held) {p : Nat} (hp : p ∈ held) :
    ∃ c n, p = c + chunkHeader ∧ B c = some ⟨n, .live⟩ := by
  obtain ⟨c, ⟨n, hn⟩, rfl⟩ := (h p).mp hp
  exact ⟨c, n, rfl, hn⟩

theorem Owned.ne_zero (h : Owned B held) {p : Nat} (hp : p ∈ held) : p ≠ 0 := by
  obtain ⟨c, n, rfl, -⟩ := h.live hp
  have h48 : chunkHeader = 48 := rfl
  omega

theorem Owned.grant {B' : Blocks τ} {r : Option Nat} (h : Owned B held)
    (hlive : ∀ x, Live B' x ↔ r = some (x + chunkHeader) ∨ Live B x)
    (hgrant : ∀ p, r = some p → ∃ c, p = c + chunkHeader) : Owned B' (r.toList ++ held) := by
  intro p
  rw [List.mem_append, Option.mem_toList, h p]
  constructor
  · rintro (hr | ⟨c, hc, rfl⟩)
    · obtain ⟨c, rfl⟩ := hgrant p hr
      exact ⟨c, (hlive c).mpr (Or.inl hr), rfl⟩
    · exact ⟨c, (hlive c).mpr (Or.inr hc), rfl⟩
  · rintro ⟨c, hc, rfl⟩
    rcases (hlive c).mp hc with hr | hc
    · exact Or.inl hr
    · exact Or.inr ⟨c, hc, rfl⟩

theorem Owned.release {B' : Blocks τ} (h : Owned B held)
    (hlive : ∀ x, Live B' x ↔ Live B x ∧ x ≠ c) :
    Owned B' (held.filter (· ≠ c + chunkHeader)) := by
  intro p
  rw [List.mem_filter, h p]
  constructor
  · rintro ⟨⟨x, hx, rfl⟩, hne⟩
    exact ⟨x, (hlive x).mpr ⟨hx, fun e => of_decide_eq_true hne (by rw [e])⟩, rfl⟩
  · rintro ⟨x, hx, rfl⟩
    obtain ⟨hx, hne⟩ := (hlive x).mp hx
    exact ⟨⟨x, hx, rfl⟩, decide_eq_true (fun e => hne (Nat.add_right_cancel e))⟩

section
variable [DecidableEq τ]

omit [DecidableEq τ] in
theorem Owned.outcome {s' : State τ} {B' : Blocks τ} {L' : τ → Nat → List Nat} {r : Option Nat}
    (h : Owned B held) (hout : Outcome nb t s B L r s' B' L') : Owned B' (r.toList ++ held) :=
  h.grant hout.live_iff (fun p hp => by
    obtain ⟨c, m, hpc, -⟩ := hout.grant p hp
    exact ⟨c, hpc⟩)

theorem Inv.serveMalloc (inv : Inv R s B L) (own : Owned B held) {m : Nat}
    (fits : MallocFits R host s t m) :
    ∃ r s' B' L', Words.ptMalloc host t m s = some (r, s') ∧ Inv R s' B' L' ∧
      Owned B' (r.toList ++ held) := by
  obtain ⟨r, s', B', L', hrun, hinv, hout, -⟩ := inv.ptMalloc fits.1 fits.2
  exact ⟨r, s', B', L', hrun, hinv, own.outcome hout⟩

theorem Inv.serveFree (inv : Inv R s B L) (own : Owned B held) {p : Nat} (legal : p = 0 ∨ p ∈ held)
    (fits : FreeFits R s t p) :
    ∃ s' B' L', Words.ptFree t p s = some ((), s') ∧ Inv R s' B' L' ∧
      Owned B' (held.filter (· ≠ p)) := by
  rcases legal with rfl | hp
  · refine ⟨s, B, L, rfl, inv, ?_⟩
    rwa [List.filter_eq_self.mpr (fun q hq => decide_eq_true (own.ne_zero hq))]
  · obtain ⟨c, n, rfl, hn⟩ := own.live hp
    obtain ⟨htc, hroom⟩ := fits.resolve_left (own.ne_zero hp)
    obtain ⟨s', B', L', hrun, hinv, hrel⟩ := inv.ptFree hn htc hroom
    exact ⟨s', B', L', hrun, hinv, own.release hrel.live_iff⟩

omit [DecidableEq τ] in
theorem Owned.replace {B' : Blocks τ} {r : Option Nat} (h : Owned B held)
    (hrep : Replaced nb B B' c r) :
    Owned B' (if r = none then held else r.toList ++ held.filter (· ≠ c + chunkHeader)) := by
  by_cases hr : r = none
  · rw [if_pos hr]
    intro p
    rw [h p]
    exact exists_congr (fun x => and_congr_left' (hrep.failed hr x).symm)
  · rw [if_neg hr]
    intro p
    rw [List.mem_append, Option.mem_toList, List.mem_filter, h p]
    constructor
    · rintro (hq | ⟨⟨x, hx, rfl⟩, hne⟩)
      · obtain ⟨d, m, rfl, hd, -⟩ := hrep.grant p hq
        exact ⟨d, ⟨m, hd⟩, rfl⟩
      · exact ⟨x, (hrep.live hr x).mpr (Or.inr ⟨hx, fun e => of_decide_eq_true hne (by rw [e])⟩), rfl⟩
    · rintro ⟨x, hx, rfl⟩
      rcases (hrep.live hr x).mp hx with hq | ⟨hx, hne⟩
      · exact Or.inl hq
      · exact Or.inr ⟨⟨x, hx, rfl⟩, decide_eq_true (fun e => hne (Nat.add_right_cancel e))⟩

theorem Inv.serveRealloc (inv : Inv R s B L) (own : Owned B held) {p : Nat} {n : UInt64}
    (legal : p = 0 ∨ p ∈ held) (fits : (Request.realloc t p n).Fits R host s) :
    ∃ r s' B' L', Words.ptRealloc host t p n.toNat s = some (r, s') ∧ Inv R s' B' L' ∧
      Owned B' ((Request.realloc t p n).heldAfter r held) := by
  simp only [Request.Fits] at fits
  simp only [Request.heldAfter]
  have hzero : n = 0 ↔ n.toNat = 0 := by rw [← UInt64.toNat_inj]; rfl
  by_cases hp0 : p = 0
  · subst hp0
    rw [if_pos rfl] at fits
    obtain ⟨r, s', B', L', hrun, hinv, hown⟩ := inv.serveMalloc own fits
    refine ⟨r, s', B', L', hrun, hinv, ?_⟩
    rw [List.filter_eq_self.mpr (fun q hq => decide_eq_true (own.ne_zero hq))]
    split
    · next h =>
      rw [h.2] at hown
      exact hown
    · exact hown
  · rw [if_neg hp0] at fits
    have hp := legal.resolve_left hp0
    by_cases hn0 : n = 0
    · rw [if_pos hn0] at fits
      obtain ⟨s', B', L', hrun, hinv, hown⟩ := inv.serveFree own (Or.inr hp) fits
      refine ⟨none, s', B', L', ?_, hinv, ?_⟩
      · unfold Words.ptRealloc
        rw [if_neg hp0, if_pos (hzero.mp hn0), bind_run hrun]
        rfl
      · rw [if_neg (fun h => h.1 hn0)]
        exact hown
    · rw [if_neg hn0] at fits
      obtain ⟨c, m, rfl, hm⟩ := own.live hp
      rw [Nat.add_sub_cancel, show s.sizeAt c = m from inv.cells.sizeBits_eq hm] at fits
      obtain ⟨r, s', B', L', hrun, hinv, hrep⟩ := inv.ptRealloc hm (fun h => hn0 (hzero.mpr h)) fits
      refine ⟨r, s', B', L', hrun, hinv, ?_⟩
      have := own.replace hrep
      by_cases hr : r = none
      · rw [if_pos ⟨hn0, hr⟩]
        rwa [if_pos hr] at this
      · rw [if_neg (fun h => hr h.2)]
        rwa [if_neg hr] at this

theorem Inv.serveMemalign (inv : Inv R s B L) (own : Owned B held) {a n : UInt64}
    (fits : (Request.memalign t a n).Fits R host s) :
    ∃ r s' B' L', ptMemalign host t a.toNat n.toNat s = some (r, s') ∧ Inv R s' B' L' ∧
      Owned B' (r.toList ++ held) := by
  unfold ptMemalign
  by_cases h0 : roundAlignment a.toNat = 0
  · rw [if_pos h0]
    exact ⟨none, s, B, L, rfl, inv, own⟩
  · obtain ⟨hle, hfits⟩ := Or.resolve_left fits h0
    rw [if_neg h0, if_pos hle]
    exact inv.serveMalloc own hfits

end

/-- Where all chunks are the smallest there are, the user's bytes are off the size fields. -/
theorem Inv.small_harmless (inv : Inv R s B L) (hguard : R.guarded = false)
    (hn : B c = some ⟨n, .live⟩) {a : Nat} (hlow : c + 48 ≤ a) (hup : a ≤ c + n + 32) :
    (∃ h ∈ s.heaps, h.start ≤ a ∧ a + 8 ≤ h.start + h.size) ∧
      ∀ d, Starts s.heaps B d → d + 16 ≤ a ∨ a + 8 ≤ d + 8 := by
  obtain ⟨h32, hfence⟩ := inv.side.small hguard c _ hn nofun
  dsimp only at h32
  subst h32
  obtain ⟨b, hb⟩ : ∃ b, B (c + 32) = some b :=
    (inv.cells.laid.next hn).resolve_right (fun ⟨h, hh, heq⟩ => hfence h hh heq)
  have hsz := (inv.cells.laid.sizes _ b hb).1
  refine ⟨inv.block_has hb (by omega) (by omega), fun d hd => ?_⟩
  by_cases hdc : d = c
  · omega
  · have h1 := inv.cells.starts_off hn hd hdc
    dsimp only at h1
    by_cases hdn : d = c + 32
    · omega
    · have h2 := inv.cells.starts_off hb hd hdn
      omega

theorem Inv.serveWrite (inv : Inv R s B L) (own : Owned B held) {p a : Nat} {v : Nat}
    (legal : p ∈ held ∧ 8 ∣ a ∧ p ≤ a ∧ a + 8 ≤ p + s.usable p)
    (fits : R.guarded = true → Harmless s a) :
    ∃ s', store a v s = some ((), s') ∧ Inv R s' B L := by
  have h48 : chunkHeader = 48 := rfl
  have h8 : sizeSz = 8 := rfl
  obtain ⟨hp, -, hlow, hup⟩ := legal
  obtain ⟨c, n, rfl, hn⟩ := own.live hp
  have hsz := inv.cells.laid.sizes c _ hn
  dsimp only at hsz
  unfold State.usable at hup
  rw [Nat.add_sub_cancel, show s.sizeAt c = n from inv.cells.sizeBits_eq hn] at hup
  obtain ⟨⟨g, hg, h1, h2⟩, hheads⟩ : (∃ h ∈ s.heaps, h.start ≤ a ∧ a + 8 ≤ h.start + h.size) ∧
      ∀ d, Starts s.heaps B d → a ≠ d + 8 := by
    by_cases hguard : R.guarded = true
    · obtain ⟨hin, hnot⟩ := fits hguard
      exact ⟨hin, fun d hd heq => hnot ((inv.sizeField_iff a).mpr ⟨d, hd, heq⟩)⟩
    · obtain ⟨hin, hoff⟩ := inv.small_harmless (Bool.eq_false_iff.mpr hguard) hn (a := a) (by omega)
        (by omega)
      exact ⟨hin, fun d hd heq => by have := hoff d hd; omega⟩
  refine ⟨_, store_run (mapped_of_region (inv.homes g hg) h1 h2), inv.write ⟨g, hg, h1, ?_⟩ hheads
    (fun u i d hd => ?_)⟩
  · unfold Heap.region
    dsimp only
    omega
  · -- a cached chunk past the block has its link past the user's bytes
    obtain ⟨m, hm⟩ := (inv.shelves.mem_iff u i d).mp hd
    have hne : d ≠ c := by
      rintro rfl
      rw [hn] at hm
      cases hm
    have := inv.cells.laid.disjoint hn hm hne
    have := (inv.cells.laid.sizes d _ hm).1
    dsimp only at *
    omega

theorem Inv.step [DecidableEq τ] (inv : Inv R s B L) (own : Owned B held) {q : Request τ}
    (legal : q.Legal s held) (fits : q.Fits R host s) :
    ∃ r s' B' L', q.exec host s = some (r, s') ∧ Inv R s' B' L' ∧ Owned B' (q.heldAfter r held) := by
  cases q with
  | malloc t n => exact inv.serveMalloc own fits
  | free t p =>
    obtain ⟨s', B', L', hrun, hinv, hown⟩ := inv.serveFree own legal fits
    exact ⟨none, s', B', L', bind_run hrun, hinv, hown⟩
  | realloc t p n => exact inv.serveRealloc own legal fits
  | memalign t a n => exact inv.serveMemalign own fits
  | write p a v =>
    obtain ⟨s', hrun, hinv⟩ := inv.serveWrite own legal fits
    exact ⟨none, s', B, L, bind_run hrun, hinv, own⟩

/-! ## The start of a run -/

/-- The allocator with its main arena, before it has a heap. -/
def bareMain (host : Host) : State τ :=
  { boot host with
    initialised := true
    mem := initBins host.mainArena (fun _ => 0)
    arena := Function.update (fun _ => noArena) 0 { noArena with base := host.mainArena }
    narenas := 1 }

theorem inv_bareMain (R : Regime) (host : Host) :
    Inv R (bareMain host : State τ) (fun _ => none) (fun _ _ => []) where
  regions := List.pairwise_singleton _ _
  homes := nofun
  cells := ⟨⟨nofun, .nil, nofun, nofun, nofun⟩, nofun, nofun⟩
  shelves := ⟨fun _ _ => rfl, fun _ _ _ => ⟨nofun, nofun⟩, nofun, fun _ _ => rfl, fun _ _ => Nat.zero_le _⟩
  arenas k hk := by
    obtain rfl : k = 0 := Nat.lt_one_iff.mp hk
    refine ⟨⟨arenaSize, by decide, List.mem_singleton_self _, nofun⟩, fun i hi => ?_, fun _ => rfl⟩
    show initBins host.mainArena (fun _ => 0) (sentinel host.mainArena i + 16) =
      sentinel host.mainArena i
    exact initBins_sentinel hi
  tops := ⟨fun k hk => by
    obtain rfl : k = 0 := Nat.lt_one_iff.mp hk
    exact Or.inl rfl, nofun⟩
  side := ⟨nofun, nofun⟩
  owners := nofun
  threads := nofun
  main := Nat.one_pos
  started := rfl
  threshold := by
    show defaultMmapThresholdMin ≤ defaultMmapThreshold
    decide

theorem ptMallocInit_boot (host : Host) : ptMallocInit host (boot host : State τ) =
    (do match ← sysMap host heapMaxSize with
        | none => pure ()
        | some heap =>
          layTop ⟨heap, pageRound heapMaxSize, 0, heap, heap + (heapMaxSize - minsize)⟩ :
      Exec (State τ) Unit) (bareMain host) := rfl

/-- The first heap is one top chunk. -/
theorem inv_start {s : State τ} (h : ptMallocInit host (boot host) = some ((), s)) :
    ∃ B L, Inv R s B L ∧ Owned B [] := by
  have hnone : Owned (fun _ => none : Blocks τ) [] := fun p => ⟨nofun, fun ⟨_, ⟨_, hn⟩, _⟩ => nomatch hn⟩
  have inv₀ := inv_bareMain (τ := τ) R host
  rw [ptMallocInit_boot] at h
  cases hans : mmapAnswer host (pageRound heapMaxSize) (bareMain host : State τ) with
  | none =>
    rw [bind_run (sysMap_none hans)] at h
    obtain rfl := (Prod.mk.inj (Option.some.inj h)).2
    exact ⟨_, _, inv₀.mapRefused, hnone⟩
  | some raw =>
    have hfit := mmapAnswer_fits hans
    have hlen : pageRound heapMaxSize = 1048576 := by decide +kernel
    have hroom : heapMaxSize - minsize = 1048544 := rfl
    have hg : (⟨raw, pageRound heapMaxSize, 0, raw + 0, raw + 0 + (heapMaxSize - minsize)⟩ : Heap).In raw
        (pageRound heapMaxSize) := heapIn hfit (by decide) (by decide) (by omega)
    rw [bind_run (sysMap_some hans)] at h
    have hrun := h.symm.trans (layTop_run hg (by dsimp only; omega))
    obtain rfl := (Prod.mk.inj (Option.some.inj hrun)).2
    refine ⟨_, _, inv₀.topLaid hfit hg Nat.one_pos rfl (by dsimp only; omega), fun p => ⟨nofun, ?_⟩⟩
    rintro ⟨x, ⟨m, hm⟩, -⟩
    -- the one chunk of the heap is a top chunk
    unfold recut oneChunk at hm
    split at hm
    · split at hm <;> cases hm
    · cases hm

/-- In every run whose calls meet the condition of the regime the invariant holds. -/
theorem Reach.inv [DecidableEq τ] (h : RegimeReach R host s held) :
    ∃ B L, Inv R s B L ∧ Owned B held := by
  induction h with
  | start h => exact inv_start h
  | step _ q legal fit exec ih =>
    obtain ⟨B, L, inv, own⟩ := ih
    obtain ⟨r, s', B', L', hrun, hinv, hown⟩ := inv.step own legal fit
    obtain ⟨rfl, rfl⟩ := Prod.mk.inj (Option.some.inj (hrun.symm.trans exec))
    exact ⟨B', L', hinv, hown⟩

/-! ## Runs that can be computed -/

/-- Every mapping is granted, far from the others. -/
def spaciousHost : Host := ⟨fun k => some ((k + 1) * 2^24), 4096⟩

section
variable [DecidableEq τ]

instance (slack : Nat) (s : State τ) (k nb : Nat) : Decidable (TopServes slack s k nb) :=
  inferInstanceAs (Decidable (_ ∨ _))

instance (host : Host) (s : State τ) : Decidable (FreshServes host s) :=
  inferInstanceAs (Decidable (_ ∧ _))

instance (slack : Nat) (host : Host) (s : State τ) (t : τ) (nb : Nat) :
    Decidable (ArenaServes slack host s t nb) :=
  match h : s.threadArena t, h' : s.mainLocked with
  | some (k + 1), _ => decidable_of_iff (TopServes slack s (k + 1) nb) (by simp only [ArenaServes, h])
  | some 0, false => decidable_of_iff (TopServes slack s 0 nb) (by simp only [ArenaServes, h, h'])
  | some 0, true => decidable_of_iff (FreshServes host s) (by simp only [ArenaServes, h, h'])
  | none, false => decidable_of_iff (if nb ≤ maxFastSize then FreshServes host s else TopServes slack s 0 nb)
      (by simp only [ArenaServes, h, h'])
  | none, true => decidable_of_iff (maxFastSize < nb ∧ FreshServes host s)
      (by simp only [ArenaServes, h, h'])

instance (R : Regime) (host : Host) (s : State τ) (t : τ) (n : Nat) :
    Decidable (MallocFits R host s t n) :=
  inferInstanceAs (Decidable (_ ∧ (_ ≠ _ ∨ _)))

instance (R : Regime) (s : State τ) (t : τ) (p : Nat) : Decidable (FreeFits R s t p) :=
  inferInstanceAs (Decidable (_ ∨ (_ ∧ (_ ∧ (_ ∨ _)))))

/-- Whether a call of `pt_malloc` or `pt_free` is legal and meets the condition of the regime. -/
def Request.ready (R : Regime) (host : Host) (s : State τ) (held : List Nat) : Request τ → Bool
  | .malloc t n => decide (MallocFits R host s t n.toNat)
  | .free t p => decide ((p = 0 ∨ p ∈ held) ∧ FreeFits R s t p)
  | _ => false

/-- Calls in a row, so long as they meet the condition of the regime. -/
def runFrom (R : Regime) (host : Host) : List (Request τ) → State τ → List Nat →
    Option (State τ × List Nat)
  | [], s, held => some (s, held)
  | q :: qs, s, held =>
    if q.ready R host s held then
      match q.exec host s with
      | none => none
      | some (r, s') => runFrom R host qs s' (q.heldAfter r held)
    else none

/-- Calls in a row from `pt_malloc_init` on. -/
def runCalls (R : Regime) (host : Host) (qs : List (Request τ)) : Option (State τ × List Nat) :=
  match ptMallocInit host (boot host) with
  | none => none
  | some ((), s) => runFrom R host qs s []

theorem Request.ready_fits {q : Request τ} (h : q.ready R host s held = true) :
    q.Legal s held ∧ q.Fits R host s := by
  cases q with
  | malloc t n =>
    have hfits : MallocFits R host s t n.toNat := of_decide_eq_true h
    exact ⟨trivial, hfits⟩
  | free t p =>
    have hfits : (p = 0 ∨ p ∈ held) ∧ FreeFits R s t p := of_decide_eq_true h
    exact hfits
  | realloc t p n => cases h
  | memalign t a n => cases h
  | write p a v => cases h

theorem Reach.runFrom {s' : State τ} {held' : List Nat} {qs : List (Request τ)}
    (h : RegimeReach R host s held) (hrun : Words.runFrom R host qs s held = some (s', held')) :
    RegimeReach R host s' held' := by
  induction qs generalizing s held with
  | nil =>
    obtain ⟨rfl, rfl⟩ := Prod.mk.inj (Option.some.inj hrun)
    exact h
  | cons q qs ih =>
    rw [Words.runFrom] at hrun
    split at hrun
    · next hready =>
      obtain ⟨legal, fits⟩ := Request.ready_fits hready
      split at hrun
      · cases hrun
      · next r s₁ hexec => exact ih (h.step q legal fits hexec) hrun
    · cases hrun

/-- A run that is computed is a run of the regime. -/
theorem reach_of_runCalls {qs : List (Request τ)} (hrun : runCalls R host qs = some (s, held)) :
    RegimeReach R host s held := by
  unfold runCalls at hrun
  split at hrun
  · cases hrun
  · next s₀ h => exact (Reach.start h).runFrom hrun

theorem Reach.mono {fits fits' : State τ → Request τ → Prop} (h : Reach host fits s held)
    (himp : ∀ s q, fits s q → fits' s q) : Reach host fits' s held := by
  induction h with
  | start h => exact .start h
  | step _ q legal fit exec ih => exact ih.step q legal (himp _ q fit) exec

end

end MyMalloc.Ptmalloc.Words
