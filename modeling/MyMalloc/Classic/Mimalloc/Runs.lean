import MyMalloc.Classic.Mimalloc.Usable

/- Runs of the mimalloc-like allocator.

   The runs considered are those in which nothing but the size decides: the
   kernel answers on segment boundaries and gives every heap its memory, a block
   of a segment is freed by the thread whose heap it came from, and the client's
   memory does not imitate a segment. Outside of them `mi_malloc` fails for every
   size: without a heap it follows a null pointer, after a remote free it follows
   an encoded link, and a large block whose mapping begins inside 64 KiB is looked
   up through an address that need not be mapped. Within them it covers a request
   exactly if its class does, or if its size word and rounding fit in 64 bits
   (`miMalloc_sound_iff`): the classes end at 4096 bytes, while requests up to
   8192 are served from them. -/
namespace MyMalloc.Mimalloc

variable {τ : Type} {s : State τ} {held : List Nat} {host : Host}

/-- A call of the interface by a thread; `user` is the client's memory at the time of the call. -/
inductive Request (τ : Type) where
  | malloc (t : τ) (n : Nat)
  | calloc (t : τ) (n size : Nat) (user : Nat → Nat)
  | realloc (t : τ) (p n : Nat) (user : Nat → Nat)
  | memalign (t : τ) (alignment n : Nat)
  | free (t : τ) (p : Nat) (user : Nat → Nat)

/-- The blocks held after a call that returned `r`. -/
def Request.heldAfter : Request τ → Option Nat → List Nat → List Nat
  | .realloc _ p n _, r, held =>
    if n ≠ 0 ∧ r = none then held else r.toList ++ held.filter (· ≠ p)
  | .free _ p _, _, held => held.filter (· ≠ p)
  | _, r, held => r.toList ++ held

/-- Only a block that is held is freed or resized. -/
def Request.Legal : Request τ → List Nat → Prop
  | .realloc _ p _ _, held => p ∈ held
  | .free _ p _, held => p ∈ held
  | _, _ => True

/-- If `p` is a block of a segment, it is one of `t`'s own. -/
def Owns (s : State τ) (t : τ) (p : Nat) : Prop :=
  ∀ pg, s.page (segmentOf p) = some pg → (s.heap t).map (·.id) = some pg.heapTag

/-- The condition on a call: no remote free, no imitated segment, and no wrapping size
    in an aligned request. -/
def Request.Fits (s : State τ) : Request τ → Prop
  | .realloc t p _ user => Owns s t p ∧ ∀ a, user a ≠ segmentMagic
  | .free t p user => Owns s t p ∧ ∀ a, user a ≠ segmentMagic
  | .memalign _ a n => a ≤ blockAlign ∨ n + 2 * a + 16 ≤ 2^64
  | _ => True

variable [DecidableEq τ]

def Request.exec (host : Host) : Request τ → State τ → Option (Option Nat × State τ)
  | .malloc t n, s => miMalloc host t n s
  | .calloc t n size user, s => miCalloc host user t n size s
  | .realloc t p n user, s => miRealloc host user t p n s
  | .memalign t a n, s => miMemalign host t a n s
  | .free t p user, s => (miFree user t p s).map (fun s => (none, s))

/-- The states of runs in which every call meets the condition, with the blocks held. -/
inductive Reached (host : Host) : State τ → List Nat → Prop where
  | start : Reached host (State.start τ) []
  | step {s s' : State τ} {held : List Nat} {r : Option Nat} (h : Reached host s held)
      (q : Request τ) (legal : q.Legal held) (fits : q.Fits s)
      (exec : q.exec host s = some (r, s')) : Reached host s' (q.heldAfter r held)

/-! ## What a call preserves -/

section
variable (inv : Inv s held)
include inv

omit [DecidableEq τ] in
theorem Inv.ne_zero {p : Nat} (hp : p ∈ held) : p ≠ 0 := by
  obtain ⟨r, hr, hlo, -⟩ := inv.placed_region (inv.placed p hp)
  have := (inv.bound r hr).2.1
  omega

omit [DecidableEq τ] in
theorem Inv.pageFree {t : τ} {seg p : Nat} {pg : Page}
    (hpg : s.page seg = some pg) (hb : IsBlock seg pg p) (hseg : segmentOf p = seg)
    (hp : p ∈ held) (hown : Owns s t p) : Inv (pageFree t p pg s) (held.filter (· ≠ p)) := by
  obtain ⟨-, -, hok⟩ := inv.segment seg pg hpg
  obtain ⟨hnd, hout⟩ := inv.free seg pg hpg
  have hnot : p ∉ pg.localFree := fun h => hout p h hp
  rw [Mimalloc.pageFree, if_pos (hown pg (hseg ▸ hpg)), hseg]
  refine (inv.mono (fun q hq => (List.mem_filter.mp hq).1)).setPage hpg rfl rfl
    ⟨hok.pos, hok.fits, ?_, hok.quiet⟩ ⟨List.nodup_cons.mpr ⟨hnot, hnd⟩, ?_⟩
  · refine List.forall_mem_cons.mpr ⟨hb.congr rfl rfl, fun q hq => (hok.blocks q hq).congr rfl rfl⟩
  · refine List.forall_mem_cons.mpr ⟨fun h => ?_, fun q hq h => hout q hq (List.mem_filter.mp h).1⟩
    exact of_decide_eq_true (List.mem_filter.mp h).2 rfl

omit [DecidableEq τ] in
theorem Inv.miFree {user : Nat → Nat} {t : τ} {p : Nat} {s' : State τ}
    (hp : p ∈ held) (huser : ∀ a, user a ≠ segmentMagic) (hown : Owns s t p)
    (h : miFree user t p s = some s') : Inv s' (held.filter (· ≠ p)) := by
  rw [Mimalloc.miFree, if_neg (inv.ne_zero hp)] at h
  cases inv.placed p hp with
  | small hpg hb =>
    obtain ⟨hseg, hin, hhas⟩ := inv.inSegment_small hpg hb user
    simp only [hin, hseg, hpg, Option.map_some, hhas, if_true, Option.some.injEq] at h
    exact h ▸ inv.pageFree hpg hb hseg hp hown
  | @direct raw actual eq hword hr hlong hdvd hnil =>
    subst eq
    obtain ⟨hin, hpeek⟩ := inv.lookup_direct hr rfl hlong hword hdvd hnil user
    have hraw : raw % osPageSize = 0 := by
      have h16 : segmentSize = 65536 := rfl
      have h12 : osPageSize = 4096 := rfl
      rw [h16] at hdvd
      rw [h12]
      omega
    have hfree : rawFree raw (addS actual 8).val s = s' := by
      simpa only [hin, Nat.add_sub_cancel, hpeek, Option.map_some, Option.some.injEq] using h
    rw [rawFree, if_neg (by rw [not_or]; exact ⟨not_not.mpr hraw, by omega⟩)] at hfree
    exact hfree ▸ inv.unmap hr hnil hp ⟨by dsimp only; omega, by dsimp only; omega⟩
  | aligned hr hdvd hnil has heven =>
    -- the word in front of the block is no size, and `munmap` refuses the address
    have hin := inv.inSegment_lone hr hdvd hnil has (fun _ => huser _)
    simp only [hin, Option.map_eq_some_iff] at h
    obtain ⟨w, -, rfl⟩ := h
    have h0 := inv.ne_zero hp
    have hodd : (p - 8) % osPageSize ≠ 0 := by
      have h12 : osPageSize = 4096 := rfl
      rw [h12]
      omega
    rw [rawFree, if_pos (.inl hodd)]
    exact inv.mono (fun q hq => (List.mem_filter.mp hq).1)

theorem Inv.miMemalign (hreg : host.Regular) {t : τ} {alignment n : Nat}
    {r : Option Nat} {s' : State τ} (hfits : alignment ≤ blockAlign ∨ n + 2 * alignment + 16 ≤ 2^64)
    (h : miMemalign host t alignment n s = some (r, s')) : Inv s' (r.toList ++ held) := by
  unfold Mimalloc.miMemalign at h
  by_cases hal : alignment ≤ blockAlign
  · rw [if_pos hal] at h
    obtain ⟨res, s₁, hm, -, inv1, -⟩ := inv.miMalloc hreg t n
    obtain ⟨rfl, rfl⟩ := Prod.mk.inj (Option.some.inj (hm.symm.trans h))
    exact inv1
  rw [if_neg hal] at h
  by_cases hpow : alignment &&& (alignment - 1) ≠ 0
  · rw [if_pos hpow] at h
    obtain ⟨rfl, rfl⟩ := Prod.mk.inj (Option.some.inj h)
    exact inv
  rw [if_neg hpow] at h
  have h16 : blockAlign = 16 := rfl
  obtain ⟨k, rfl⟩ := (Nat.and_sub_one_eq_zero_iff_isPowerOfTwo (by omega)).mp (not_not.mp hpow)
  have hsum : n + 2 * 2^k + 16 ≤ 2^64 := hfits.resolve_left hal
  have hk : k < 64 := (Nat.pow_lt_pow_iff_right (by omega)).mp (by omega : 2^k < 2^64)
  have hk5 : 5 ≤ k := by
    by_contra hc
    have := Nat.pow_le_pow_right (by omega : 0 < 2) (by omega : k ≤ 4)
    omega
  have hpos : 0 < 2^k := Nat.two_pow_pos k
  have hact : (n + 8 + 2^k - 1) % 2^64 = n + 8 + 2^k - 1 := Nat.mod_eq_of_lt (by omega)
  generalize hactual : maskOff ((n + 8 + 2^k - 1) % 2^64) (2^k - 1) = actual at h
  have hle : actual ≤ n + 8 + 2^k - 1 := by
    rw [← hactual, hact]
    exact maskOff_le _ _
  have hdvd : 2^k ∣ actual := hactual ▸ dvd_maskOff_two_pow (Nat.mod_lt _ (by decide)) (by omega)
  have h32 : 32 ∣ 2^k := (Nat.pow_dvd_pow 2 hk5 : 2^5 ∣ 2^k)
  have htot : (actual + 8 + 2^k) % 2^64 = actual + 8 + 2^k := Nat.mod_eq_of_lt (by omega)
  dsimp only at h
  rw [htot] at h
  rcases rawAlloc_cases host (actual + 8 + 2^k) s with hr | ⟨raw, hcall, hmap, hr⟩
  · rw [hr] at h
    obtain ⟨rfl, rfl⟩ := Prod.mk.inj (Option.some.inj h)
    exact inv.refused
  · rw [hr] at h
    obtain ⟨rfl, rfl⟩ := Prod.mk.inj (Option.some.inj h)
    have hroom : actual + 8 + 2^k ≤ (mapSize (actual + 8 + 2^k)).val := by
      rcases mapSize_spec (n := actual + 8 + 2^k) (by omega) with ⟨-, -, h⟩ | ⟨-, -, h⟩
      · exact h
      · exact absurd h hmap.1
    generalize (mapSize (actual + 8 + 2^k)).val = len at hmap hroom ⊢
    have heven : 2 ∣ actual := Nat.dvd_trans (Nat.dvd_trans (by decide) h32) hdvd
    obtain ⟨hnil, hlone, inv1⟩ := inv.mapWord hmap heven
    have htop := hmap.2.2.2.1
    have hlo := le_maskOff_add (x := raw + 8 + 2^k - 1) (m := 2^k - 1) (by omega) (by omega)
    have hhi := maskOff_le (raw + 8 + 2^k - 1) (2^k - 1)
    have hal32 : 32 ∣ maskOff (raw + 8 + 2^k - 1) (2^k - 1) :=
      Nat.dvd_trans h32 (dvd_maskOff_two_pow (by omega) (by omega))
    generalize maskOff (raw + 8 + 2^k - 1) (2^k - 1) = p at hlo hhi hal32 ⊢
    have has : Region.Has ⟨raw, len⟩ p := ⟨by dsimp only; omega, by dsimp only; omega⟩
    exact inv1.hold_lone (.aligned (List.mem_cons_self ..) (hreg.aligned _ _ hcall) hnil has hal32)
      (List.mem_cons_self ..) hnil has hlone

omit [DecidableEq τ] in
/-- A thread keeps the blocks it owns while it allocates. -/
theorem Owns.extends {s' : State τ} {t : τ} {p : Nat} (h : Owns s t p)
    (hp : p ∈ held) (hext : Extends s s') : Owns s' t p := by
  intro pg' hpg'
  obtain ⟨r, hr, has⟩ := inv.placed_region (inv.placed p hp)
  rcases hext.fresh (segmentOf p) (by rw [hpg']; exact nofun) with hold | hapart
  · obtain ⟨pg, hpg⟩ := Option.ne_none_iff_exists'.mp hold
    obtain ⟨pg'', hpg'', htag⟩ := hext.page _ pg hpg
    obtain rfl : pg'' = pg' := Option.some.inj (hpg''.symm.trans hpg')
    obtain ⟨hp, hh, hid⟩ := Option.map_eq_some_iff.mp (h pg hpg)
    obtain ⟨hp', hh', hid'⟩ := hext.heap t hp hh
    rw [hh', Option.map_some, hid', hid, htag]
  · -- the segment around `p` cannot be new, `p` was mapped
    have hlt := (inv.bound r hr).2.2
    have hseg : segmentOf p = p - p % 65536 :=
      maskOff_two_pow (k := 16) (by have := has.2; omega) (by decide)
    have hmod := Nat.mod_lt p (by decide : 0 < 65536)
    refine absurd ⟨?_, ?_⟩ ((hapart r hr).not_has has) <;> dsimp only [segmentSize] <;> omega

theorem Inv.miRealloc (hreg : host.Regular) {t : τ} {p n : Nat}
    {user : Nat → Nat} {r : Option Nat} {s' : State τ} (hp : p ∈ held) (hown : Owns s t p)
    (huser : ∀ a, user a ≠ segmentMagic) (h : miRealloc host user t p n s = some (r, s')) :
    Inv s' (if n ≠ 0 ∧ r = none then held else r.toList ++ held.filter (· ≠ p)) := by
  rw [Mimalloc.miRealloc, if_neg (inv.ne_zero hp)] at h
  by_cases hn : n = 0
  · rw [if_pos hn, Option.map_eq_some_iff] at h
    obtain ⟨s₁, hf, he⟩ := h
    obtain ⟨rfl, rfl⟩ := Prod.mk.inj he
    rw [if_neg (fun hc => hc.1 hn)]
    exact inv.miFree hp huser hown hf
  rw [if_neg hn] at h
  cases hu : miUsableSize user p s with
  | none =>
    rw [hu] at h
    cases h
  | some old =>
    simp only [hu] at h
    by_cases hle : n ≤ old
    · rw [if_pos hle] at h
      obtain ⟨rfl, rfl⟩ := Prod.mk.inj (Option.some.inj h)
      rw [if_neg (fun hc => Option.some_ne_none p hc.2)]
      exact inv.mono (List.forall_mem_cons.mpr ⟨hp, fun q hq => (List.mem_filter.mp hq).1⟩)
    rw [if_neg hle] at h
    obtain ⟨res, s₁, hm, hext, inv1, hnew⟩ := inv.miMalloc hreg t n
    rw [hm] at h
    cases res with
    | none =>
      obtain ⟨rfl, rfl⟩ := Prod.mk.inj (Option.some.inj h)
      rwa [if_pos ⟨hn, rfl⟩]
    | some np =>
      obtain ⟨s₂, hf, he⟩ := Option.map_eq_some_iff.mp h
      obtain ⟨rfl, rfl⟩ := Prod.mk.inj he
      have hne : np ≠ p := fun e => (hnew np rfl).1 (e ▸ hp)
      have inv2 := inv1.miFree (List.mem_cons_of_mem np hp) huser (hown.extends inv hp hext) hf
      rw [if_neg (fun hc => Option.some_ne_none np hc.2)]
      simpa [hne] using inv2

theorem Inv.step (hreg : host.Regular) {q : Request τ} {r : Option Nat}
    {s' : State τ} (legal : q.Legal held) (fits : q.Fits s) (h : q.exec host s = some (r, s')) :
    Inv s' (q.heldAfter r held) := by
  cases q with
  | malloc t n =>
    obtain ⟨res, s₁, hm, -, inv1, -⟩ := inv.miMalloc hreg t n
    obtain ⟨rfl, rfl⟩ := Prod.mk.inj (Option.some.inj (hm.symm.trans h))
    exact inv1
  | calloc t n size user =>
    simp only [Request.exec, miCalloc] at h
    split at h
    · obtain ⟨rfl, rfl⟩ := Prod.mk.inj (Option.some.inj h)
      exact inv
    · obtain ⟨res, s₁, hm, -, inv1, -⟩ := inv.miMalloc hreg t (n * size % 2^64)
      rw [hm] at h
      cases res with
      | none =>
        obtain ⟨rfl, rfl⟩ := Prod.mk.inj (Option.some.inj h)
        exact inv1
      | some p =>
        obtain ⟨u, -, he⟩ := Option.map_eq_some_iff.mp h
        obtain ⟨rfl, rfl⟩ := Prod.mk.inj he
        exact inv1
  | realloc t p n user => exact inv.miRealloc hreg legal fits.1 fits.2 h
  | memalign t a n => exact inv.miMemalign hreg fits h
  | free t p user =>
    obtain ⟨s₁, hf, he⟩ := Option.map_eq_some_iff.mp h
    obtain ⟨rfl, rfl⟩ := Prod.mk.inj he
    exact inv.miFree legal fits.2 fits.1 hf

end

theorem Reached.inv (hreg : host.Regular) (h : Reached host s held) : Inv s held := by
  induction h with
  | start => exact inv_start
  | step _ q legal fits exec ih => exact ih.step hreg legal fits exec

/-! ## The requests that are covered -/

omit [DecidableEq τ] in
/-- The call returns: null, or a block of at least `n` usable and mapped bytes, whatever
    the client's memory holds. -/
def Covers (r : Option (Option Nat × State τ)) (n : Nat) : Prop :=
  ∃ res s, r = some (res, s) ∧ ∀ p, res = some p →
    (∀ user, ∃ u, miUsableSize user p s = some u ∧ n ≤ u) ∧ Backed p n s

/-- No thread gets too little for a request of `n` bytes, in any state of a run. -/
def NeverUnder (n : Nat) : Prop :=
  ∀ (host : Host) (s : State Nat) (held : List Nat) (t : Nat), host.Regular → Reached host s held →
    Covers (miMalloc host t n s) n

theorem neverUnder_of_le {n : Nat} (h : n ≤ promised n) : NeverUnder n := by
  intro host s held t hreg hs
  obtain ⟨res, s', hr, -, -, hnew⟩ := (hs.inv hreg).miMalloc hreg t n
  refine ⟨res, s', hr, fun p hp => ?_⟩
  obtain ⟨-, hserves⟩ := hnew p hp
  exact ⟨fun user => ⟨promised n, hserves.usable user, h⟩,
    fun a h1 h2 => hserves.backed a h1 (by omega)⟩

/-- The promise reaches the request, except between the last class and the large sizes and
    where the stored size wraps. -/
theorem le_promised_iff {n : Nat} (hlt : n < 2^64) :
    n ≤ promised n ↔ n ≤ 4096 ∨ (maxSmallSize < n ∧ n ≤ 2^64 - 24) := by
  have hmax : maxSmallSize = 8192 := rfl
  unfold promised
  by_cases hn : maxSmallSize < n
  · rw [if_pos hn]
    by_cases hw : n ≤ 2^64 - 24
    · rw [largeActual_exact hw, exactly_val]
      omega
    · have := (largeActual_wrap (by omega) hlt).2
      omega
  · rw [if_neg hn, le_miClassSize_iff (by omega)]
    omega

/-- No sum in the sizes of a large request wraps up to `2^64 - 4120`; from there to
    `2^64 - 24` only the rounding to pages does, to a mapping of no bytes, which is refused. -/
theorem largeSizes_wrapped_iff {n : Nat} (hlt : n < 2^64) :
    (largeSizes n).wrapped = false ↔ n ≤ 2^64 - 4120 := by
  rw [largeSizes, bind_wrapped]
  by_cases hw : n ≤ 2^64 - 24
  · have hact := largeActual_exact hw
    generalize hactual : n + 23 - (n + 23) % 16 = actual at hact
    have hadd : addS actual 8 = exactly (actual + 8) := addS_exact (by omega)
    simp only [hact, exactly_val, exactly_wrapped, hadd, bind_wrapped, pure_eq_exactly,
      Bool.false_or, Bool.or_false]
    rcases mapSize_spec (n := actual + 8) (by omega) with ⟨h1, h2, -⟩ | ⟨h1, h2, -⟩
    · rw [h2]
      exact ⟨fun _ => by omega, fun _ => rfl⟩
    · rw [h2]
      exact ⟨fun h => absurd h (by decide), fun h => by omega⟩
  · rw [(largeActual_wrap (by omega) hlt).1, Bool.true_or]
    exact ⟨fun h => absurd h (by decide), fun h => by omega⟩

/-- A host that grants everything, a megabyte further each time. -/
def eagerHost : Host := ⟨fun k => some ((k + 1) * 2^20), fun _ => true⟩

theorem eagerHost_regular : eagerHost.Regular := by
  refine ⟨fun k raw h => ?_, fun _ => rfl⟩
  obtain rfl := Option.some.inj h
  exact Nat.dvd_trans (by decide) (Nat.dvd_mul_left _ _)

/-- The first call in a process with that host is served, if its promise falls short. -/
theorem start_served {n : Nat} (hlt : n < 2^64) (hshort : promised n < n) :
    (miMalloc eagerHost 0 n (State.start Nat)).map (·.1) ≠ some none := by
  have hmax : maxSmallSize = 8192 := rfl
  have hiff := le_promised_iff hlt
  have h0 : n ≠ 0 := by omega
  unfold miMalloc
  dsimp only
  rw [if_neg h0]
  by_cases hn : maxSmallSize < n
  · rw [if_pos hn]
    have hwrap := (largeActual_wrap (by omega) hlt).2
    have hdvd := sixteen_dvd_largeActual n
    generalize (largeActual n).val = actual at hwrap hdvd
    obtain rfl | rfl : actual = 0 ∨ actual = 16 := by omega
    · decide +kernel
    · decide +kernel
  · rw [if_neg hn]
    have hclass : miClassIndex n = 255 := by
      have hstep : classStepSmall = 16 := rfl
      have hcount : classCountSmall = 256 := rfl
      simp only [miClassIndex, if_neg h0, if_pos (by omega : n ≤ maxSmallSize), hstep, hcount]
      split <;> omega
    rw [hclass]
    decide +kernel

theorem not_neverUnder {n : Nat} (hlt : n < 2^64) (hshort : promised n < n) : ¬ NeverUnder n := by
  intro h
  obtain ⟨res, s', hr, hcov⟩ := h eagerHost _ [] 0 eagerHost_regular .start
  obtain ⟨res', s'', hr', -, -, hnew⟩ := inv_start.miMalloc eagerHost_regular 0 n
  obtain ⟨rfl, rfl⟩ := Prod.mk.inj (Option.some.inj (hr.symm.trans hr'))
  have hserved := start_served hlt hshort
  rw [hr] at hserved
  cases res with
  | none => exact hserved rfl
  | some p =>
    obtain ⟨u, hu, hle⟩ := (hcov p rfl).1 (fun _ => 0)
    rw [(hnew p rfl).2.usable] at hu
    obtain rfl := Option.some.inj hu
    omega

/-- For every 64-bit request, all of this holds exactly if the request is at most 4096
    bytes, or over 8192 and far enough from `2^64`: no thread gets less than it asked for in any
    state of a run, the class of a small request covers it, and no size of a large one wraps. The
    blocks themselves are long enough a little further, up to `2^64 - 24`. -/
theorem miMalloc_sound_iff (n : UInt64) :
    ((NeverUnder n.toNat ∧
      (n.toNat ≤ maxSmallSize → n.toNat ≤ miClassSize (miClassIndex n.toNat)) ∧
      (maxSmallSize < n.toNat → (largeSizes n.toNat).wrapped = false)) ↔
      n.toNat ≤ 4096 ∨ (maxSmallSize < n.toNat ∧ n.toNat ≤ 2^64 - 4120)) ∧
    (NeverUnder n.toNat ↔ n.toNat ≤ 4096 ∨ (maxSmallSize < n.toNat ∧ n.toNat ≤ 2^64 - 24)) := by
  have hlt : n.toNat < 2^64 := n.toNat_lt
  generalize n.toNat = n at hlt ⊢
  have hmax : maxSmallSize = 8192 := rfl
  have hnever : NeverUnder n ↔ n ≤ promised n :=
    ⟨fun h => Nat.not_lt.mp (fun hs => not_neverUnder hlt hs h), neverUnder_of_le⟩
  have hpromise := le_promised_iff hlt
  refine ⟨?_, hnever.trans hpromise⟩
  rw [hnever, hpromise, largeSizes_wrapped_iff hlt]
  constructor
  · rintro ⟨h1, -, h3⟩
    by_cases hn : maxSmallSize < n
    · exact .inr ⟨hn, h3 hn⟩
    · omega
  · intro h
    refine ⟨by omega, fun hn => (le_miClassSize_iff hn).mpr (by omega), fun hn => by omega⟩

-- A block freed by another thread stops the next request of its class, and so does a heap
-- that gets no memory.
example : ((miMalloc eagerHost 0 16 (State.start Nat)).bind (fun r =>
    (r.1.bind (fun p => miFree (fun _ => 0) 1 p r.2)).bind
      (fun s => miMalloc eagerHost 0 16 s))).isNone := by decide +kernel

example : (miMalloc ⟨eagerHost.mmap, fun _ => false⟩ 0 16 (State.start Nat)).isNone := by
  decide +kernel

/-- A request of 5000 bytes, the first of a process, gets a block of 4096 usable bytes. -/
theorem malloc_5000_under :
    (miMalloc eagerHost 0 5000 (State.start Nat)).bind
      (fun r => r.1.bind (fun p => miUsableSize (fun _ => 0) p r.2)) = some 4096 ∧
    eagerHost.Regular ∧ Reached eagerHost (State.start Nat) [] ∧ ¬ NeverUnder 5000 :=
  ⟨by decide +kernel, eagerHost_regular, .start, not_neverUnder (by decide) (by decide)⟩

end MyMalloc.Mimalloc
